import SteinerSearch.Json.Lexeme

/-!
# Lexemes that are read

The grammar of the smallest parts of a JSON text, and that the readers take such a part in full,
whatever follows it.  A number may be followed by anything that does not continue it.

A string may be used, and then the halves of surrogate pairs have to come in pairs, or skipped, and
then they need not.

## Main definitions

* `Json.Blanks ws`, `Json.IsHex ds n`, `Json.IsDigits ds` — blanks, four hexadecimal digits and
  decimal digits.
* `Json.Spells source text`, `Json.IsString source` — strings that are used, with the text that
  they stand for, and strings that are skipped.
* `Json.IsWhole ds`, `Json.IsNumber cs` — whole numbers and numbers.
* `Json.EndsNumber rest` — no number goes on with `rest`.

## Main results

* `Json.readString_of_spells`, `Json.skipString_of_isString`, `Json.skipNumber_of_isNumber` —
  the lexemes are read.
-/

namespace SteinerSearch

namespace Json

/-! ### Blanks -/

/-- Blanks between the parts of a text. -/
def Blanks (ws : List Char) : Prop := ∀ c ∈ ws, c = ' ' ∨ c = '\n' ∨ c = '\t' ∨ c = '\r'

-- by the list, not by all characters
instance (ws : List Char) : Decidable (Blanks ws) := List.decidableBAll _ ws

theorem blanks_nil : Blanks [] := fun _ h => nomatch h

theorem skipBlank_append {ws : List Char} (h : Blanks ws) (cs : List Char) :
    skipBlank (ws ++ cs) = skipBlank cs := by
  induction ws with
  | nil => rfl
  | cons c ws ih =>
    obtain ⟨hc, hws⟩ := List.forall_mem_cons.mp h
    rw [List.cons_append, skipBlank, if_pos hc, ih hws]

theorem skipBlank_cons {c : Char} (h : ¬ (c = ' ' ∨ c = '\n' ∨ c = '\t' ∨ c = '\r'))
    (cs : List Char) : skipBlank (c :: cs) = c :: cs := by
  rw [skipBlank, if_neg h]

/-! ### Strings -/

/-- What hexadecimal digits make of the number before them. -/
def hexFrom? (n : Nat) (ds : List Char) : Option Nat :=
  ds.foldlM (fun n d => (hexValue? d).map fun x => n * 16 + x) n

/-- Four hexadecimal digits of the number `n`. -/
structure IsHex (ds : List Char) (n : Nat) : Prop where
  /-- There are four of them. -/
  length : ds.length = 4
  /-- They are the digits of `n`. -/
  value : hexFrom? 0 ds = some n

/-- Between an opening quote and the end of a closing one stands a string, which stands for a
text. -/
inductive Spells : List Char → List Char → Prop
  /-- The closing quote. -/
  | close : Spells ['"'] []
  /-- A character that stands for itself. -/
  | plain {c : Char} {source text : List Char} (hc : c ≠ '"' ∧ c ≠ '\\' ∧ 0x20 ≤ c.toNat)
      (h : Spells source text) : Spells (c :: source) (c :: text)
  /-- A backslash and a character that together stand for another one. -/
  | escape {c x : Char} {source text : List Char} (hx : escaped? c = some x)
      (h : Spells source text) : Spells ('\\' :: c :: source) (x :: text)
  /-- The number of a character. -/
  | number {ds : List Char} {n : Nat} {source text : List Char} (hds : IsHex ds n)
      (hn : ¬ (0xD800 ≤ n ∧ n ≤ 0xDFFF)) (h : Spells source text) :
      Spells ('\\' :: 'u' :: (ds ++ source)) (Char.ofNat n :: text)
  /-- The two halves of a surrogate pair. -/
  | pair {ds ds' : List Char} {high low : Nat} {source text : List Char} (hds : IsHex ds high)
      (hhigh : 0xD800 ≤ high ∧ high ≤ 0xDBFF) (hds' : IsHex ds' low)
      (hlow : 0xDC00 ≤ low ∧ low ≤ 0xDFFF) (h : Spells source text) :
      Spells ('\\' :: 'u' :: (ds ++ '\\' :: 'u' :: (ds' ++ source)))
        (Char.ofNat (0x10000 + (high - 0xD800) * 0x400 + (low - 0xDC00)) :: text)

/-- Between an opening quote and the end of a closing one stands a string. -/
inductive IsString : List Char → Prop
  /-- The closing quote. -/
  | close : IsString ['"']
  /-- A character that stands for itself. -/
  | plain {c : Char} {source : List Char} (hc : c ≠ '"' ∧ c ≠ '\\' ∧ 0x20 ≤ c.toNat)
      (h : IsString source) : IsString (c :: source)
  /-- A backslash and a character that together stand for another one. -/
  | escape {c x : Char} {source : List Char} (hx : escaped? c = some x) (h : IsString source) :
      IsString ('\\' :: c :: source)
  /-- The number of a character, or of a half of one. -/
  | number {ds : List Char} {n : Nat} {source : List Char} (hds : IsHex ds n)
      (h : IsString source) : IsString ('\\' :: 'u' :: (ds ++ source))

theorem length_le_byteCount (cs : List Char) : cs.length ≤ byteCount cs := by
  suffices h : ∀ n, n + cs.length ≤ cs.foldl (fun n c => n + c.utf8Size) n by
    simpa [byteCount] using h 0
  induction cs with
  | nil => simp
  | cons c cs ih =>
    intro n
    have := ih (n + c.utf8Size)
    have := c.utf8Size_pos
    rw [List.length_cons, List.foldl_cons]
    omega

theorem startDigits_append {ds : List Char} {n : Nat} (h : IsHex ds n) (high? : Option Nat)
    (rest : List Char) : startDigits high? (ds ++ rest) = .ok (.digits high? 4 0) := by
  have := length_le_byteCount (ds ++ rest)
  rw [List.length_append, h.length] at this
  rw [startDigits, if_neg (by omega)]

variable {mode : Surrogates} {rest : List Char}

theorem readStringFrom_step {place place' : StringPlace} {c : Char} {done? : Option Char}
    (hstep : stringStep mode place c rest = .ok (some (place', done?))) :
    readStringFrom mode place (c :: rest) =
      (readStringFrom mode place' rest).map fun (text, rest) => (done?.toList ++ text, rest) := by
  rw [readStringFrom, hstep]

/-- The digits of a number are read one by one. -/
theorem readStringFrom_digits {ds : List Char} (hne : ds ≠ []) {high? : Option Nat}
    {value n : Nat} (hn : hexFrom? value ds = some n) {place : StringPlace} {done? : Option Char}
    (hdone : completeEscape mode high? n = .ok (place, done?)) :
    readStringFrom mode (.digits high? ds.length value) (ds ++ rest) =
      (readStringFrom mode place rest).map fun (text, rest) => (done?.toList ++ text, rest) := by
  induction ds generalizing value with
  | nil => exact absurd rfl hne
  | cons d ds ih =>
    rw [hexFrom?, List.foldlM_cons] at hn
    cases hd : hexValue? d with
    | none =>
      rw [hd] at hn
      cases hn
    | some x =>
      rw [hd] at hn
      replace hn : hexFrom? (value * 16 + x) ds = some n := hn
      cases ds with
      | nil =>
        obtain rfl := Option.some.inj hn
        have hstep : stringStep mode (.digits high? [d].length value) d rest =
            .ok (some (place, done?)) := by
          simp [stringStep, hd, hdone, Except.map]
        exact readStringFrom_step hstep
      | cons d' ds =>
        have hstep : stringStep mode (.digits high? (d :: d' :: ds).length value) d
            (d' :: ds ++ rest) =
              .ok (some (.digits high? (d' :: ds).length (value * 16 + x), none)) := by
          simp [stringStep, hd]
        rw [List.cons_append, readStringFrom_step hstep, ih (by simp) hn]
        cases readStringFrom mode place rest <;> rfl

/-- A number after `u`. -/
theorem readStringFrom_number {ds : List Char} {n : Nat} (h : IsHex ds n) {high? : Option Nat}
    {place : StringPlace} {done? : Option Char}
    (hdone : completeEscape mode high? n = .ok (place, done?)) :
    readStringFrom mode (.digits high? 4 0) (ds ++ rest) =
      (readStringFrom mode place rest).map fun (text, rest) => (done?.toList ++ text, rest) := by
  rw [← h.length]
  refine readStringFrom_digits (fun hnil => ?_) h.value hdone
  have := h.length
  rw [hnil] at this
  cases this

theorem readStringFrom_plain {c : Char} (hc : c ≠ '"' ∧ c ≠ '\\' ∧ 0x20 ≤ c.toNat) :
    readStringFrom mode .plain (c :: rest) =
      (readStringFrom mode .plain rest).map fun (text, rest) => (c :: text, rest) := by
  have hcontrol : ¬ c.toNat < 0x20 := by omega
  have hstep : stringStep mode .plain c rest = .ok (some (.plain, some c)) := by
    rw [stringStep, if_neg hc.1, if_neg hc.2.1, if_neg hcontrol]
  exact readStringFrom_step hstep

theorem readStringFrom_backslash (rest : List Char) :
    readStringFrom mode .plain ('\\' :: rest) = readStringFrom mode .escape rest := by
  have hstep : stringStep mode .plain '\\' rest = .ok (some (.escape, none)) := rfl
  rw [readStringFrom_step hstep]
  cases readStringFrom mode .escape rest <;> rfl

theorem readStringFrom_escape {c x : Char} (hx : escaped? c = some x) :
    readStringFrom mode .plain ('\\' :: c :: rest) =
      (readStringFrom mode .plain rest).map fun (text, rest) => (x :: text, rest) := by
  have hu : c ≠ 'u' := by
    rintro rfl
    cases hx
  have hstep : stringStep mode .escape c rest = .ok (some (.plain, some x)) := by
    rw [stringStep, if_neg hu, hx]
  rw [readStringFrom_backslash]
  exact readStringFrom_step hstep

theorem readStringFrom_escape_number {ds : List Char} {n : Nat} (h : IsHex ds n)
    {place : StringPlace} {done? : Option Char}
    (hdone : completeEscape mode none n = .ok (place, done?)) :
    readStringFrom mode .plain ('\\' :: 'u' :: (ds ++ rest)) =
      (readStringFrom mode place rest).map fun (text, rest) => (done?.toList ++ text, rest) := by
  have hstep : stringStep mode .escape 'u' (ds ++ rest) = .ok (some (.digits none 4 0, none)) := by
    rw [stringStep, if_pos rfl, startDigits_append h, Except.map]
  rw [readStringFrom_backslash, readStringFrom_step hstep, readStringFrom_number h hdone]
  cases readStringFrom mode place rest <;> rfl

theorem readStringFrom_low_number {ds : List Char} {high n : Nat} (h : IsHex ds n)
    {place : StringPlace} {done? : Option Char}
    (hdone : completeEscape mode (some high) n = .ok (place, done?)) :
    readStringFrom mode (.lowEscape high) ('\\' :: 'u' :: (ds ++ rest)) =
      (readStringFrom mode place rest).map fun (text, rest) => (done?.toList ++ text, rest) := by
  have hslash : stringStep mode (.lowEscape high) '\\' ('u' :: (ds ++ rest)) =
      .ok (some (.lowMark high, none)) := rfl
  have hstep : stringStep mode (.lowMark high) 'u' (ds ++ rest) =
      .ok (some (.digits (some high) 4 0, none)) := by
    rw [stringStep, if_pos rfl, startDigits_append h, Except.map]
  rw [readStringFrom_step hslash, readStringFrom_step hstep, readStringFrom_number h hdone]
  cases readStringFrom mode place rest <;> rfl

/-- A string that is used is read as the text that it stands for. -/
theorem readString_of_spells {source text : List Char} (h : Spells source text)
    (rest : List Char) : readString (source ++ rest) = .ok (text, rest) := by
  unfold readString
  induction h with
  | close => rfl
  | plain hc _ ih => rw [List.cons_append, readStringFrom_plain hc, ih, Except.map]
  | escape hx _ ih =>
    rw [List.cons_append, List.cons_append, readStringFrom_escape hx, ih, Except.map]
  | @number ds n source text hds hn _ ih =>
    have hdone : completeEscape .paired none n = .ok (.plain, some (Char.ofNat n)) := by
      rw [completeEscape, if_neg (by omega), if_neg (by omega)]
    rw [List.cons_append, List.cons_append, List.append_assoc,
      readStringFrom_escape_number hds hdone, ih]
    rfl
  | @pair ds ds' high low source text hds hhigh hds' hlow _ ih =>
    have hfirst : completeEscape .paired none high = .ok (.lowEscape high, none) := by
      rw [completeEscape, if_neg (by omega), if_pos hhigh]
    have hsecond : completeEscape .paired (some high) low = .ok (.plain,
        some (Char.ofNat (0x10000 + (high - 0xD800) * 0x400 + (low - 0xDC00)))) := by
      rw [completeEscape, if_pos hlow]
    rw [List.cons_append, List.cons_append, List.append_assoc, List.cons_append, List.cons_append,
      List.append_assoc, readStringFrom_escape_number hds hfirst,
      readStringFrom_low_number hds' hsecond, ih]
    rfl

/-- A string is skipped. -/
theorem skipString_of_isString {source : List Char} (h : IsString source) (rest : List Char) :
    skipString (source ++ rest) = .ok rest := by
  suffices hread : ∃ text, readStringFrom .unchecked .plain (source ++ rest) = .ok (text, rest) by
    obtain ⟨text, hread⟩ := hread
    rw [skipString, hread, Except.map]
  induction h with
  | close => exact ⟨[], rfl⟩
  | plain hc _ ih =>
    obtain ⟨text, ih⟩ := ih
    exact ⟨_, by rw [List.cons_append, readStringFrom_plain hc, ih, Except.map]⟩
  | escape hx _ ih =>
    obtain ⟨text, ih⟩ := ih
    exact ⟨_, by
      rw [List.cons_append, List.cons_append, readStringFrom_escape hx, ih, Except.map]⟩
  | @number ds n source hds _ ih =>
    obtain ⟨text, ih⟩ := ih
    have hdone : completeEscape .unchecked none n = .ok (.plain, none) := rfl
    exact ⟨_, by
      rw [List.cons_append, List.cons_append, List.append_assoc,
        readStringFrom_escape_number hds hdone, ih, Except.map]⟩

/-! ### Numbers -/

/-- Some decimal digits. -/
structure IsDigits (ds : List Char) : Prop where
  /-- There is a digit. -/
  ne_nil : ds ≠ []
  /-- There are only digits. -/
  isDigit : ∀ c ∈ ds, c.isDigit = true

/-- The digits of a whole number, of which only zero begins with a zero. -/
structure IsWhole (ds : List Char) : Prop extends IsDigits ds where
  /-- No zero stands in front of other digits. -/
  zero : ∀ c cs, ds ≠ '0' :: c :: cs

/-- A fraction, or nothing. -/
inductive IsFraction : List Char → Prop
  /-- Nothing. -/
  | none : IsFraction []
  /-- A point and digits. -/
  | digits {ds : List Char} (hds : IsDigits ds) : IsFraction ('.' :: ds)

/-- An exponent, or nothing. -/
inductive IsExponent : List Char → Prop
  /-- Nothing. -/
  | none : IsExponent []
  /-- The letter, perhaps a sign, and digits. -/
  | digits {e : Char} {sign ds : List Char} (he : e = 'e' ∨ e = 'E')
      (hsign : sign = [] ∨ sign = ['+'] ∨ sign = ['-']) (hds : IsDigits ds) :
      IsExponent (e :: (sign ++ ds))

/-- A number without its sign. -/
inductive IsNumber : List Char → Prop
  /-- It is made of these parts. -/
  | parts {whole fraction exponent : List Char} (hwhole : IsWhole whole)
      (hfraction : IsFraction fraction) (hexponent : IsExponent exponent) :
      IsNumber (whole ++ (fraction ++ exponent))

theorem IsNumber.exists_cons {cs : List Char} (h : IsNumber cs) :
    ∃ d ds, cs = d :: ds ∧ d.isDigit = true := by
  obtain ⟨hwhole, -, -⟩ := h
  obtain ⟨d, ds, rfl⟩ := List.exists_cons_of_ne_nil hwhole.ne_nil
  exact ⟨d, _, rfl, hwhole.isDigit d List.mem_cons_self⟩

/-- No number goes on with this text. -/
def EndsNumber (rest : List Char) : Prop :=
  ∀ c, rest.head? = some c → c.isDigit = false ∧ c ≠ '.' ∧ c ≠ 'e' ∧ c ≠ 'E'

theorem endsNumber_append {ws : List Char} (h : Blanks ws) {c : Char} (hc : c ∈ [',', ']', '\x7d'])
    (cs : List Char) : EndsNumber (ws ++ c :: cs) := by
  have hends : ∀ b, b = ' ' ∨ b = '\n' ∨ b = '\t' ∨ b = '\r' ∨ b ∈ [',', ']', '\x7d'] →
      b.isDigit = false ∧ b ≠ '.' ∧ b ≠ 'e' ∧ b ≠ 'E' := by
    intro b hb
    simp only [List.mem_cons, List.not_mem_nil, or_false] at hb
    rcases hb with rfl | rfl | rfl | rfl | rfl | rfl | rfl <;> decide
  intro b hb
  apply hends
  cases ws with
  | nil =>
    obtain rfl := Option.some.inj hb
    simp [hc]
  | cons w ws =>
    obtain rfl := Option.some.inj hb
    rcases h w List.mem_cons_self with h | h | h | h <;> simp [h]

/-- A text does not begin with a digit. -/
def NoDigit (rest : List Char) : Prop := ∀ c, rest.head? = some c → c.isDigit = false

theorem digitsOf_append {ds : List Char} (hds : IsDigits ds) (hrest : NoDigit rest) :
    digitsOf (ds ++ rest) = ds ∧ afterDigits (ds ++ rest) = rest := by
  have htake : digitsOf rest = [] := by
    cases rest with
    | nil => rfl
    | cons c rest => simp [digitsOf, hrest c rfl]
  have hdrop : afterDigits rest = rest := by
    cases rest with
    | nil => rfl
    | cons c rest => simp [afterDigits, hrest c rfl]
  rw [digitsOf, afterDigits, List.takeWhile_append_of_pos hds.isDigit,
    List.dropWhile_append_of_pos hds.isDigit]
  rw [digitsOf] at htake
  rw [afterDigits] at hdrop
  rw [htake, hdrop, List.append_nil]
  exact ⟨rfl, rfl⟩

theorem skipExponent?_append {exponent : List Char} (h : IsExponent exponent)
    (hrest : EndsNumber rest) : skipExponent? (exponent ++ rest) = .ok rest := by
  cases h with
  | none =>
    rw [List.nil_append]
    unfold skipExponent?
    split
    · exact absurd rfl (hrest _ rfl).2.2.1
    · exact absurd rfl (hrest _ rfl).2.2.2
    · rfl
  | @digits e sign ds he hsign hds =>
    have hskip : skipExponent (sign ++ ds ++ rest) = .ok rest := by
      obtain ⟨hdigits, hafter⟩ := digitsOf_append hds fun c hc => (hrest c hc).1
      obtain ⟨d, ds, rfl⟩ := List.exists_cons_of_ne_nil hds.ne_nil
      have hd := hds.isDigit d List.mem_cons_self
      unfold skipExponent
      rcases hsign with rfl | rfl | rfl
      · rw [List.nil_append]
        split
        · next h =>
          obtain ⟨rfl, -⟩ := List.cons.inj h
          cases hd
        · next h =>
          obtain ⟨rfl, -⟩ := List.cons.inj h
          cases hd
        · simp only [hdigits, hafter]
      · rw [List.append_assoc, List.singleton_append]
        simp only [hdigits, hafter]
      · rw [List.append_assoc, List.singleton_append]
        simp only [hdigits, hafter]
    rcases he with rfl | rfl
    · exact hskip
    · exact hskip

theorem noDigit_exponent {exponent : List Char} (h : IsExponent exponent)
    (hrest : EndsNumber rest) : NoDigit (exponent ++ rest) := by
  cases h with
  | none => exact fun c hc => (hrest c hc).1
  | digits he _ _ =>
    intro c hc
    obtain rfl := Option.some.inj hc
    rcases he with rfl | rfl <;> rfl

theorem noDigit_fraction {fraction : List Char} (h : IsFraction fraction) (hrest : NoDigit rest) :
    NoDigit (fraction ++ rest) := by
  cases h with
  | none => exact hrest
  | digits _ =>
    intro c hc
    obtain rfl := Option.some.inj hc
    rfl

/-- A number is skipped. -/
theorem skipNumber_of_isNumber {cs : List Char} (h : IsNumber cs) (hrest : EndsNumber rest) :
    skipNumber (cs ++ rest) = .ok rest := by
  obtain ⟨hwhole, hfraction, hexponent⟩ := h
  have hnoDigit := noDigit_exponent hexponent hrest
  rw [List.append_assoc, List.append_assoc]
  obtain ⟨hdigits, hafter⟩ :=
    digitsOf_append hwhole.toIsDigits (noDigit_fraction hfraction hnoDigit)
  unfold skipNumber
  rw [hdigits, hafter]
  split
  · exact absurd rfl hwhole.ne_nil
  · exact absurd rfl (hwhole.zero _ _)
  cases hfraction with
  | digits hds =>
    obtain ⟨hdigits, hafter⟩ := digitsOf_append hds hnoDigit
    simp only [List.cons_append, hdigits, hafter]
    obtain ⟨d, ds, rfl⟩ := List.exists_cons_of_ne_nil hds.ne_nil
    exact skipExponent?_append hexponent hrest
  | none =>
    rw [List.nil_append]
    split
    · next hpoint =>
      -- neither an exponent nor what follows a number begins with a point
      exfalso
      cases hexponent with
      | none => exact (hrest _ (congrArg List.head? hpoint)).2.1 rfl
      | digits he _ _ =>
        obtain ⟨rfl, -⟩ := List.cons.inj hpoint
        rcases he with he | he <;> cases he
    · exact skipExponent?_append hexponent hrest

/-- Digits are read as the number that they stand for, if it has at most 64 bits. -/
theorem readNumber_append {ds : List Char} (h : IsWhole ds) (hlength : ds.length ≤ 20)
    (hvalue : valueOf ds < Nat.pow 2 64) (hrest : EndsNumber rest) :
    readNumber false (ds ++ rest) = .ok (.natural (valueOf ds), rest) := by
  obtain ⟨hdigits, hafter⟩ := digitsOf_append h.toIsDigits fun c hc => (hrest c hc).1
  have hword : wordOf? ds = some (valueOf ds) := if_pos ⟨hlength, hvalue⟩
  unfold readNumber
  rw [hdigits, hafter]
  split
  · exact absurd rfl h.ne_nil
  · exact absurd rfl (h.zero _ _)
  · unfold readTail
    split
    · exact absurd rfl (hrest _ rfl).2.1
    · exact absurd rfl (hrest _ rfl).2.2.1
    · exact absurd rfl (hrest _ rfl).2.2.2
    · rw [hword]

/-! ### Printed numbers -/

theorem valueOf_eq_ofDigitChars (ds : List Char) : valueOf ds = Nat.ofDigitChars 10 ds 0 := by
  rw [valueOf, Nat.ofDigitChars_eq_foldl]
  simp [digitValue, Nat.mul_comm]

@[simp] theorem valueOf_toDigits (n : Nat) : valueOf (Nat.toDigits 10 n) = n := by
  rw [valueOf_eq_ofDigitChars, Nat.ofDigitChars_ten_toDigits]

theorem isWhole_toDigits (n : Nat) : IsWhole (Nat.toDigits 10 n) := by
  refine ⟨⟨Nat.toDigits_ne_nil, fun c hc => Nat.isDigit_of_mem_toDigits (by decide) (by decide) hc⟩,
    ?_⟩
  induction n using Nat.strongRecOn with
  | ind n ih =>
    intro c cs h
    by_cases hn : n < 10
    · rw [Nat.toDigits_of_lt_base hn] at h
      cases (List.cons.inj h).2
    · rw [Nat.toDigits_of_base_le (by decide) (by omega)] at h
      cases hdiv : Nat.toDigits 10 (n / 10) with
      | nil => exact Nat.toDigits_ne_nil hdiv
      | cons d ds =>
        rw [hdiv, List.cons_append] at h
        obtain ⟨rfl, hds⟩ := List.cons.inj h
        cases ds with
        | cons d' ds => exact ih (n / 10) (by omega) d' ds hdiv
        | nil =>
          -- a single zero in front would be all that is left of the number
          have hvalue := valueOf_toDigits (n / 10)
          rw [hdiv] at hvalue
          have : valueOf ['0'] = 0 := rfl
          omega

end Json

end SteinerSearch
