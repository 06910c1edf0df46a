import SteinerSearch.Proofs.Settings.Reading
import SteinerSearch.Settings.Environment

/-!
# Settings in two forms

Settings may be given by an object or by variables.  Both give the same settings, and both check
the ranges of the same ones in the same order.  What is printed is read again.

## Main definitions

* `Settings.firstOutside d`, `Settings.checked d` — the first setting that is out of its range, and
  what comes of settings then.
* `Settings.Denotes x text`, `Settings.Provides lookup c S` — the text of a variable, and variables
  that give the settings `S` with the values of `c`.

## Main results

* `Settings.ofJson_of_gives`, `Settings.ofEnvironment_of_provides` — what is read.
* `Settings.gives_toJson` — what is printed gives all settings.
* `Settings.codecs_agree` — both forms agree, and reading inverts printing.
-/

namespace SteinerSearch

namespace Settings

open Json

/-! ### Ranges -/

/-- The first setting that is out of its range. -/
def firstOutside (d : Settings) : Option Setting :=
  if d.traceCapacity = 0 ∨ 64 < d.traceCapacity then some .traceCapacity
  else if d.terminalLayers = 0 ∨ 4 < d.terminalLayers then some .terminalLayers
  else if d.extensionRounds = 0 ∨ 2 < d.extensionRounds then some .extensionRounds
  else if d.treeStarts = 0 then some .treeStarts
  else none

/-- The refusal of a setting. -/
def refusal (d : Settings) (s : Setting) : SettingsError :=
  .invalidValue s.key (valueText (d.get s))

/-- The settings, if they lie in their ranges, or the refusal of the first that does not. -/
def checked (d : Settings) : Except SettingsError Settings :=
  match d.firstOutside with
  | none => .ok d
  | some s => .error (d.refusal s)

theorem checkRange_eq {d : Settings} {s : Setting} {x : UInt64} (hx : d.get s = some x)
    (high : UInt64) : d.checkRange (s, 1, high.toNat) =
      if x = 0 ∨ high < x then .error (d.refusal s) else .ok () := by
  have hrange : (1 ≤ x.toNat ∧ x.toNat ≤ high.toNat) ↔ ¬ (x = 0 ∨ high < x) := by
    rw [not_or, ← UInt64.toNat_inj, UInt64.lt_iff_toNat_lt, UInt64.toNat_zero]
    omega
  rw [checkRange, refusal]
  simp only [hx, hrange, ite_not]
  rfl

/-- The ranges are checked in order. -/
theorem validate_bind_eq (d : Settings) : (d.validate.bind fun _ => .ok d) = d.checked := by
  have htrace : d.checkRange (.traceCapacity, 1, 64) = _ := checkRange_eq rfl 64
  have hlayers : d.checkRange (.terminalLayers, 1, 4) = _ := checkRange_eq rfl 4
  have hrounds : d.checkRange (.extensionRounds, 1, 2) = _ := checkRange_eq rfl 2
  have hstarts : d.checkRange (.treeStarts, 1, Nat.pow 2 64 - 1) = _ :=
    checkRange_eq rfl 18446744073709551615
  have hmax : ¬ 18446744073709551615 < d.treeStarts := by
    rw [UInt64.lt_iff_toNat_lt]
    have := d.treeStarts.toNat_lt
    show ¬ 18446744073709551615 < _
    omega
  simp only [hmax, or_false] at hstarts
  have hvalidate : d.validate = (d.checkRange (.traceCapacity, 1, 64)).bind fun _ =>
      (d.checkRange (.terminalLayers, 1, 4)).bind fun _ =>
        (d.checkRange (.extensionRounds, 1, 2)).bind fun _ =>
          (d.checkRange (.treeStarts, 1, Nat.pow 2 64 - 1)).bind fun _ => .ok () := rfl
  rw [hvalidate, htrace, hlayers, hrounds, hstarts, checked, firstOutside]
  by_cases h₁ : d.traceCapacity = 0 ∨ 64 < d.traceCapacity
  · simp only [if_pos h₁]
    rfl
  by_cases h₂ : d.terminalLayers = 0 ∨ 4 < d.terminalLayers
  · simp only [if_neg h₁, if_pos h₂]
    rfl
  by_cases h₃ : d.extensionRounds = 0 ∨ 2 < d.extensionRounds
  · simp only [if_neg h₁, if_neg h₂, if_pos h₃]
    rfl
  by_cases h₄ : d.treeStarts = 0
  · simp only [if_neg h₁, if_neg h₂, if_neg h₃, if_pos h₄]
    rfl
  · simp only [if_neg h₁, if_neg h₂, if_neg h₃, if_neg h₄]
    rfl

/-- An object is read, and its settings checked. -/
theorem ofJson_of_gives {c : Settings} {S : List Setting} {text : String} (h : Gives c S text)
    (hS : S.Nodup) : ofJson text = (override c S).checked := by
  rw [← validate_bind_eq, ofJson, parse_of_gives h hS]
  rfl

/-! ### Variables -/

/-- Two settings do not share a variable. -/
@[simp] theorem envName_inj {s s' : Setting} : s.envName = s'.envName ↔ s = s' := by
  have hall : ∀ s ∈ Setting.all, ∀ s' ∈ Setting.all, s.envName = s'.envName → s = s' := by
    decide +kernel
  exact ⟨hall s s.mem_all s' s'.mem_all, congrArg _⟩

/-- The text denotes `x` in decimal digits, perhaps after a plus sign, between blanks. -/
def Denotes (x : UInt64) (text : String) : Prop :=
  ∃ ws sign ws', ws.all Text.isBlank ∧ (sign = [] ∨ sign = ['+']) ∧ ws'.all Text.isBlank ∧
    text.toList = ws ++ (sign ++ (valueText (some x)).toList) ++ ws'

/-- The variables of the settings `S`, and no other ones, are set, and denote the values of `c`.
That of a value that is absent is not set. -/
structure Provides (lookup : String → Option String) (c : Settings) (S : List Setting) : Prop where
  /-- A variable is set for each value. -/
  present : ∀ s ∈ S, ∀ x, c.get s = some x → ∃ text, lookup s.envName = some text ∧ Denotes x text
  /-- None is set for an absent one. -/
  absent : ∀ s ∈ S, c.get s = none → lookup s.envName = none
  /-- None is set for another setting. -/
  others : ∀ s, s ∉ S → lookup s.envName = none

theorem isBlank_of_isDigit {c : Char} (h : c.isDigit = true) : Text.isBlank c = false := by
  have hlow : 48 ≤ c.toNat ∧ c.toNat ≤ 57 := by
    rw [Char.isDigit, Bool.and_eq_true, decide_eq_true_eq, decide_eq_true_eq] at h
    exact h
  simp [Text.isBlank, Text.blankBlocks]
  omega

/-- Blanks around a text without blanks are trimmed. -/
theorem trim_append {ws cs ws' : List Char} (hws : ∀ c ∈ ws, Text.isBlank c = true)
    (hcs : ∀ c ∈ cs, Text.isBlank c = false) (hws' : ∀ c ∈ ws', Text.isBlank c = true)
    (hne : cs ≠ []) : Text.trim (ws ++ cs ++ ws') = cs := by
  have hdrop : ∀ cs rest : List Char, cs ≠ [] → (∀ c ∈ cs, Text.isBlank c = false) →
      (cs ++ rest).dropWhile Text.isBlank = cs ++ rest := by
    intro cs rest hne hcs
    obtain ⟨c, cs, rfl⟩ := List.exists_cons_of_ne_nil hne
    rw [List.cons_append, List.dropWhile_cons_of_neg (by simp [hcs c List.mem_cons_self])]
  have hback : (cs ++ ws').reverse.dropWhile Text.isBlank = cs.reverse := by
    rw [List.reverse_append,
      List.dropWhile_append_of_pos fun c hc => hws' c (List.mem_reverse.mp hc)]
    have h := hdrop cs.reverse [] (by simpa using hne) fun c hc => hcs c (List.mem_reverse.mp hc)
    rwa [List.append_nil] at h
  rw [Text.trim, List.append_assoc, List.dropWhile_append_of_pos hws, hdrop cs ws' hne hcs, hback,
    List.reverse_reverse]

theorem wordOfDigits?_toDigits (x : UInt64) :
    wordOfDigits? (Nat.toDigits 10 x.toNat) = some x := by
  have hwhole := isWhole_toDigits x.toNat
  have hall : (Nat.toDigits 10 x.toNat).all Char.isDigit = true :=
    List.all_eq_true.mpr hwhole.isDigit
  have hempty : (Nat.toDigits 10 x.toNat).isEmpty = false := by simp
  have hvalue : (Nat.toDigits 10 x.toNat).foldl (fun n c => n * 10 + (c.toNat - '0'.toNat)) 0 =
      x.toNat := valueOf_toDigits x.toNat
  rw [wordOfDigits?]
  simp only [hall, hempty, hvalue, Bool.not_true, Bool.or_false, Bool.false_eq_true, if_false]
  rw [if_pos x.toNat_lt, UInt64.ofNat_toNat]

theorem wordOfText?_of_denotes {x : UInt64} {text : String} (h : Denotes x text) :
    wordOfText? text = some x := by
  obtain ⟨ws, sign, ws', hws, hsign, hws', htext⟩ := h
  rw [toList_valueText] at htext
  have hwhole := isWhole_toDigits x.toNat
  have hblank : ∀ c ∈ sign ++ Nat.toDigits 10 x.toNat, Text.isBlank c = false := by
    intro c hc
    rcases List.mem_append.mp hc with hc | hc
    · rcases hsign with rfl | rfl
      · cases hc
      · rw [List.mem_singleton.mp hc]
        decide
    · exact isBlank_of_isDigit (hwhole.isDigit c hc)
  rw [wordOfText?, htext, trim_append (List.all_eq_true.mp hws) hblank (List.all_eq_true.mp hws')
    (by simp)]
  rcases hsign with rfl | rfl
  · rw [List.nil_append]
    split
    · next h =>
      have hplus := hwhole.isDigit '+' (h ▸ List.mem_cons_self)
      cases hplus
    · exact wordOfDigits?_toDigits x
  · exact wordOfDigits?_toDigits x

/-- The settings of `S` that have a value. -/
def valued (c : Settings) (S settings : List Setting) : List Setting :=
  settings.filter fun s => s ∈ S ∧ (c.get s).isSome

/-- The variables are read one after the other. -/
theorem foldlM_readVariable {lookup : String → Option String} {c : Settings} {S : List Setting}
    (h : Provides lookup c S) (settings : List Setting) (d : Settings) :
    settings.foldlM (readVariable lookup) d =
      .ok ((valued c S settings).foldl (fun d s => d.put s (c.get s)) d) := by
  induction settings generalizing d with
  | nil => rfl
  | cons s settings ih =>
    rw [List.foldlM_cons]
    by_cases hs : s ∈ S ∧ (c.get s).isSome
    · obtain ⟨x, hx⟩ := Option.isSome_iff_exists.mp hs.2
      obtain ⟨text, hlookup, hdenotes⟩ := h.present s hs.1 x hx
      have hread : readVariable lookup d s = .ok (d.put s (c.get s)) := by
        rw [readVariable, hlookup]
        simp only [wordOfText?_of_denotes hdenotes, hx]
      rw [hread, valued, List.filter_cons_of_pos (by simpa using hs)]
      exact ih _
    · have hunset : lookup s.envName = none := by
        by_cases hS : s ∈ S
        · exact h.absent s hS (by simpa [hS] using hs)
        · exact h.others s hS
      have hread : readVariable lookup d s = .ok d := by rw [readVariable, hunset]
      rw [hread, valued, List.filter_cons_of_neg (by simpa using hs)]
      exact ih d

/-- A value that is absent is absent by default. -/
theorem get_default_of_eq_none {c : Settings} {s : Setting} (h : c.get s = none) :
    ({} : Settings).get s = none := by
  cases s with
  | traversalBudget => rfl
  | _ => cases h

theorem override_valued (c : Settings) (S : List Setting) :
    override c (valued c S Setting.all) = override c S := by
  refine ext_get fun s => ?_
  rw [get_override, get_override]
  have hmem : s ∈ valued c S Setting.all ↔ s ∈ S ∧ (c.get s).isSome := by
    simp [valued, Setting.mem_all]
  cases hx : c.get s with
  | none => simp [get_default_of_eq_none hx]
  | some x => simp [hmem, hx]

/-- The variables are read, and the settings checked. -/
theorem ofEnvironment_of_provides {lookup : String → Option String} {c : Settings}
    {S : List Setting} (h : Provides lookup c S) :
    ofEnvironment lookup = (override c S).checked := by
  rw [← validate_bind_eq, ofEnvironment, foldlM_readVariable h, ← override_valued]
  rfl

/-! ### Printing -/

/-- A text of characters that stand for themselves is a string. -/
theorem spells_self {text : List Char}
    (h : text.all fun c => c ≠ '"' ∧ c ≠ '\\' ∧ 0x20 ≤ c.toNat) : Spells (text ++ ['"']) text := by
  induction text with
  | nil => exact .close
  | cons c text ih =>
    rw [List.all_cons, Bool.and_eq_true] at h
    exact .plain (of_decide_eq_true h.1) (ih h.2)

theorem spells_key (s : Setting) : Spells (s.key.toList ++ ['"']) s.key.toList := by
  apply spells_self
  cases s <;> decide

/-- What is printed after the first setting. -/
theorem lists_lines (c : Settings) (S : List Setting) :
    Lists c false S ((S.map fun s => (",\n" ++ c.line s).toList).flatten ++ ['\n', '\x7d']) := by
  induction S with
  | nil =>
    have hws : Blanks ['\n'] := by decide
    exact .close hws
  | cons s S ih =>
    have hlead : Lead false ([] ++ ',' :: ['\n', ' ', ' ']) := .next blanks_nil (by decide)
    have hws : Blanks [' '] := by decide
    simpa [line] using Lists.setting hlead (spells_key s) blanks_nil hws ih

/-- What is printed gives all settings. -/
theorem gives_toJson (c : Settings) : Gives c Setting.all c.toJson := by
  have hlead : Lead true ['\n', ' ', ' '] := .first (by decide)
  have hws : Blanks [' '] := by decide
  have hlists := Lists.setting hlead (spells_key .traceCapacity) blanks_nil hws
    (lists_lines c Setting.all.tail)
  refine ⟨[], _, [], blanks_nil, hlists, blanks_nil, ?_⟩
  simp [toJson, Setting.all, line]

/-! ### Both forms -/

theorem validate_eq_ok_iff (d : Settings) : d.validate = .ok () ↔ d.firstOutside = none := by
  have h := validate_bind_eq d
  unfold checked at h
  cases hv : d.validate with
  | error e =>
    rw [hv] at h
    cases hf : d.firstOutside with
    | none =>
      rw [hf] at h
      cases h
    | some s => simp
  | ok u =>
    rw [hv] at h
    cases hf : d.firstOutside with
    | none => simp
    | some s =>
      rw [hf] at h
      cases h

/-- Let `d` have the values of `c` for the settings `S` and be the defaults elsewhere.  An object
that gives these settings in their order, and variables that are set for them, are read as `d` if
`d` lies in its ranges, and are refused for its first setting that does not.  What is printed of
settings in their ranges is read as these settings. -/
theorem codecs_agree (c d : Settings) {S : List Setting} (hS : S.Nodup)
    (hd : ∀ s, d.get s = if s ∈ S then c.get s else ({} : Settings).get s) :
    (d.validate = .ok () ↔ d.firstOutside = none) ∧
    (∀ text, Gives c S text → ofJson text = d.checked) ∧
    (∀ lookup, Provides lookup c S → ofEnvironment lookup = d.checked) ∧
    (c.validate = .ok () → ofJson c.toJson = .ok c) := by
  obtain rfl : d = override c S := ext_get fun s => (hd s).trans (get_override c S s).symm
  refine ⟨validate_eq_ok_iff _, fun text h => ofJson_of_gives h hS,
    fun lookup h => ofEnvironment_of_provides h, fun hc => ?_⟩
  have hall : override c Setting.all = c :=
    ext_get fun s => (get_override c _ s).trans (if_pos s.mem_all)
  rw [ofJson_of_gives (gives_toJson c) (by decide), hall, checked, (validate_eq_ok_iff c).mp hc]

/-- A seed and the largest budget, with another member between them. -/
theorem codecs_agree_seed :
    let budget : UInt64 := 18446744073709551615
    let d : Settings := { seed := 5, traversalBudget := some budget }
    ofJson "\x7b\"seed\": 5, \"x\": [null], \"dijkstra_edge_budget\": 18446744073709551615\x7d" =
        .ok d ∧
      ofEnvironment (fun name =>
        if name = Setting.envName .seed then some " +5"
        else if name = Setting.envName .traversalBudget then some "18446744073709551615"
        else none) = .ok d := by
  intro budget d
  -- The layers are out of range here, but they are not given.
  let c : Settings := { terminalLayers := 9, seed := 5, traversalBudget := some budget }
  have hd : ∀ s, d.get s =
      if s ∈ [.seed, .traversalBudget] then c.get s else ({} : Settings).get s := by
    intro s
    cases s <;> rfl
  obtain ⟨-, hobject, hvariables, -⟩ := codecs_agree c d (by decide) hd
  have hchecked : d.checked = .ok d := rfl
  have hws : Blanks [' '] := by decide
  have hlead : Lead false ([] ++ ',' :: [' ']) := .next blanks_nil hws
  have hkey : Spells (['x'] ++ ['"']) ['x'] := spells_self (by decide)
  have hother : ∀ s : Setting, s.key.toList ≠ ['x'] := by
    intro s
    cases s <;> decide
  have harray : Written .value ['[', 'n', 'u', 'l', 'l', ']'] :=
    .array (.element (.first blanks_nil) .null (.endArray blanks_nil))
  have hlists : Lists c true [.seed, .traversalBudget] _ :=
    .setting (.first blanks_nil) (spells_key .seed) blanks_nil hws <|
      .other hlead hkey hother blanks_nil hws harray <|
        .setting hlead (spells_key .traversalBudget) blanks_nil hws (.close blanks_nil)
  refine ⟨(hobject _ ⟨[], _, [], blanks_nil, hlists, blanks_nil, ?_⟩).trans hchecked,
    (hvariables _ ⟨?_, ?_, ?_⟩).trans hchecked⟩
  · decide +kernel
  · intro s hs x hx
    obtain rfl | rfl : s = .seed ∨ s = .traversalBudget := by simpa using hs
    · cases hx
      refine ⟨" +5", by simp, [' '], ['+'], [], by decide, .inr rfl, by decide, ?_⟩
      decide +kernel
    · cases hx
      refine ⟨"18446744073709551615", by simp, [], [], [], by decide, .inl rfl, by decide, ?_⟩
      decide +kernel
  · intro s hs hc
    obtain rfl | rfl : s = .seed ∨ s = .traversalBudget := by simpa using hs
    all_goals cases hc
  · intro s hs
    cases s with
    | seed => exact absurd List.mem_cons_self hs
    | traversalBudget => exact absurd (by simp) hs
    | _ => simp

end Settings

end SteinerSearch
