import SteinerSearch.Json.Skipping
import SteinerSearch.Proofs.Json.Lexemes

/-!
# Values that are skipped

The grammar of JSON values.  A value that is well-formed is skipped in full, however deeply it is
nested, whatever follows it.

## Main definitions

* `Json.Form` — what a reader is in the middle of: a value, the elements of an array or the members
  of an object.
* `Json.Lead first lead` — what stands before the first entry or before a later one.
* `Json.Written form cs` — the grammar.

## Main results

* `Json.skipValue_of_written` — a value is skipped.
-/

namespace SteinerSearch

namespace Json

/-- What a reader is in the middle of.  `first` says that no entry was read yet. -/
inductive Form where
  /-- A value. -/
  | value
  /-- The elements of an array, up to its end. -/
  | elements (first : Bool)
  /-- The members of an object, up to its end. -/
  | members (first : Bool)

/-- What stands before an entry: blanks, and a comma unless the entry is the first one. -/
inductive Lead : Bool → List Char → Prop
  /-- The first entry has blanks before it. -/
  | first {ws : List Char} (h : Blanks ws) : Lead true ws
  /-- Any other one has a comma before it. -/
  | next {ws ws' : List Char} (h : Blanks ws) (h' : Blanks ws') : Lead false (ws ++ ',' :: ws')

/-- What is well-formed. -/
inductive Written : Form → List Char → Prop
  /-- The word for no value. -/
  | null : Written .value ['n', 'u', 'l', 'l']
  /-- The word for what is true. -/
  | true : Written .value ['t', 'r', 'u', 'e']
  /-- The word for what is false. -/
  | false : Written .value ['f', 'a', 'l', 's', 'e']
  /-- A number. -/
  | number {cs : List Char} (h : IsNumber cs) : Written .value cs
  /-- A number with a sign. -/
  | negative {cs : List Char} (h : IsNumber cs) : Written .value ('-' :: cs)
  /-- A string. -/
  | string {cs : List Char} (h : IsString cs) : Written .value ('"' :: cs)
  /-- An array. -/
  | array {cs : List Char} (h : Written (.elements Bool.true) cs) : Written .value ('[' :: cs)
  /-- An object. -/
  | object {cs : List Char} (h : Written (.members Bool.true) cs) :
      Written .value ('\x7b' :: cs)
  /-- The end of an array. -/
  | endArray {first : Bool} {ws : List Char} (h : Blanks ws) :
      Written (.elements first) (ws ++ [']'])
  /-- An element and those after it. -/
  | element {first : Bool} {lead v cs : List Char} (hlead : Lead first lead)
      (hv : Written .value v) (hcs : Written (.elements Bool.false) cs) :
      Written (.elements first) (lead ++ (v ++ cs))
  /-- The end of an object. -/
  | endObject {first : Bool} {ws : List Char} (h : Blanks ws) :
      Written (.members first) (ws ++ ['\x7d'])
  /-- A member and those after it. -/
  | member {first : Bool} {lead key ws ws' v cs : List Char} (hlead : Lead first lead)
      (hkey : IsString key) (hws : Blanks ws) (hws' : Blanks ws') (hv : Written .value v)
      (hcs : Written (.members Bool.false) cs) :
      Written (.members first) (lead ++ '"' :: (key ++ (ws ++ ':' :: (ws' ++ (v ++ cs)))))

/-- A character that may stand at the front of a value. -/
def StartsValue (c : Char) : Prop := c ∈ ['n', 't', 'f', '-', '"', '[', '\x7b'] ∨ c.isDigit = true

theorem Written.exists_cons {v : List Char} (h : Written .value v) :
    ∃ c cs, v = c :: cs ∧ StartsValue c := by
  cases h with
  | number h =>
    obtain ⟨d, ds, rfl, hd⟩ := h.exists_cons
    exact ⟨d, ds, rfl, Or.inr hd⟩
  | null | true | false | negative | string | array | object =>
    exact ⟨_, _, rfl, Or.inl (by decide)⟩

theorem StartsValue.ne {c b : Char} (h : StartsValue c)
    (hb : b ∉ ['n', 't', 'f', '-', '"', '[', '\x7b'] ∧ b.isDigit = false) : c ≠ b := by
  rintro rfl
  rcases h with h | h
  · exact hb.1 h
  · rw [hb.2] at h
    cases h

/-- Nothing is skipped in front of a value. -/
theorem StartsValue.skipBlank_cons {c : Char} (h : StartsValue c) (cs : List Char) :
    skipBlank (c :: cs) = c :: cs := by
  refine Json.skipBlank_cons ?_ cs
  rintro (rfl | rfl | rfl | rfl) <;> exact h.ne (by decide) rfl

theorem Written.elements_pos {first : Bool} {cs : List Char} (h : Written (.elements first) cs) :
    0 < cs.length := by
  cases h with
  | endArray _ => simp
  | element _ hv _ =>
    obtain ⟨c, v, rfl, -⟩ := hv.exists_cons
    simp only [List.length_append, List.length_cons]
    omega

/-- After an entry there is a comma, or a closing bracket. -/
theorem Lead.endsNumber {lead : List Char} (h : Lead false lead) (rest : List Char) :
    EndsNumber (lead ++ rest) := by
  cases h with
  | next hws _ =>
    rw [List.append_assoc, List.cons_append]
    exact endsNumber_append hws (by decide) _

theorem Written.elements_endsNumber {cs : List Char} (h : Written (.elements Bool.false) cs)
    (rest : List Char) : EndsNumber (cs ++ rest) := by
  cases h with
  | endArray hws =>
    rw [List.append_assoc]
    exact endsNumber_append hws (by decide) _
  | element hlead _ _ =>
    rw [List.append_assoc]
    exact hlead.endsNumber _

theorem Written.members_endsNumber {cs : List Char} (h : Written (.members Bool.false) cs)
    (rest : List Char) : EndsNumber (cs ++ rest) := by
  cases h with
  | endObject hws =>
    rw [List.append_assoc]
    exact endsNumber_append hws (by decide) _
  | member hlead _ _ _ _ _ =>
    rw [List.append_assoc]
    exact hlead.endsNumber _

/-! ### Steps of the readers -/

section Steps

variable {fuel : Nat} {ws rest : List Char}

theorem skipElements_end (hws : Blanks ws) (first : Bool) :
    skipElements (fuel + 1) first (ws ++ ']' :: rest) = .ok rest := by
  rw [skipElements, skipBlank_append hws, skipBlank_cons (by decide)]
  rfl

theorem skipMembers_end (hws : Blanks ws) (first : Bool) :
    skipMembers (fuel + 1) first (ws ++ '\x7d' :: rest) = .ok rest := by
  rw [skipMembers, skipBlank_append hws, skipBlank_cons (by decide)]
  rfl

/-- Before an element there is nothing but what leads to it. -/
theorem skipElements_lead {first : Bool} {lead : List Char} (hlead : Lead first lead) {c : Char}
    (hc : StartsValue c) (fuel : Nat) (rest : List Char) : ∃ ws, Blanks ws ∧
      skipElements (fuel + 1) first (lead ++ c :: rest) =
        (skipValueWith fuel (ws ++ c :: rest)).bind (skipElements fuel false) := by
  cases hlead with
  | first hws =>
    refine ⟨[], blanks_nil, ?_⟩
    rw [skipElements, skipBlank_append hws, hc.skipBlank_cons]
    split
    · next h => cases h
    · next h => exact absurd (List.cons.inj h).1 (hc.ne (by decide))
    · next h =>
      obtain ⟨rfl, rfl⟩ := List.cons.inj h
      rw [if_pos rfl]
      rfl
  | next hws hws' =>
    refine ⟨_, hws', ?_⟩
    rw [List.append_assoc, List.cons_append, skipElements, skipBlank_append hws,
      skipBlank_cons (by decide)]
    rfl

theorem skipMembers_lead {first : Bool} {lead : List Char} (hlead : Lead first lead) (fuel : Nat)
    (rest : List Char) : ∃ ws, Blanks ws ∧ skipMembers (fuel + 1) first (lead ++ '"' :: rest) =
      (skipMember fuel (ws ++ '"' :: rest)).bind (skipMembers fuel false) := by
  cases hlead with
  | first hws =>
    refine ⟨[], blanks_nil, ?_⟩
    rw [skipMembers, skipBlank_append hws, skipBlank_cons (by decide)]
    rfl
  | next hws hws' =>
    refine ⟨_, hws', ?_⟩
    rw [List.append_assoc, List.cons_append, skipMembers, skipBlank_append hws,
      skipBlank_cons (by decide)]
    rfl

theorem skipMember_append {key ws' : List Char} (hws : Blanks ws) (hkey : IsString key)
    (hws' : Blanks ws') : skipMember (fuel + 1) (ws ++ '"' :: (key ++ (ws' ++ ':' :: rest))) =
      skipValueWith fuel rest := by
  rw [skipMember, skipBlank_append hws, skipBlank_cons (by decide)]
  show (skipString (key ++ (ws' ++ ':' :: rest))).bind _ = _
  rw [skipString_of_isString hkey, Except.bind, skipBlank_append hws', skipBlank_cons (by decide)]
  rfl

/-- A value that begins with a digit is a number. -/
theorem skipValueWith_digit (hws : Blanks ws) {c : Char} (hc : c.isDigit = true) :
    skipValueWith (fuel + 1) (ws ++ c :: rest) = skipNumber (c :: rest) := by
  have hne : ∀ b : Char, b.isDigit = false → c ≠ b := by
    rintro b hb rfl
    rw [hc] at hb
    cases hb
  rw [skipValueWith, skipBlank_append hws, StartsValue.skipBlank_cons (Or.inr hc)]
  split
  · next h => cases h
  -- one goal for each other character that a value may begin with
  iterate 7
    next h => exact absurd (List.cons.inj h).1 (hne _ rfl)
  · next h =>
    obtain ⟨rfl, rfl⟩ := List.cons.inj h
    rw [if_pos hc]

end Steps

/-! ### Values -/

/-- A reader takes a form in full, if it has enough fuel. -/
def Skips : Form → List Char → Prop
  | .value, cs => ∀ fuel ws rest, 3 * cs.length ≤ fuel → Blanks ws → EndsNumber rest →
      skipValueWith fuel (ws ++ (cs ++ rest)) = .ok rest
  | .elements first, cs => ∀ fuel rest, 3 * cs.length ≤ fuel →
      skipElements fuel first (cs ++ rest) = .ok rest
  | .members first, cs => ∀ fuel rest, 3 * cs.length ≤ fuel →
      skipMembers fuel first (cs ++ rest) = .ok rest

theorem skips_of_written {form : Form} {cs : List Char} (h : Written form cs) : Skips form cs := by
  induction h with
  | null | true | false =>
    intro fuel ws rest hfuel hws _
    obtain ⟨fuel, rfl⟩ := Nat.exists_eq_add_one_of_ne_zero (n := fuel) (by simp at hfuel; omega)
    rw [skipValueWith, skipBlank_append hws]
    rfl
  | number h =>
    intro fuel ws rest hfuel hws hrest
    obtain ⟨d, ds, rfl, hd⟩ := h.exists_cons
    obtain ⟨fuel, rfl⟩ := Nat.exists_eq_add_one_of_ne_zero (n := fuel) (by simp at hfuel; omega)
    rw [List.cons_append, skipValueWith_digit hws hd]
    exact skipNumber_of_isNumber h hrest
  | negative h =>
    intro fuel ws rest hfuel hws hrest
    obtain ⟨fuel, rfl⟩ := Nat.exists_eq_add_one_of_ne_zero (n := fuel) (by simp at hfuel; omega)
    rw [skipValueWith, skipBlank_append hws]
    exact skipNumber_of_isNumber h hrest
  | string h =>
    intro fuel ws rest hfuel hws _
    obtain ⟨fuel, rfl⟩ := Nat.exists_eq_add_one_of_ne_zero (n := fuel) (by simp at hfuel; omega)
    rw [skipValueWith, skipBlank_append hws]
    exact skipString_of_isString h rest
  | array _ ih | object _ ih =>
    intro fuel ws rest hfuel hws _
    rw [List.length_cons] at hfuel
    obtain ⟨fuel, rfl⟩ := Nat.exists_eq_add_one_of_ne_zero (n := fuel) (by omega)
    rw [skipValueWith, skipBlank_append hws]
    exact ih fuel rest (by omega)
  | endArray hws =>
    intro fuel rest hfuel
    obtain ⟨fuel, rfl⟩ := Nat.exists_eq_add_one_of_ne_zero (n := fuel) (by simp at hfuel; omega)
    rw [List.append_assoc]
    exact skipElements_end hws _
  | @element first lead v cs hlead hv hcs ihv ihcs =>
    intro fuel rest hfuel
    obtain ⟨c, v, rfl, hc⟩ := hv.exists_cons
    simp only [List.length_append, List.length_cons] at hfuel
    obtain ⟨fuel, rfl⟩ := Nat.exists_eq_add_one_of_ne_zero (n := fuel) (by omega)
    obtain ⟨ws, hws, hstep⟩ := skipElements_lead hlead hc fuel (v ++ (cs ++ rest))
    have := hcs.elements_pos
    rw [List.append_assoc, List.append_assoc, List.cons_append, hstep, ← List.cons_append,
      ihv fuel ws _ (by rw [List.length_cons]; omega) hws (hcs.elements_endsNumber rest)]
    exact ihcs fuel rest (by omega)
  | endObject hws =>
    intro fuel rest hfuel
    obtain ⟨fuel, rfl⟩ := Nat.exists_eq_add_one_of_ne_zero (n := fuel) (by simp at hfuel; omega)
    rw [List.append_assoc]
    exact skipMembers_end hws _
  | @member first lead key ws ws' v cs hlead hkey hws hws' hv hcs ihv ihcs =>
    intro fuel rest hfuel
    simp only [List.length_append, List.length_cons] at hfuel
    obtain ⟨fuel, rfl⟩ : ∃ n, fuel = n + 2 := ⟨fuel - 2, by omega⟩
    obtain ⟨lead', hlead', hstep⟩ := skipMembers_lead hlead (fuel + 1)
      (key ++ (ws ++ ':' :: (ws' ++ (v ++ (cs ++ rest)))))
    simp only [List.append_assoc, List.cons_append] at hstep ⊢
    rw [hstep, skipMember_append hlead' hkey hws, ihv fuel ws' _ (by omega) hws'
      (hcs.members_endsNumber rest)]
    exact ihcs (fuel + 1) rest (by omega)

/-- A value is skipped. -/
theorem skipValue_of_written {ws v rest : List Char} (hws : Blanks ws) (hv : Written .value v)
    (hrest : EndsNumber rest) : skipValue (ws ++ (v ++ rest)) = .ok rest := by
  refine skips_of_written hv _ ws rest ?_ hws hrest
  simp only [List.length_append]
  omega

end Json

end SteinerSearch
