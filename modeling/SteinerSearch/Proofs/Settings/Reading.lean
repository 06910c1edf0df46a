import SteinerSearch.Proofs.Json.Values
import SteinerSearch.Settings.Printer
import SteinerSearch.Settings.Reader

/-!
# Objects that give settings

An object gives settings in any order, with members in between that are no settings.  It is read
as the defaults with the values that it gives.

## Main definitions

* `Settings.Lists c first S cs` — the grammar of objects that give the settings `S` with the values
  of `c`.
* `Settings.Gives c S text` — a text that holds such an object only.
* `Settings.override c S` — the defaults with the values of `c` for the settings `S`.

## Main results

* `Settings.get_override` — which values these are.
* `Settings.parse_of_gives` — such a text is read as them.
-/

namespace SteinerSearch

theorem Setting.ofKey?_key (s : Setting) : Setting.ofKey? s.key = some s := by
  cases s <;> rfl

theorem Setting.ofKey?_eq_none {k : String} (h : ∀ s : Setting, s.key ≠ k) :
    Setting.ofKey? k = none := by
  rw [Setting.ofKey?, List.find?_eq_none]
  intro s _
  simpa using h s

namespace Settings

open Json

/-! ### Values -/

theorem toList_valueText (x? : Option UInt64) : (valueText x?).toList =
    match x? with
    | some x => Nat.toDigits 10 x.toNat
    | none => ['n', 'u', 'l', 'l'] := by
  cases x? with
  | none => rfl
  | some x => exact Nat.toList_repr

/-- A word is read from its digits. -/
theorem readWord_append {ws rest : List Char} (hws : Blanks ws) (hrest : EndsNumber rest)
    (x : UInt64) : readWord (ws ++ (Nat.toDigits 10 x.toNat ++ rest)) = .ok (x, rest) := by
  have hwhole := isWhole_toDigits x.toNat
  have hlength : (Nat.toDigits 10 x.toNat).length ≤ 20 := by
    rw [Nat.length_toDigits_le_iff (by decide) (by decide)]
    have := x.toNat_lt
    omega
  have hvalue : valueOf (Nat.toDigits 10 x.toNat) < Nat.pow 2 64 := by
    rw [valueOf_toDigits]
    exact x.toNat_lt
  have hnumber := readNumber_append hwhole hlength hvalue hrest
  rw [valueOf_toDigits] at hnumber
  obtain ⟨d, ds, hds⟩ := List.exists_cons_of_ne_nil hwhole.ne_nil
  have hd := hwhole.isDigit d (hds ▸ List.mem_cons_self)
  rw [hds] at hnumber ⊢
  unfold readWord
  rw [skipBlank_append hws, List.cons_append, StartsValue.skipBlank_cons (Or.inr hd)]
  split
  · next h => cases h
  · next h =>
    obtain ⟨rfl, -⟩ := List.cons.inj h
    cases hd
  · next h =>
    obtain ⟨rfl, rfl⟩ := List.cons.inj h
    rw [if_pos hd]
    rw [List.cons_append] at hnumber
    rw [hnumber, Except.bind, wordOf, UInt64.ofNat_toNat]

/-- A word is read where it may be absent, too. -/
theorem readWord?_append {ws rest : List Char} (hws : Blanks ws) (hrest : EndsNumber rest)
    (x? : Option UInt64) : readWord? (ws ++ ((valueText x?).toList ++ rest)) = .ok (x?, rest) := by
  rw [toList_valueText]
  unfold readWord?
  rw [skipBlank_append hws]
  cases x? with
  | none => rfl
  | some x =>
    have hword := readWord_append blanks_nil hrest x
    have hwhole := isWhole_toDigits x.toNat
    obtain ⟨d, ds, hds⟩ := List.exists_cons_of_ne_nil hwhole.ne_nil
    have hd := hwhole.isDigit d (hds ▸ List.mem_cons_self)
    dsimp only
    rw [List.nil_append] at hword
    rw [hds, List.cons_append] at hword ⊢
    rw [StartsValue.skipBlank_cons (Or.inr hd)]
    split
    · next h =>
      obtain ⟨rfl, -⟩ := List.cons.inj h
      cases hd
    · rw [hword]
      rfl

/-- The value of a setting is read into the settings. -/
theorem readValue_append (c d : Settings) (s : Setting) {ws rest : List Char} (hws : Blanks ws)
    (hrest : EndsNumber rest) :
    readValue d s (ws ++ ((valueText (c.get s)).toList ++ rest)) =
      .ok (d.put s (c.get s), rest) := by
  cases s with
  | traversalBudget =>
    unfold readValue
    dsimp only
    rw [readWord?_append hws hrest]
    rfl
  | _ =>
    unfold readValue
    dsimp only
    rw [toList_valueText]
    dsimp only [get]
    rw [readWord_append hws hrest]
    rfl

/-! ### Objects -/

/-- What follows in an object that gives the settings `S`, in this order and with the values of `c`.
Between them there may be members with other names: any text that is no key of a setting, and
any value.  `first` says that nothing went before. -/
inductive Lists (c : Settings) : Bool → List Setting → List Char → Prop
  /-- The end of the object. -/
  | close {first : Bool} {ws : List Char} (h : Blanks ws) : Lists c first [] (ws ++ ['\x7d'])
  /-- A setting. -/
  | setting {first : Bool} {lead key ws ws' cs : List Char} {s : Setting} {S : List Setting}
      (hlead : Lead first lead) (hkey : Spells key s.key.toList) (hws : Blanks ws)
      (hws' : Blanks ws') (hcs : Lists c false S cs) :
      Lists c first (s :: S)
        (lead ++ '"' :: (key ++ (ws ++ ':' :: (ws' ++ ((valueText (c.get s)).toList ++ cs)))))
  /-- Another member. -/
  | other {first : Bool} {lead key text ws ws' v cs : List Char} {S : List Setting}
      (hlead : Lead first lead) (hkey : Spells key text)
      (htext : ∀ s : Setting, s.key.toList ≠ text) (hws : Blanks ws) (hws' : Blanks ws')
      (hv : Written .value v) (hcs : Lists c false S cs) :
      Lists c first S (lead ++ '"' :: (key ++ (ws ++ ':' :: (ws' ++ (v ++ cs)))))

/-- A text that holds nothing but an object that gives the settings `S` with the values of `c`. -/
def Gives (c : Settings) (S : List Setting) (text : String) : Prop :=
  ∃ ws cs ws', Blanks ws ∧ Lists c true S cs ∧ Blanks ws' ∧
    text.toList = ws ++ '\x7b' :: (cs ++ ws')

/-- The defaults, with the values of `c` for the settings `S`. -/
def override (c : Settings) (S : List Setting) : Settings :=
  S.foldl (fun d s => d.put s (c.get s)) {}

theorem Lists.endsNumber {c : Settings} {S : List Setting} {cs : List Char}
    (h : Lists c false S cs) (rest : List Char) : EndsNumber (cs ++ rest) := by
  cases h with
  | close hws =>
    rw [List.append_assoc]
    exact endsNumber_append hws (by decide) _
  | setting hlead _ _ _ _ =>
    rw [List.append_assoc]
    exact hlead.endsNumber _
  | other hlead _ _ _ _ _ _ =>
    rw [List.append_assoc]
    exact hlead.endsNumber _

theorem readMemberValue_append (d : Settings) (s? : Option Setting) {ws : List Char}
    (hws : Blanks ws) (rest : List Char) :
    readMemberValue d s? (ws ++ ':' :: rest) =
      match s? with
      | some s => readValue d s rest
      | none => (skipValue rest).map fun rest => (d, rest) := by
  unfold readMemberValue
  rw [skipBlank_append hws, skipBlank_cons (by decide)]
  rfl

/-- A member is read after what leads to it. -/
theorem readObject_lead {first : Bool} {lead : List Char} (hlead : Lead first lead) (fuel : Nat)
    (m : Mentioned) (rest : List Char) :
    readObject (fuel + 1) first m (lead ++ '"' :: rest) =
      (readMember m rest).bind fun (m, rest) => readObject fuel false m rest := by
  cases hlead with
  | first hws =>
    rw [readObject, skipBlank_append hws, skipBlank_cons (by decide)]
    rfl
  | next hws hws' =>
    rw [List.append_assoc, List.cons_append, readObject, skipBlank_append hws,
      skipBlank_cons (by decide)]
    split
    · next h => cases h
    · next h => cases (List.cons.inj h).1
    · next h =>
      obtain ⟨rfl, rfl⟩ := List.cons.inj h
      rw [if_neg Bool.false_ne_true, if_pos rfl, skipBlank_append hws', skipBlank_cons (by decide)]
      rfl

theorem readMember_setting {c : Settings} {m : Mentioned} {s : Setting} (hs : s ∉ m.seen)
    {key ws ws' rest : List Char} (hkey : Spells key s.key.toList) (hws : Blanks ws)
    (hws' : Blanks ws') (hrest : EndsNumber rest) :
    readMember m (key ++ (ws ++ ':' :: (ws' ++ ((valueText (c.get s)).toList ++ rest)))) =
      .ok (⟨m.settings.put s (c.get s), s :: m.seen⟩, rest) := by
  have hseen : m.seen.contains s = false := by simpa using hs
  rw [readMember, readString_of_spells hkey, Except.bind]
  simp only [String.ofList_toList, Setting.ofKey?_key, Option.any_some, hseen,
    Bool.false_eq_true, if_false]
  rw [readMemberValue_append _ _ hws]
  dsimp only
  rw [readValue_append c m.settings s hws' hrest]
  rfl

theorem readMember_other {m : Mentioned} {key text ws ws' v rest : List Char}
    (hkey : Spells key text) (htext : ∀ s : Setting, s.key.toList ≠ text) (hws : Blanks ws)
    (hws' : Blanks ws') (hv : Written .value v) (hrest : EndsNumber rest) :
    readMember m (key ++ (ws ++ ':' :: (ws' ++ (v ++ rest)))) = .ok (m, rest) := by
  have hnone : Setting.ofKey? (String.ofList text) = none :=
    Setting.ofKey?_eq_none fun s hs => htext s (by rw [hs, String.toList_ofList])
  rw [readMember, readString_of_spells hkey, Except.bind]
  simp only [hnone, Option.any_none, Bool.false_eq_true, if_false]
  rw [readMemberValue_append _ _ hws]
  dsimp only
  rw [skipValue_of_written hws' hv hrest]
  rfl

/-- An object is read member by member. -/
theorem readObject_of_lists {c : Settings} {first : Bool} {S : List Setting} {cs : List Char}
    (h : Lists c first S cs) (hS : S.Nodup) :
    ∀ (fuel : Nat) (m : Mentioned) (rest : List Char), cs.length ≤ fuel →
      (∀ s ∈ S, s ∉ m.seen) → readObject fuel first m (cs ++ rest) =
        .ok (S.foldl (fun d s => d.put s (c.get s)) m.settings, rest) := by
  induction h with
  | @close first ws hws =>
    intro fuel m rest hfuel _
    obtain ⟨fuel, rfl⟩ := Nat.exists_eq_add_one_of_ne_zero (n := fuel) (by simp at hfuel; omega)
    rw [List.append_assoc, readObject, skipBlank_append hws]
    rfl
  | @setting first lead key ws ws' cs s S hlead hkey hws hws' hcs ih =>
    intro fuel m rest hfuel hseen
    obtain ⟨hs, hS⟩ := List.nodup_cons.mp hS
    simp only [List.length_append, List.length_cons] at hfuel
    obtain ⟨fuel, rfl⟩ := Nat.exists_eq_add_one_of_ne_zero (n := fuel) (by omega)
    simp only [List.append_assoc, List.cons_append]
    rw [readObject_lead hlead, readMember_setting (hseen s List.mem_cons_self) hkey hws hws'
      (hcs.endsNumber rest), Except.bind]
    dsimp only
    rw [ih hS fuel _ rest (by omega), List.foldl_cons]
    intro s' hs'
    rw [List.mem_cons, not_or]
    exact ⟨fun h => hs (h ▸ hs'), hseen s' (List.mem_cons_of_mem s hs')⟩
  | @other first lead key text ws ws' v cs S hlead hkey htext hws hws' hv hcs ih =>
    intro fuel m rest hfuel hseen
    simp only [List.length_append, List.length_cons] at hfuel
    obtain ⟨fuel, rfl⟩ := Nat.exists_eq_add_one_of_ne_zero (n := fuel) (by omega)
    simp only [List.append_assoc, List.cons_append]
    rw [readObject_lead hlead, readMember_other hkey htext hws hws' hv (hcs.endsNumber rest),
      Except.bind]
    exact ih hS fuel m rest (by omega) hseen

/-- The text is read as the defaults with the values that it gives. -/
theorem parse_of_gives {c : Settings} {S : List Setting} {text : String} (h : Gives c S text)
    (hS : S.Nodup) : parse text = .ok (override c S) := by
  obtain ⟨ws, cs, ws', hws, hcs, hws', htext⟩ := h
  have hread := readObject_of_lists hcs hS ((cs ++ ws').length + 1) ⟨{}, []⟩ ws'
    (by rw [List.length_append]; omega) fun s _ => List.not_mem_nil
  have hsettings : readSettings text.toList = .ok (override c S, ws') := by
    rw [htext]
    unfold readSettings override
    rw [skipBlank_append hws, skipBlank_cons (by decide)]
    exact hread
  have hrest : skipBlank ws' = [] := by
    have h := skipBlank_append hws' []
    rwa [List.append_nil] at h
  rw [parse, hsettings, Except.bind]
  dsimp only
  rw [hrest]
  rfl

/-! ### The values -/

/-- Settings with the same values are the same. -/
theorem ext_get {c d : Settings} (h : ∀ s, c.get s = d.get s) : c = d := by
  cases c
  cases d
  rw [mk.injEq]
  exact ⟨Option.some.inj (h .traceCapacity), Option.some.inj (h .walkArcLimit),
    Option.some.inj (h .starArcLimit), h .traversalBudget, Option.some.inj (h .terminalLayers),
    Option.some.inj (h .extensionRounds), Option.some.inj (h .treeStarts),
    Option.some.inj (h .seed)⟩

theorem get_put (c d : Settings) (s s' : Setting) :
    (d.put s (c.get s)).get s' = if s' = s then c.get s else d.get s' := by
  cases s <;> cases s' <;> rfl

theorem get_foldl_put (c d : Settings) (S : List Setting) (s : Setting) :
    (S.foldl (fun d s => d.put s (c.get s)) d).get s = if s ∈ S then c.get s else d.get s := by
  induction S generalizing d with
  | nil => simp
  | cons s' S ih =>
    rw [List.foldl_cons, ih, get_put]
    by_cases hS : s ∈ S
    · simp [hS]
    · by_cases hs : s = s' <;> simp [hS, hs]

theorem get_override (c : Settings) (S : List Setting) (s : Setting) :
    (override c S).get s = if s ∈ S then c.get s else ({} : Settings).get s :=
  get_foldl_put c {} S s

end Settings

end SteinerSearch
