import SteinerSearch.Layers.PairBounds
import SteinerSearch.Proofs.Comparison
import SteinerSearch.Proofs.Stepping

/-!
# Least offers for pairs

Bounds come from offers: two terminals and a length each.  After some offers the bound for a pair
is the least of those that were made for it, in whatever order they came and whichever terminal
was named first.  An offer that is lower by rounding only is not taken up, so lengths are whole
numbers here.

## Main definitions

* `PairBounds.lowerAll b offers` — the bounds after some offers.
* `PairBounds.Least offers b` — the bounds are the least offers.

## Main results

* `PairBounds.getElem?_lower_of_ne`, `PairBounds.bound?_lower` — what one offer changes.
* `PairBounds.least_lowerAll` — a bound is an offer, and no offer for the pair is below it.
-/

namespace SteinerSearch

instance : Std.TransCmp comparePairs :=
  inferInstanceAs (Std.TransCmp (compareLex (compareOn Prod.fst) (compareOn Prod.snd)))

instance : Std.LawfulEqCmp comparePairs where
  eq_of_compare {x y} h := by
    obtain ⟨hfst, hsnd⟩ := compareLex_eq_eq.mp h
    exact Prod.ext (Nat.compare_eq_eq.mp hfst) (Nat.compare_eq_eq.mp hsnd)

namespace PairBounds

variable {α : Type} {b : PairBounds α} {s t s' t' : Nat} {x y : α}

/-! ### Pairs -/

theorem pair_comm (s t : Nat) : pair s t = pair t s := by
  unfold pair
  rcases Nat.lt_trichotomy s t with h | rfl | h
  · rw [if_pos h, if_neg (Nat.lt_asymm h)]
  · rfl
  · rw [if_neg (Nat.lt_asymm h), if_pos h]

theorem pair_of_lt (h : s < t) : pair s t = (s, t) := if_pos h

theorem pair_fst_lt_snd (h : s ≠ t) : (pair s t).1 < (pair s t).2 := by
  unfold pair
  split
  · next hlt => exact hlt
  · next hge => exact Nat.lt_of_le_of_ne (Nat.le_of_not_lt hge) h.symm

/-- A pair is stored in the same place in either order only. -/
theorem pair_eq_iff : pair s t = pair s' t' ↔ (s = s' ∧ t = t') ∨ (s = t' ∧ t = s') := by
  unfold pair
  split <;> split <;> simp only [Prod.mk.injEq] <;> omega

theorem bound?_comm (b : PairBounds α) (s t : Nat) : b.bound? s t = b.bound? t s := by
  rw [bound?, pair_comm, bound?]

theorem bound?_congr (h : pair s t = pair s' t') : b.bound? s t = b.bound? s' t' := by
  rw [bound?, h, bound?]

/-- An entry is found under its pair, and what is found is an entry. -/
theorem mem_toList_iff {p : Nat × Nat} : (p, x) ∈ b.toList ↔ b.bounds[p]? = some x :=
  Std.TreeMap.mem_toList_iff_getElem?_eq_some

/-! ### One offer -/

section Lower

variable [Weight α] {p : Nat × Nat}

/-- Other pairs are left alone. -/
theorem getElem?_lower_of_ne (h : pair s t ≠ p) : (b.lower s t x).bounds[p]? = b.bounds[p]? := by
  have hinsert : (b.bounds.insert (pair s t) x)[p]? = b.bounds[p]? := by
    rw [Std.TreeMap.getElem?_insert, if_neg]
    rwa [Std.LawfulEqCmp.compare_eq_iff_eq]
  unfold lower
  split
  · split
    · exact hinsert
    · rfl
  · exact hinsert

/-- An offer is taken up if it is the first one or a lower one. -/
theorem bound?_lower : (b.lower s t x).bound? s t = some x ∧
      (∀ y, b.bound? s t = some y → Weight.below x y = true) ∨
    ∃ y, b.bound? s t = some y ∧ (b.lower s t x).bound? s t = some y ∧
      Weight.below x y = false := by
  have hinsert : (PairBounds.mk (b.bounds.insert (pair s t) x)).bound? s t = some x := by
    rw [bound?, Std.TreeMap.getElem?_insert, if_pos (Std.LawfulEqCmp.compare_eq_iff_eq.mpr rfl)]
  unfold lower
  cases hold : b.bound? s t with
  | none => exact Or.inl ⟨hinsert, fun y hy => by cases hy⟩
  | some y =>
    simp only
    cases hbelow : Weight.below x y with
    | true => exact Or.inl ⟨hinsert, fun z hz => Option.some.inj hz ▸ hbelow⟩
    | false => exact Or.inr ⟨y, rfl, hold, hbelow⟩

/-- The bounds after some offers. -/
def lowerAll (b : PairBounds α) (offers : List ((Nat × Nat) × α)) : PairBounds α :=
  offers.foldl (fun b offer => b.lower offer.1.1 offer.1.2 offer.2) b

/-- If each member of a list comes to some offers, the list comes to all of them. -/
theorem foldl_eq_lowerAll {β : Type} {f : PairBounds α → β → PairBounds α}
    {offers : β → List ((Nat × Nat) × α)} (h : ∀ b z, f b z = b.lowerAll (offers z)) (zs : List β)
    (b : PairBounds α) : zs.foldl f b = b.lowerAll (zs.flatMap offers) := by
  induction zs generalizing b with
  | nil => rfl
  | cons z zs ih =>
    rw [List.foldl_cons, ih, h, List.flatMap_cons, lowerAll, lowerAll, lowerAll, List.foldl_append]

end Lower

/-! ### All offers -/

/-- Each bound was among the offers for its pair, and none of these is below it. -/
structure Least (offers : List ((Nat × Nat) × ℚ)) (b : PairBounds ℚ) : Prop where
  offered : ∀ p x, b.bounds[p]? = some x →
    ∃ offer ∈ offers, pair offer.1.1 offer.1.2 = p ∧ offer.2 = x
  le : ∀ offer ∈ offers, ∃ x, b.bound? offer.1.1 offer.1.2 = some x ∧ x ≤ offer.2

section Least

variable {b : PairBounds ℚ} {x : ℚ} {offers : List ((Nat × Nat) × ℚ)}

theorem least_empty : Least [] empty := by
  refine ⟨fun p x h => ?_, fun offer h => absurd h List.not_mem_nil⟩
  have hnone : (empty : PairBounds ℚ).bounds[p]? = none := Std.TreeMap.getElem?_emptyc
  rw [hnone] at h
  cases h

/-- One more offer. -/
theorem Least.lower (h : Least offers b) (hwhole : ∀ offer ∈ offers, Weight.IsWhole offer.2)
    (hx : Weight.IsWhole x) : Least (offers ++ [((s, t), x)]) (b.lower s t x) := by
  have hapart : ∀ y, b.bound? s t = some y → Weight.Apart x y := by
    intro y hy
    obtain ⟨offer, hmem, -, rfl⟩ := h.offered _ y hy
    exact hx.apart (hwhole offer hmem)
  -- the bound for the pair is the lower one of the old bound and the offer
  have hpair : ∃ y, (b.lower s t x).bound? s t = some y ∧ y ≤ x ∧
      (y = x ∨ b.bound? s t = some y) ∧ ∀ z, b.bound? s t = some z → y ≤ z := by
    rcases b.bound?_lower (s := s) (t := t) (x := x) with ⟨hnew, hbelow⟩ | ⟨y, hold, hkept, hbelow⟩
    · refine ⟨x, hnew, le_rfl, Or.inl rfl, fun z hz => ?_⟩
      exact ((Weight.below_iff (hapart z hz)).mp (hbelow z hz)).le
    · refine ⟨y, hkept, ?_, Or.inr hold, fun z hz => ?_⟩
      · rwa [← Bool.not_eq_true, Weight.below_iff (hapart y hold), not_lt] at hbelow
      · exact (Option.some.inj (hold.symm.trans hz)).le
  obtain ⟨y, hy, hyx, hfrom, hle⟩ := hpair
  refine ⟨fun p z hz => ?_, fun offer hoffer => ?_⟩
  · by_cases hp : pair s t = p
    · subst hp
      obtain rfl : y = z := Option.some.inj (hy.symm.trans hz)
      rcases hfrom with rfl | hold
      · exact ⟨((s, t), y), by simp, rfl, rfl⟩
      · obtain ⟨offer, hmem, hsame⟩ := h.offered _ y hold
        exact ⟨offer, List.mem_append_left _ hmem, hsame⟩
    · rw [getElem?_lower_of_ne hp] at hz
      obtain ⟨offer, hmem, hsame⟩ := h.offered p z hz
      exact ⟨offer, List.mem_append_left _ hmem, hsame⟩
  · rcases List.mem_append.mp hoffer with hmem | hmem
    · obtain ⟨z, hz, hzle⟩ := h.le offer hmem
      by_cases hp : pair s t = pair offer.1.1 offer.1.2
      · exact ⟨y, (bound?_congr hp).symm.trans hy,
          (hle z ((bound?_congr hp).trans hz)).trans hzle⟩
      · exact ⟨z, (getElem?_lower_of_ne hp).trans hz, hzle⟩
    · rw [List.mem_singleton.mp hmem]
      exact ⟨y, hy, hyx⟩

/-- The bounds after some offers are the least ones. -/
theorem least_lowerAll (hwhole : ∀ offer ∈ offers, Weight.IsWhole offer.2) :
    Least offers (lowerAll empty offers) := by
  refine foldl_ensures (J := Least) offers (fun done offer b hdone hb => ?_) least_empty
  have hmem : ∀ {o}, o ∈ done ++ [offer] → o ∈ offers := fun ho => hdone.subset ho
  exact hb.lower (fun o ho => hwhole o (hmem (List.mem_append_left _ ho)))
    (hwhole offer (hmem (by simp)))

end Least

end PairBounds

end SteinerSearch
