import SteinerSearch.Proofs.TraceLists

/-!
# Traces that were used before

A list that is cleared gives up its row as it is, so the rows of a buffer that is used again
are full of old ids.  Only the entries below the fill of a row are read, and they were
written since the row was cleared.

## Main definitions

* `TraceLists.Alike l m` — both have the same lists.

## Main results

* `TraceLists.Alike.push`, `TraceLists.Alike.copy` — pushes and copies read lists only.
* `TraceLists.fillOf_clears` — what is left once some lists are cleared.
-/

namespace SteinerSearch

namespace TraceLists

/-- Both have the same lists.  What is in the rest of the rows may differ. -/
structure Alike (l m : TraceLists) : Prop where
  capacity : m.capacity = l.capacity
  fillSize : m.fill.size = l.fill.size
  idsSize : m.ids.size = l.ids.size
  get? : ∀ v, m.get? v = l.get? v

variable {l m : TraceLists} {n u v : Nat}

/-- The fill of a row can be told from its list. -/
theorem fillOf_eq (l : TraceLists) (v : Nat) :
    l.fillOf v = match l.get? v with
      | some ids => .holding ids.length
      | none => .saturated := by
  cases h : l.fillOf v with
  | saturated => rw [get?_of_saturated h]
  | holding count => simp [get?_of_holding h]

namespace Alike

theorem refl (l : TraceLists) : Alike l l := ⟨rfl, rfl, rfl, fun _ => rfl⟩

theorem symm (h : Alike l m) : Alike m l :=
  ⟨h.capacity.symm, h.fillSize.symm, h.idsSize.symm, fun v => (h.get? v).symm⟩

theorem fillOf (h : Alike l m) (v : Nat) : m.fillOf v = l.fillOf v := by
  rw [fillOf_eq, fillOf_eq, h.get?]

theorem mayContain (h : Alike l m) (v x : Nat) : m.mayContain v x = l.mayContain v x :=
  mayContain_congr (h.get? v) x

theorem surelyContains (h : Alike l m) (v x : Nat) :
    m.surelyContains v x = l.surelyContains v x := by
  unfold TraceLists.surelyContains
  rw [h.get?]

theorem wellFormed (h : Alike l m) (hl : l.WellFormed n) : m.WellFormed n where
  fill := h.fillSize.trans hl.fill
  ids := by rw [h.idsSize, h.capacity, hl.ids]
  bounded v count hv := by
    rw [h.fillOf] at hv
    rw [h.capacity]
    exact hl.bounded v count hv

/-- Of lists for the same nodes only the bound and the lists themselves matter. -/
theorem of_wellFormed (hl : l.WellFormed n) (hm : m.WellFormed n) (hcap : m.capacity = l.capacity)
    (hget : ∀ v, m.get? v = l.get? v) : Alike l m where
  capacity := hcap
  fillSize := hm.fill.trans hl.fill.symm
  idsSize := by rw [hm.ids, hl.ids, hcap]
  get? := hget

theorem push (h : Alike l m) (hl : l.WellFormed n) (hv : v < n) (x : Nat) :
    Alike (l.push v x) (m.push v x) := by
  have hm := h.wellFormed hl
  refine of_wellFormed (hl.push hv x) (hm.push hv x) ?_ fun u => ?_
  · rw [capacity_push, capacity_push, h.capacity]
  · by_cases huv : u = v
    · rw [huv, get?_push hm hv, get?_push hl hv, h.get?, h.capacity]
    · rw [get?_push_of_ne hm huv, get?_push_of_ne hl huv, h.get?]

theorem copy (h : Alike l m) (hl : l.WellFormed n) (hu : u < n) (hne : v ≠ u) :
    Alike (l.copy v u) (m.copy v u) := by
  have hm := h.wellFormed hl
  refine of_wellFormed (hl.copy hu hne) (hm.copy hu hne) ?_ fun x => ?_
  · rw [capacity_copy hm hu hne, capacity_copy hl hu hne, h.capacity]
  · by_cases hx : x = u
    · rw [hx, get?_copy hm hu hne, get?_copy hl hu hne, h.get?, h.get?]
    · rw [get?_copy_of_ne hm hu hne hx, get?_copy_of_ne hl hu hne hx, h.get?]

end Alike

/-! ### Clearing several lists -/

theorem fillOf_clear : (l.clear u).fillOf v = if v = u then .holding 0 else l.fillOf v :=
  Array.getD_setIfInBounds_default ..

theorem get?_clear : (l.clear u).get? v = if v = u then some [] else l.get? v := by
  by_cases hvu : v = u
  · have hfill : (l.clear u).fillOf v = .holding 0 := by rw [fillOf_clear, if_pos hvu]
    rw [if_pos hvu, get?_of_holding hfill]
    rfl
  · have hfill : (l.clear u).fillOf v = l.fillOf v := by rw [fillOf_clear, if_neg hvu]
    rw [if_neg hvu]
    unfold TraceLists.get?
    rw [hfill]
    rfl

theorem fillOf_clears (vs : List Nat) :
    (vs.foldl clear l).fillOf v = if v ∈ vs then .holding 0 else l.fillOf v := by
  induction vs generalizing l with
  | nil => simp
  | cons u vs ih =>
    rw [List.foldl_cons, ih, fillOf_clear]
    by_cases hv : v ∈ vs
    · simp [hv]
    · by_cases hvu : v = u <;> simp [hv, hvu]

theorem capacity_clears (vs : List Nat) : (vs.foldl clear l).capacity = l.capacity := by
  induction vs generalizing l with
  | nil => rfl
  | cons u vs ih => exact ih

theorem Sized.clears (hl : l.Sized n) (vs : List Nat) : (vs.foldl clear l).Sized n := by
  induction vs generalizing l with
  | nil => exact hl
  | cons u vs ih => exact ih (hl.setFill u _)

theorem Alike.clears (h : Alike l m) (vs : List Nat) :
    Alike (vs.foldl clear l) (vs.foldl clear m) := by
  induction vs generalizing l m with
  | nil => exact h
  | cons u vs ih =>
    refine ih ⟨h.capacity, ?_, h.idsSize, fun v => ?_⟩
    · simp only [clear, setFill, Array.size_setIfInBounds, h.fillSize]
    · rw [get?_clear, get?_clear, h.get?]

end TraceLists

end SteinerSearch
