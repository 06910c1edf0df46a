import SteinerSearch.Proofs.Queue.Keyed

/-!
# Keyed queues that were used before

A queue with its own keys that is used again has old entries in the slots that it does not use,
and it may have been made for more nodes.  As long as it is used for nodes that it was made for,
no operation reads such a slot or meets the end of a table.

## Main definitions

* `KeyedQueue.Alike n q r` — both queues hold the same entries, for some of the first `n` nodes,
  in the same slots.

## Main results

* `KeyedQueue.Alike.siftUp`, `KeyedQueue.Alike.siftDown` — the sifts read slots in use only.
* `KeyedQueue.Alike.insert`, `KeyedQueue.Alike.popMin?` — so do the operations.
-/

namespace SteinerSearch

namespace KeyedQueue

variable {α : Type} [Weight α] {n : Nat} {q r : KeyedQueue α}

/-- Both queues hold the same entries in the same slots, and know the same of all nodes.  All
entries are for the first `n` nodes, for which both queues have room. -/
structure Alike (n : Nat) (q r : KeyedQueue α) : Prop where
  size : r.size = q.size
  place : Array.Agree n .unknown q.place r.place
  entryAt : ∀ i, 1 ≤ i → i ≤ q.size → r.entryAt i = q.entryAt i
  within : ∀ i, 1 ≤ i → i ≤ q.size → (q.entryAt i).node < n

namespace Alike

theorem placeOf (h : Alike n q r) (v : Nat) : r.placeOf v = q.placeOf v := h.place.getD v

/-! ### Sifting -/

theorem put (h : Alike n q r) {i : Nat} (hi : 1 ≤ i) (his : i ≤ q.size) {e : KeyedNode α}
    (he : e.node < n) : Alike n (q.put i e) (r.put i e) where
  size := h.size
  place := h.place.set he (.slot i)
  entryAt j hj hjs := by
    rw [entryAt_put hi (by rw [h.size]; exact his) hj, entryAt_put hi his hj]
    split
    · rfl
    · exact h.entryAt j hj hjs
  within j hj hjs := by
    rw [entryAt_put hi his hj]
    split
    · exact he
    · exact h.within j hj hjs

theorem siftUp {e : KeyedNode α} (he : e.node < n) {i : Nat} (h : Alike n q r) (hi : 1 ≤ i)
    (his : i ≤ q.size) : Alike n (siftUp e q i) (siftUp e r i) := by
  induction i using Nat.strongRecOn generalizing q r with
  | ind i ih =>
    rw [KeyedQueue.siftUp, KeyedQueue.siftUp]
    split
    · next hlt =>
      have habove : r.entryAt (i / 2) = q.entryAt (i / 2) := h.entryAt _ (by omega) (by omega)
      have hnode := h.within (i / 2) (by omega) (by omega)
      dsimp only
      rw [habove]
      split
      · exact ih (i / 2) (by omega) (h.put hi his hnode) (by omega) (by rw [size_put]; omega)
      · exact h.put hi his he
    · exact h.put hi his he

/-- The look-ahead to the right child stops at the last slot in use. -/
theorem lesserChild {i : Nat} (h : Alike n q r) (hi : 1 ≤ i) (hc : 2 * i ≤ q.size) :
    r.lesserChild i = q.lesserChild i := by
  unfold KeyedQueue.lesserChild
  rw [h.size, h.entryAt (2 * i) (by omega) hc]
  by_cases hlast : 2 * i < q.size
  · rw [h.entryAt (2 * i + 1) (by omega) (by omega)]
  · simp only [hlast, decide_false, Bool.false_and]

theorem lesserChild_le {i : Nat} (hi : 1 ≤ i) (hc : 2 * i ≤ q.size) :
    i < q.lesserChild i ∧ q.lesserChild i ≤ q.size := by
  unfold KeyedQueue.lesserChild
  split
  · next h =>
    simp only [Bool.and_eq_true, decide_eq_true_eq] at h
    omega
  · omega

theorem siftDown {e : KeyedNode α} (he : e.node < n) {i : Nat} (h : Alike n q r) (hi : 1 ≤ i)
    (his : i ≤ q.size) : Alike n (siftDown e q i) (siftDown e r i) := by
  -- a hole sinks, so there are fewer slots below it
  induction hn : q.size - i using Nat.strongRecOn generalizing q r i with
  | ind m ih =>
    subst hn
    rw [KeyedQueue.siftDown, KeyedQueue.siftDown, h.size]
    split
    · next hlt =>
      obtain ⟨hic, hcs⟩ := lesserChild_le hi hlt.2
      have hnode := h.within _ (by omega) hcs
      dsimp only
      rw [h.lesserChild hi hlt.2, h.entryAt _ (by omega) hcs]
      split
      · exact ih _ (by rw [size_put]; omega) (h.put hi his hnode) (by omega)
          (by rw [size_put]; exact hcs) rfl
      · exact h.put hi his he
    · exact h.put hi his he

/-! ### Operations -/

theorem entryAt_append_last (q : KeyedQueue α) (e : KeyedNode α) :
    (q.append e).entryAt (q.size + 1) = e :=
  Buffer.getD_write_self q.count_le e _

theorem entryAt_append (q : KeyedQueue α) (e : KeyedNode α) {i : Nat} (hi : 1 ≤ i)
    (his : i ≤ q.size) : (q.append e).entryAt i = q.entryAt i := by
  have hne : i - 1 ≠ q.count := by
    change i ≤ q.count at his
    omega
  exact Buffer.getD_write_of_ne q.count_le hne e _

theorem append {e : KeyedNode α} (he : e.node < n) (h : Alike n q r) :
    Alike n (q.append e) (r.append e) := by
  have hslots : ∀ i, 1 ≤ i → i ≤ q.size + 1 → (r.append e).entryAt i = (q.append e).entryAt i ∧
      ((q.append e).entryAt i).node < n := by
    intro i hi his
    rcases Nat.lt_succ_iff_lt_or_eq.mp (Nat.lt_succ_of_le his) with hlt | rfl
    · have hlt := Nat.le_of_lt_succ hlt
      rw [entryAt_append q e hi hlt, entryAt_append r e hi (h.size ▸ hlt)]
      exact ⟨h.entryAt i hi hlt, h.within i hi hlt⟩
    · have hlast := entryAt_append_last r e
      rw [h.size] at hlast
      rw [hlast, entryAt_append_last q e]
      exact ⟨rfl, he⟩
  exact ⟨congrArg (· + 1) h.size, h.place, fun i hi his => (hslots i hi his).1,
    fun i hi his => (hslots i hi his).2⟩

/-- Both queues append an entry and move it up. -/
theorem push {v : Nat} (hv : v < n) (x : α) (h : Alike n q r) :
    Alike n (KeyedQueue.siftUp ⟨x, v⟩ (q.append ⟨x, v⟩) (q.size + 1))
      (KeyedQueue.siftUp ⟨x, v⟩ (r.append ⟨x, v⟩) (r.size + 1)) := by
  rw [h.size]
  exact (h.append (e := ⟨x, v⟩) hv).siftUp hv (by omega) le_rfl

theorem insert (h : Alike n q r) (hq : q.bare.Consistent) {v : Nat} (hv : v < n) (x : α) :
    Alike n (q.insert v x) (r.insert v x) := by
  unfold KeyedQueue.insert
  rw [h.placeOf]
  cases hplace : q.placeOf v with
  | unknown => exact h.push hv x
  | removed => exact h.push hv x
  | slot i =>
    obtain ⟨hi, his, -⟩ := hq.placed v i (placeOf_eq_slot_iff.mp hplace)
    dsimp only
    rw [h.entryAt i hi his]
    split
    · exact h.siftUp hv hi his
    · exact h

theorem shorten (h : Alike n q r) : Alike n q.shorten r.shorten where
  size := congrArg (· - 1) h.size
  place := h.place
  entryAt i hi his := by
    rw [size_shorten] at his
    exact h.entryAt i hi (by omega)
  within i hi his := by
    rw [size_shorten] at his
    exact h.within i hi (by omega)

theorem refilled (h : Alike n q r) (hpos : 0 < q.size) : Alike n q.refilled r.refilled := by
  unfold KeyedQueue.refilled
  rw [h.size, h.entryAt q.size hpos le_rfl]
  split
  · exact h.shorten
  · exact h.shorten.siftDown (h.within q.size hpos le_rfl) le_rfl (by rw [size_shorten]; omega)

theorem remove (h : Alike n q r) {v : Nat} (hv : v < n) : Alike n (q.remove v) (r.remove v) :=
  ⟨h.size, h.place.set hv .removed, h.entryAt, h.within⟩

/-- Both extractions find nothing, or the same entry. -/
theorem popMin? (h : Alike n q r) :
    (q.popMin? = none ∧ r.popMin? = none) ∨
      ∃ top q' r', q.popMin? = some (top, q') ∧ r.popMin? = some (top, r') ∧ Alike n q' r' := by
  rcases Nat.eq_zero_or_pos q.size with h0 | hpos
  · left
    exact ⟨popMin?_eq_none_iff.mpr h0, popMin?_eq_none_iff.mpr (h.size.trans h0)⟩
  · right
    refine ⟨q.entryAt 1, _, r.refilled.remove (q.entryAt 1).node, popMin?_of_pos hpos, ?_,
      (h.refilled hpos).remove (h.within 1 le_rfl hpos)⟩
    rw [popMin?_of_pos (by rwa [h.size]), h.entryAt 1 le_rfl hpos]

end Alike

/-- Two queues in which nothing waits and no node is known are alike. -/
theorem alike_of_size (hq : q.size = 0) (hr : r.size = 0) (hcap : n ≤ q.capacity)
    (hcap' : n ≤ r.capacity) (hplace : ∀ v, q.placeOf v = .unknown)
    (hplace' : ∀ v, r.placeOf v = .unknown) : Alike n q r where
  size := hr.trans hq.symm
  place := ⟨hcap, hcap', fun v => (hplace' v).trans (hplace v).symm⟩
  entryAt i hi his := by omega
  within i hi his := by omega

end KeyedQueue

end SteinerSearch
