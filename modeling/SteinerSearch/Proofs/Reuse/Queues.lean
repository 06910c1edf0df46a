import SteinerSearch.Proofs.Queue.Operations

/-!
# Queues that were used before

A queue that is used again has old nodes in the slots that it does not use.  No operation
reads such a slot, so two queues that agree on the slots in use go on doing so under the
same operations with the same keys.

## Main definitions

* `NodeQueue.Alike q r` — both queues hold the same nodes in the same slots.

## Main results

* `NodeQueue.Alike.siftUp`, `NodeQueue.Alike.siftDown` — the sifts read slots in use only.
* `NodeQueue.Alike.insert`, `NodeQueue.Alike.reopen`, `NodeQueue.Alike.popMin?`,
  `NodeQueue.Alike.clear` — so do the operations.
-/

namespace SteinerSearch

namespace NodeQueue

/-- Both queues hold the same nodes in the same slots and know the same of all nodes.  What
is in slots that are not in use, and what was counted, may differ. -/
structure Alike (q r : NodeQueue) : Prop where
  size : r.size = q.size
  state : r.state = q.state
  nodeAt : ∀ i, 1 ≤ i → i ≤ q.size → r.nodeAt i = q.nodeAt i

namespace Alike

variable {q r : NodeQueue}

theorem refl (q : NodeQueue) : Alike q q := ⟨rfl, rfl, fun _ _ _ => rfl⟩

theorem symm (h : Alike q r) : Alike r q :=
  ⟨h.size.symm, h.state.symm, fun i hi his => (h.nodeAt i hi (h.size ▸ his)).symm⟩

theorem stateOf (h : Alike q r) (v : Nat) : r.stateOf v = q.stateOf v := by
  rw [NodeQueue.stateOf, h.state, NodeQueue.stateOf]

theorem isSettled (h : Alike q r) (v : Nat) : r.isSettled v = q.isSettled v := by
  rw [NodeQueue.isSettled, h.stateOf, NodeQueue.isSettled]

theorem waiting (h : Alike q r) : r.waiting = q.waiting := by
  unfold NodeQueue.waiting
  rw [h.size]
  refine List.map_congr_left fun i hi => ?_
  rw [List.mem_range'_1] at hi
  exact h.nodeAt i hi.1 (by omega)

theorem peekMin? (h : Alike q r) : r.peekMin? = q.peekMin? := by
  unfold NodeQueue.peekMin?
  rw [h.size]
  split
  · rfl
  · rw [h.nodeAt 1 le_rfl (by omega)]

/-! ### Sifting -/

theorem put (h : Alike q r) {i : Nat} (hi : 1 ≤ i) (his : i ≤ q.size) (v : Nat) :
    Alike (q.put i v) (r.put i v) where
  size := h.size
  state := congrArg (fun st => Array.setIfInBounds st v (NodeState.queued i)) h.state
  nodeAt j hj hjs := by
    rw [nodeAt_put hi (by rw [h.size]; exact his) hj, nodeAt_put hi his hj]
    split
    · rfl
    · exact h.nodeAt j hj hjs

variable {α : Type} [Weight α]

theorem siftUp (key : Nat → α) (v : Nat) {i : Nat} (h : Alike q r) (hi : 1 ≤ i)
    (his : i ≤ q.size) : Alike (siftUp key v q i) (siftUp key v r i) := by
  induction i using Nat.strongRecOn generalizing q r with
  | ind i ih =>
    rw [NodeQueue.siftUp, NodeQueue.siftUp]
    split
    · next hlt =>
      have hpar : r.nodeAt (i / 2) = q.nodeAt (i / 2) := h.nodeAt _ (by omega) (by omega)
      dsimp only
      rw [hpar]
      split
      · exact ih (i / 2) (by omega) (h.put hi his _) (by omega) (by rw [size_put]; omega)
      · exact h.put hi his v
    · exact h.put hi his v

/-- The look-ahead to the right child stops at the last slot in use. -/
theorem lesserChild (key : Nat → α) {i : Nat} (h : Alike q r) (hi : 1 ≤ i)
    (hc : 2 * i ≤ q.size) : r.lesserChild key i = q.lesserChild key i := by
  unfold NodeQueue.lesserChild
  rw [h.size, h.nodeAt (2 * i) (by omega) hc]
  by_cases hlast : 2 * i < q.size
  · rw [h.nodeAt (2 * i + 1) (by omega) (by omega)]
  · simp only [hlast, decide_false, Bool.false_and]

theorem siftDown (key : Nat → α) (v : Nat) {i : Nat} (h : Alike q r) (hi : 1 ≤ i)
    (his : i ≤ q.size) : Alike (siftDown key v q i) (siftDown key v r i) := by
  -- a hole sinks, so there are fewer slots below it
  induction hn : q.size - i using Nat.strongRecOn generalizing q r i with
  | ind n ih =>
    subst hn
    rw [NodeQueue.siftDown, NodeQueue.siftDown, h.size]
    split
    · next hlt =>
      have hc := lesserChild_cases key q i
      have hcs : q.lesserChild key i ≤ q.size := by omega
      dsimp only
      rw [h.lesserChild key hi hlt.2, h.nodeAt _ (by omega) hcs]
      split
      · exact ih _ (by rw [size_put]; omega) (h.put hi his _) (by omega)
          (by rw [size_put]; exact hcs) rfl
      · exact h.put hi his v
    · exact h.put hi his v

/-! ### Operations -/

omit [Weight α] in
theorem append (h : Alike q r) (v : Nat) : Alike (q.append v) (r.append v) where
  size := congrArg (· + 1) h.size
  state := h.state
  nodeAt i hi his := by
    have hcount : r.count = q.count := h.size
    rw [size_append] at his
    change (Buffer.write r.slots r.count v).getD (i - 1) 0 =
      (Buffer.write q.slots q.count v).getD (i - 1) 0
    by_cases hlast : i = q.size + 1
    · have hi' : i - 1 = q.count := by rw [hlast]; rfl
      rw [hi', ← hcount, Buffer.getD_write_self r.count_le, hcount,
        Buffer.getD_write_self q.count_le]
    · have hne : i - 1 ≠ q.count := by
        change i ≠ q.count + 1 at hlast
        omega
      rw [Buffer.getD_write_of_ne r.count_le (by rwa [hcount]),
        Buffer.getD_write_of_ne q.count_le hne]
      exact h.nodeAt i hi (by omega)

theorem push (key : Nat → α) (h : Alike q r) (v : Nat) : Alike (q.push key v) (r.push key v) := by
  unfold NodeQueue.push
  rw [h.size]
  exact (h.append v).siftUp key v (by omega) (by rw [size_append])

theorem reopen (key : Nat → α) (h : Alike q r) (hq : q.Consistent) (v : Nat) :
    Alike (q.reopen key v) (r.reopen key v) := by
  unfold NodeQueue.reopen
  rw [h.stateOf]
  cases hv : q.stateOf v with
  | unknown => exact h.push key v
  | queued i =>
    obtain ⟨hi, his, -⟩ := hq.placed v i hv
    exact h.siftUp key v hi his
  | settled => exact h.push key v

theorem insert (key : Nat → α) (h : Alike q r) (hq : q.Consistent) (v : Nat) :
    Alike (q.insert key v) (r.insert key v) := by
  by_cases hs : q.stateOf v = .settled
  · unfold NodeQueue.insert
    rw [h.stateOf, hs]
    exact h
  · rw [insert_eq_reopen key hs, insert_eq_reopen key (by rwa [h.stateOf])]
    exact h.reopen key hq v

omit [Weight α] in
theorem shorten (h : Alike q r) : Alike q.shorten r.shorten where
  size := congrArg (· - 1) h.size
  state := h.state
  nodeAt i hi his := by
    rw [size_shorten] at his
    exact h.nodeAt i hi (by omega)

theorem refilled (key : Nat → α) (h : Alike q r) (hpos : 0 < q.size) :
    Alike (q.refilled key) (r.refilled key) := by
  unfold NodeQueue.refilled
  rw [h.size, h.nodeAt q.size (by omega) le_rfl]
  split
  · exact h.shorten
  · exact h.shorten.siftDown key _ le_rfl (by rw [size_shorten]; omega)

omit [Weight α] in
theorem settle (h : Alike q r) (v : Nat) : Alike (q.settle v) (r.settle v) :=
  ⟨h.size, congrArg (fun st => Array.setIfInBounds st v NodeState.settled) h.state, h.nodeAt⟩

/-- Both extractions find nothing, or the same node. -/
theorem popMin? (key : Nat → α) (h : Alike q r) :
    (q.popMin? key = none ∧ r.popMin? key = none) ∨
      ∃ v q' r', q.popMin? key = some (v, q') ∧ r.popMin? key = some (v, r') ∧ Alike q' r' := by
  rcases Nat.eq_zero_or_pos q.size with h0 | hpos
  · left
    exact ⟨popMin?_eq_none_iff.mpr h0, popMin?_eq_none_iff.mpr (h.size.trans h0)⟩
  · right
    refine ⟨q.nodeAt 1, _, (r.refilled key).settle (q.nodeAt 1), popMin?_of_pos hpos key, ?_,
      (h.refilled key hpos).settle (q.nodeAt 1)⟩
    rw [popMin?_of_pos (by rwa [h.size]), h.nodeAt 1 le_rfl hpos]

omit [Weight α] in
theorem setState (h : Alike q r) (v : Nat) (s : NodeState) :
    Alike (q.setState v s) (r.setState v s) :=
  ⟨h.size, congrArg (fun st => Array.setIfInBounds st v s) h.state, h.nodeAt⟩

omit [Weight α] in
theorem clear (h : Alike q r) : Alike q.clear r.clear where
  size := rfl
  state := by
    change r.waiting.foldl _ r.state = q.waiting.foldl _ q.state
    rw [h.waiting, h.state]
  nodeAt i hi his := absurd (his.trans_eq size_clear) (by omega)

end Alike

/-! ### Setting the states of several nodes -/

variable {q r : NodeQueue} {s : NodeState}

theorem Alike.setStates (h : Alike q r) (vs : List Nat) :
    Alike (vs.foldl (fun q v => q.setState v s) q) (vs.foldl (fun q v => q.setState v s) r) := by
  induction vs generalizing q r with
  | nil => exact h
  | cons v vs ih => exact ih (h.setState v s)

theorem size_setStates (vs : List Nat) :
    (vs.foldl (fun q v => q.setState v s) q).size = q.size := by
  induction vs generalizing q with
  | nil => rfl
  | cons v vs ih => exact ih

theorem capacity_setStates (vs : List Nat) :
    (vs.foldl (fun q v => q.setState v s) q).capacity = q.capacity := by
  induction vs generalizing q with
  | nil => rfl
  | cons v vs ih => exact ih.trans capacity_setState

theorem state_setStates (vs : List Nat) :
    (vs.foldl (fun q v => q.setState v s) q).state =
      vs.foldl (fun st v => st.setIfInBounds v s) q.state := by
  induction vs generalizing q with
  | nil => rfl
  | cons v vs ih => exact ih

theorem stateOf_setStates_unknown (vs : List Nat) (v : Nat) :
    (vs.foldl (fun q v => q.setState v .unknown) q).stateOf v =
      if v ∈ vs then .unknown else q.stateOf v := by
  rw [stateOf, state_setStates]
  exact Array.getD_foldl_setIfInBounds ..

end NodeQueue

end SteinerSearch
