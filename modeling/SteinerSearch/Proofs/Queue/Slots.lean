import Mathlib.Data.List.Nodup
import Mathlib.Order.Basic
import SteinerSearch.Proofs.Tables
import SteinerSearch.Queue.NodeQueue

/-!
# Slots and states of a queue of nodes

The sifts move nodes between slots.  Whatever the keys are, the nodes in the
slots stay the same ones, each knows its slot, and no other state changes.

## Main definitions

* `NodeQueue.Waits q v` — `v` is in one of the slots of `q`.
* `NodeQueue.Agrees q` — every node in a slot knows the slot.
* `NodeQueue.Consistent q` — slots and states agree both ways.
* `NodeQueue.Rearranged q r` — `r` has the nodes of `q` in some other order.

## Main results

* `NodeQueue.rearranged_siftUp`, `NodeQueue.rearranged_siftDown` — the sifts only
  rearrange the queue that has the sifted node in the hole.
-/

namespace SteinerSearch

namespace NodeQueue

/-- `v` is in one of the slots. -/
def Waits (q : NodeQueue) (v : Nat) : Prop := ∃ i, 1 ≤ i ∧ i ≤ q.size ∧ q.nodeAt i = v

/-- Every node in a slot knows the slot. -/
def Agrees (q : NodeQueue) : Prop := ∀ i, 1 ≤ i → i ≤ q.size → q.stateOf (q.nodeAt i) = .queued i

/-- Slots and states agree both ways. -/
structure Consistent (q : NodeQueue) : Prop where
  /-- Every node in a slot knows the slot. -/
  agrees : q.Agrees
  /-- Every node that is said to wait is in that slot. -/
  placed : ∀ v i, q.stateOf v = .queued i → 1 ≤ i ∧ i ≤ q.size ∧ q.nodeAt i = v

/-! ### Reading and writing slots -/

section Put

variable {q : NodeQueue} {i : Nat} {v : Nat}

@[simp] theorem capacity_put : (q.put i v).capacity = q.capacity := by
  simp [put, capacity]

theorem nodeAt_put (hi : 1 ≤ i) (his : i ≤ q.size) {j : Nat} (hj : 1 ≤ j) :
    (q.put i v).nodeAt j = if j = i then v else q.nodeAt j := by
  have his := Nat.le_trans his q.count_le
  by_cases h : j = i
  · rw [if_pos h, h]
    exact Array.getD_setIfInBounds_self (by omega) v 0
  · rw [if_neg h]
    exact Array.getD_setIfInBounds_of_ne (by omega) v 0

theorem stateOf_put_self (hv : v < q.capacity) : (q.put i v).stateOf v = .queued i :=
  Array.getD_setIfInBounds_self hv _ _

theorem stateOf_put_of_ne {u : Nat} (hne : u ≠ v) : (q.put i v).stateOf u = q.stateOf u :=
  Array.getD_setIfInBounds_of_ne hne _ _

end Put

/-- Only nodes of the queue have a state other than unknown. -/
theorem lt_capacity_of_stateOf {q : NodeQueue} {v : Nat} (h : q.stateOf v ≠ .unknown) :
    v < q.capacity := by
  by_contra hv
  exact h (Array.getD_of_size_le (Nat.le_of_not_lt hv) _)

/-- No node is in two slots. -/
theorem Agrees.injective {q : NodeQueue} (hq : q.Agrees) {i j : Nat} (hi : 1 ≤ i) (his : i ≤ q.size)
    (hj : 1 ≤ j) (hjs : j ≤ q.size) (h : q.nodeAt i = q.nodeAt j) : i = j := by
  have hstate := hq i hi his
  rw [h, hq j hj hjs] at hstate
  exact (NodeState.queued.inj hstate).symm

theorem Agrees.lt_capacity {q : NodeQueue} (hq : q.Agrees) {i : Nat} (hi : 1 ≤ i)
    (his : i ≤ q.size) : q.nodeAt i < q.capacity :=
  lt_capacity_of_stateOf (by rw [hq i hi his]; exact NodeState.noConfusion)

theorem mem_waiting {q : NodeQueue} {v : Nat} : v ∈ q.waiting ↔ q.Waits v := by
  unfold waiting Waits
  rw [List.mem_map]
  constructor
  · rintro ⟨i, hi, rfl⟩
    rw [List.mem_range'_1] at hi
    exact ⟨i, hi.1, by omega, rfl⟩
  · rintro ⟨i, hi, his, rfl⟩
    exact ⟨i, List.mem_range'_1.mpr ⟨hi, by omega⟩, rfl⟩

theorem Agrees.nodup_waiting {q : NodeQueue} (hq : q.Agrees) : q.waiting.Nodup := by
  unfold waiting
  refine List.Nodup.map_on (fun i hi j hj h => ?_) List.nodup_range'
  rw [List.mem_range'_1] at hi hj
  exact hq.injective hi.1 (by omega) hj.1 (by omega) h

/-- In a consistent queue a node waits exactly if its state says so. -/
theorem Consistent.waits_iff {q : NodeQueue} (hq : q.Consistent) {v : Nat} :
    q.Waits v ↔ ∃ i, q.stateOf v = .queued i := by
  constructor
  · rintro ⟨i, hi, his, rfl⟩
    exact ⟨i, hq.agrees i hi his⟩
  · rintro ⟨i, h⟩
    exact ⟨i, hq.placed v i h⟩

/-! ### Rearranging -/

/-- `r` has the nodes of `q` in some other order. -/
structure Rearranged (q r : NodeQueue) : Prop where
  /-- Both have as many slots in use. -/
  size : r.size = q.size
  /-- Both are for the same nodes. -/
  capacity : r.capacity = q.capacity
  /-- Nothing is counted. -/
  usage : r.usage = q.usage
  /-- The same nodes wait. -/
  waits : ∀ v, r.Waits v ↔ q.Waits v
  /-- The nodes know their new slots. -/
  agrees : r.Agrees
  /-- The states of the other nodes stay. -/
  frame : ∀ v, ¬ q.Waits v → r.stateOf v = q.stateOf v

theorem Rearranged.refl {q : NodeQueue} (hq : q.Agrees) : Rearranged q q :=
  ⟨rfl, rfl, rfl, fun _ => Iff.rfl, hq, fun _ _ => rfl⟩

theorem Rearranged.trans {q r s : NodeQueue} (h₁ : Rearranged q r) (h₂ : Rearranged r s) :
    Rearranged q s where
  size := h₂.size.trans h₁.size
  capacity := h₂.capacity.trans h₁.capacity
  usage := h₂.usage.trans h₁.usage
  waits v := (h₂.waits v).trans (h₁.waits v)
  agrees := h₂.agrees
  frame v hv := by
    rw [h₂.frame v (by rwa [h₁.waits v]), h₁.frame v hv]

/-! ### Sifting

One step of a sift: the node in slot `j` moves into the hole at slot `i`, and the
sifted node `v` is to be written into slot `j` instead.  Seen with `v` in the
hole, the two nodes trade places. -/

section Move

variable {q : NodeQueue} {i j v : Nat} (hi : 1 ≤ i) (his : i ≤ q.size) (hj : 1 ≤ j)
  (hjs : j ≤ q.size) (hne : j ≠ i)

include hi his hj hjs hne

theorem nodeAt_move {l : Nat} (hl : 1 ≤ l) :
    ((q.put i (q.nodeAt j)).put j v).nodeAt l =
      if l = j then v else if l = i then (q.put i v).nodeAt j else (q.put i v).nodeAt l := by
  rw [nodeAt_put hj (by rw [size_put]; exact hjs) hl, nodeAt_put hi his hl,
    nodeAt_put hi his hj, if_neg hne, nodeAt_put hi his hl]
  by_cases hlj : l = j
  · simp [hlj]
  · by_cases hli : l = i <;> simp [hlj, hli]

/-- The two slots trade their nodes, so the same nodes wait. -/
theorem waits_move (u : Nat) :
    ((q.put i (q.nodeAt j)).put j v).Waits u ↔ (q.put i v).Waits u := by
  have hmove := @nodeAt_move q i j v hi his hj hjs hne
  have hqi : (q.put i v).nodeAt i = v := by rw [nodeAt_put hi his hi, if_pos rfl]
  constructor
  · rintro ⟨l, hl, hls, rfl⟩
    rw [hmove hl]
    rw [size_put, size_put] at hls
    by_cases hlj : l = j
    · exact ⟨i, hi, by simpa using his, by rw [if_pos hlj, hqi]⟩
    · by_cases hli : l = i
      · exact ⟨j, hj, by simpa using hjs, by rw [if_neg hlj, if_pos hli]⟩
      · exact ⟨l, hl, by simpa using hls, by rw [if_neg hlj, if_neg hli]⟩
  · rintro ⟨l, hl, hls, rfl⟩
    rw [size_put] at hls
    by_cases hli : l = i
    · exact ⟨j, hj, by simpa using hjs, by rw [hmove hj, if_pos rfl, hli, hqi]⟩
    · by_cases hlj : l = j
      · exact ⟨i, hi, by simpa using his, by rw [hmove hi, if_neg hne.symm, if_pos rfl, hlj]⟩
      · exact ⟨l, hl, by simpa using hls, by rw [hmove hl, if_neg hlj, if_neg hli]⟩

theorem rearranged_move (hq : (q.put i v).Agrees) :
    Rearranged (q.put i v) ((q.put i (q.nodeAt j)).put j v) := by
  have his' : i ≤ (q.put i v).size := by rwa [size_put]
  have hjs' : j ≤ (q.put i v).size := by rwa [size_put]
  have hqi : (q.put i v).nodeAt i = v := by rw [nodeAt_put hi his hi, if_pos rfl]
  have hqj : (q.put i v).nodeAt j = q.nodeAt j := by rw [nodeAt_put hi his hj, if_neg hne]
  have hpv : q.nodeAt j ≠ v := by
    intro h
    exact hne (hq.injective hj hjs' hi his' (by rw [hqj, h, hqi]))
  have hv : v < q.capacity := by
    have := hq.lt_capacity hi his'
    rwa [hqi, capacity_put] at this
  have hp : q.nodeAt j < q.capacity := by
    have := hq.lt_capacity hj hjs'
    rwa [hqj, capacity_put] at this
  refine ⟨by simp, by simp, rfl, waits_move hi his hj hjs hne, fun l hl hls => ?_,
    fun u hu => ?_⟩
  · -- the two nodes learn their slots, the others keep theirs
    have hls' : l ≤ (q.put i v).size := by simpa using hls
    rw [nodeAt_move hi his hj hjs hne hl]
    by_cases hlj : l = j
    · rw [if_pos hlj, hlj, stateOf_put_self (by simpa using hv)]
    · rw [if_neg hlj]
      by_cases hli : l = i
      · rw [if_pos hli, hqj, stateOf_put_of_ne hpv, stateOf_put_self hp, hli]
      · have hnv : (q.put i v).nodeAt l ≠ v := by
          intro h
          exact hli (hq.injective hl hls' hi his' (by rw [h, hqi]))
        have hnp : (q.put i v).nodeAt l ≠ q.nodeAt j := by
          intro h
          exact hlj (hq.injective hl hls' hj hjs' (by rw [h, hqj]))
        rw [if_neg hli, stateOf_put_of_ne hnv, stateOf_put_of_ne hnp,
          ← stateOf_put_of_ne (i := i) hnv, hq l hl hls']
  · have huv : u ≠ v := by
      rintro rfl
      exact hu ⟨i, hi, his', hqi⟩
    have hup : u ≠ q.nodeAt j := by
      rintro rfl
      exact hu ⟨j, hj, hjs', hqj⟩
    rw [stateOf_put_of_ne huv, stateOf_put_of_ne hup, stateOf_put_of_ne huv]

end Move

section Sift

variable {α : Type} [Weight α] {v : Nat}

theorem rearranged_siftUp (key : Nat → α) {q : NodeQueue} {i : Nat} (hi : 1 ≤ i) (his : i ≤ q.size)
    (hq : (q.put i v).Agrees) : Rearranged (q.put i v) (siftUp key v q i) := by
  induction i using Nat.strongRecOn generalizing q with
  | ind i ih =>
    rw [siftUp]
    split
    · next hlt =>
      have hj : 1 ≤ i / 2 := by omega
      have hmove := rearranged_move hi his hj (by omega) (by omega) hq
      dsimp only
      split
      · exact hmove.trans (ih (i / 2) (by omega) hj (by simp; omega) hmove.agrees)
      · exact .refl hq
    · exact .refl hq

/-- The child that moves up is one of the two children. -/
theorem lesserChild_cases (key : Nat → α) (q : NodeQueue) (i : Nat) :
    q.lesserChild key i = 2 * i ∨ q.lesserChild key i = 2 * i + 1 ∧ 2 * i < q.size := by
  unfold lesserChild
  split
  · next h =>
    simp only [Bool.and_eq_true, decide_eq_true_eq] at h
    exact Or.inr ⟨rfl, h.1⟩
  · exact Or.inl rfl

theorem rearranged_siftDown (key : Nat → α) {q : NodeQueue} {i : Nat} (hi : 1 ≤ i)
    (his : i ≤ q.size) (hq : (q.put i v).Agrees) : Rearranged (q.put i v) (siftDown key v q i) := by
  induction hn : q.size - i using Nat.strongRecOn generalizing q i with
  | ind n ih =>
    subst hn
    rw [siftDown]
    split
    · next hlt =>
      have hc := lesserChild_cases key q i
      have hj : 1 ≤ q.lesserChild key i := by omega
      have hjs : q.lesserChild key i ≤ q.size := by omega
      have hmove := rearranged_move hi his hj hjs (by omega) hq
      dsimp only
      split
      · exact hmove.trans (ih _ (by simp; omega) hj (by simpa using hjs) hmove.agrees rfl)
      · exact .refl hq
    · exact .refl hq

end Sift

end NodeQueue

end SteinerSearch
