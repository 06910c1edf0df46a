import SteinerSearch.Proofs.Queue.Order

/-!
# What the operations of a queue of nodes do

Each operation is described by what it does to the set of waiting nodes and to
the states of the others, whatever the keys are.  A second statement says that
the operation keeps the heap order for every preorder that its comparisons respect,
and so the order of the keys if these are apart.

## Main definitions

* `NodeQueue.Queued q v r` — `r` is `q` with `v` waiting.
* `NodeQueue.Extracted q v r` — `r` is `q` with the waiting node `v` settled.

## Main results

* `NodeQueue.queued_insert`, `NodeQueue.queued_reopen`,
  `NodeQueue.extracted_popMin?` — what the operations do, for all keys.
* `NodeQueue.orderedBy_reopen`, `NodeQueue.orderedBy_popMin?` — they keep the order.
* `NodeQueue.popMin?_le` — the extracted node has the smallest key.
-/

namespace SteinerSearch

namespace NodeQueue

/-- `r` is `q` with `v` waiting. -/
structure Queued (q : NodeQueue) (v : Nat) (r : NodeQueue) : Prop where
  /-- Slots and states still agree. -/
  consistent : r.Consistent
  /-- Both are for the same nodes. -/
  capacity : r.capacity = q.capacity
  /-- Nothing but `v` was added. -/
  waits : ∀ u, r.Waits u ↔ q.Waits u ∨ u = v
  /-- The states of nodes that do not wait stay. -/
  frame : ∀ u, ¬ q.Waits u → u ≠ v → r.stateOf u = q.stateOf u

/-- `r` is `q` with the waiting node `v` settled. -/
structure Extracted (q : NodeQueue) (v : Nat) (r : NodeQueue) : Prop where
  /-- The node waited. -/
  waited : q.Waits v
  /-- Slots and states still agree. -/
  consistent : r.Consistent
  /-- Both are for the same nodes. -/
  capacity : r.capacity = q.capacity
  /-- Nothing but `v` was taken out. -/
  waits : ∀ u, r.Waits u ↔ q.Waits u ∧ u ≠ v
  /-- The node is settled. -/
  settled : r.stateOf v = .settled
  /-- The states of nodes that did not wait stay. -/
  frame : ∀ u, ¬ q.Waits u → r.stateOf u = q.stateOf u

variable {α : Type} [Weight α]

theorem Rearranged.consistent {q r : NodeQueue} (h : Rearranged q r) (hq : q.Consistent) :
    r.Consistent where
  agrees := h.agrees
  placed v i hv := by
    by_cases hw : r.Waits v
    · obtain ⟨j, hj, hjs, rfl⟩ := hw
      rw [h.agrees j hj hjs] at hv
      obtain rfl := NodeState.queued.inj hv
      exact ⟨hj, hjs, rfl⟩
    · rw [h.waits] at hw
      rw [h.frame v hw] at hv
      exact absurd ⟨i, hq.placed v i hv⟩ hw

/-! ### The empty queue -/

@[simp] theorem capacity_empty (n : Nat) : (empty n).capacity = n := by
  simp [empty, capacity]

@[simp] theorem stateOf_empty (n v : Nat) : (empty n).stateOf v = .unknown :=
  Array.getD_replicate _ _ _

theorem not_waits_of_size {q : NodeQueue} (hq : q.size = 0) (v : Nat) : ¬ q.Waits v := by
  rintro ⟨i, hi, his, -⟩
  omega

/-- A queue in which nothing waits is consistent if no state says otherwise. -/
theorem consistent_of_size {q : NodeQueue} (hq : q.size = 0)
    (hstate : ∀ v, q.stateOf v = .unknown ∨ q.stateOf v = .settled) : q.Consistent where
  agrees i hi his := by omega
  placed v i h := by
    rcases hstate v with hv | hv <;> rw [hv] at h <;> exact NodeState.noConfusion h

theorem orderedBy_of_size {β : Type} {R : β → β → Prop} {key : Nat → β} {q : NodeQueue}
    (hq : q.size = 0) : OrderedBy R key q := by
  intro j hj hjs
  omega

theorem ordered_of_size {key : Nat → ℚ} {q : NodeQueue} (hq : q.size = 0) : Ordered key q :=
  orderedBy_of_size hq

/-! ### Making a node wait -/

/-- Writing a waiting node into its own slot changes nothing. -/
theorem Consistent.put_self {q : NodeQueue} (hq : q.Consistent) {v i : Nat}
    (hv : q.stateOf v = .queued i) : q.put i v = q := by
  obtain ⟨hi, his, hnode⟩ := hq.placed v i hv
  have hlt : v < q.state.size := lt_capacity_of_stateOf (by rw [hv]; exact NodeState.noConfusion)
  have his := Nat.le_trans his q.count_le
  have hslot : q.slots[i - 1]? = some v := by
    simp only [nodeAt, Array.getD_eq_getD_getElem?] at hnode
    rw [Array.getElem?_eq_getElem (by omega)] at hnode ⊢
    exact congrArg some hnode
  have hstate : q.state[v]? = some (.queued i) := by
    simp only [stateOf, Array.getD_eq_getD_getElem?] at hv
    rw [Array.getElem?_eq_getElem hlt] at hv ⊢
    exact congrArg some hv
  exact NodeQueue.ext (Array.setIfInBounds_eq_self hslot) rfl
    (Array.setIfInBounds_eq_self hstate) rfl

section Append

variable {q : NodeQueue} {v : Nat}

@[simp] theorem size_append : (q.append v).size = q.size + 1 := rfl

@[simp] theorem capacity_append : (q.append v).capacity = q.capacity := rfl

theorem nodeAt_append {i : Nat} (hi : 1 ≤ i) (his : i ≤ q.size) :
    ((q.append v).put (q.size + 1) v).nodeAt i = q.nodeAt i := by
  rw [nodeAt_put (by omega) (by simp) hi, if_neg (by omega)]
  unfold size at his
  exact Buffer.getD_write_of_ne q.count_le (by omega) v 0

theorem nodeAt_append_last : ((q.append v).put (q.size + 1) v).nodeAt (q.size + 1) = v := by
  rw [nodeAt_put (by omega) (by simp) (by omega), if_pos rfl]

theorem waits_append {u : Nat} :
    ((q.append v).put (q.size + 1) v).Waits u ↔ q.Waits u ∨ u = v := by
  constructor
  · rintro ⟨i, hi, his, rfl⟩
    rw [size_put, size_append] at his
    by_cases hlast : i = q.size + 1
    · right
      rw [hlast, nodeAt_append_last]
    · left
      exact ⟨i, hi, by omega, (nodeAt_append hi (by omega)).symm⟩
  · rintro (⟨i, hi, his, rfl⟩ | rfl)
    · exact ⟨i, hi, by simp; omega, nodeAt_append hi his⟩
    · exact ⟨q.size + 1, by omega, by simp, nodeAt_append_last⟩

theorem Consistent.append (hq : q.Consistent) (hv : v < q.capacity) (hw : ¬ q.Waits v) :
    ((q.append v).put (q.size + 1) v).Consistent where
  agrees i hi his := by
    rw [size_put, size_append] at his
    by_cases hlast : i = q.size + 1
    · rw [hlast, nodeAt_append_last]
      exact stateOf_put_self (by simpa using hv)
    · rw [nodeAt_append hi (by omega), stateOf_put_of_ne]
      · exact hq.agrees i hi (by omega)
      · rintro rfl
        exact hw ⟨i, hi, by omega, rfl⟩
  placed u i hu := by
    by_cases huv : u = v
    · rw [huv, stateOf_put_self (by simpa using hv)] at hu
      obtain rfl := NodeState.queued.inj hu
      exact ⟨by omega, by simp, by rw [nodeAt_append_last, huv]⟩
    · rw [stateOf_put_of_ne huv] at hu
      obtain ⟨hi, his, hnode⟩ := hq.placed u i hu
      exact ⟨hi, by simp; omega, by rw [nodeAt_append hi his, hnode]⟩

end Append

theorem queued_push {q : NodeQueue} (key : Nat → α) {v : Nat} (hq : q.Consistent)
    (hv : v < q.capacity) (hw : ¬ q.Waits v) : Queued q v (q.push key v) := by
  have hcons := hq.append hv hw
  have h := rearranged_siftUp key (by omega) (by simp) hcons.agrees
  rw [push]
  refine ⟨h.consistent hcons, by rw [h.capacity]; simp,
    fun u => (h.waits u).trans waits_append, fun u hu huv => ?_⟩
  rw [h.frame u (by rw [waits_append, not_or]; exact ⟨hu, huv⟩), stateOf_put_of_ne huv]
  rfl

theorem queued_siftUp {q : NodeQueue} (key : Nat → α) {v i : Nat} (hq : q.Consistent)
    (hv : q.stateOf v = .queued i) : Queued q v (siftUp key v q i) := by
  obtain ⟨hi, his, hnode⟩ := hq.placed v i hv
  have hput := hq.put_self hv
  have h := rearranged_siftUp key hi his (by rw [hput]; exact hq.agrees)
  rw [hput] at h
  refine ⟨h.consistent hq, h.capacity, fun u => ?_, fun u hu _ => h.frame u hu⟩
  rw [h.waits]
  refine ⟨Or.inl, ?_⟩
  rintro (hu | rfl)
  · exact hu
  · exact ⟨i, hi, his, hnode⟩

theorem queued_reopen {q : NodeQueue} (key : Nat → α) {v : Nat} (hq : q.Consistent)
    (hv : v < q.capacity) : Queued q v (q.reopen key v) := by
  have hpush : (∀ i, q.stateOf v ≠ .queued i) → Queued q v (q.push key v) := by
    intro h
    refine queued_push key hq hv ?_
    rw [hq.waits_iff]
    rintro ⟨i, hi⟩
    exact h i hi
  unfold reopen
  split
  · next h => exact queued_siftUp key hq h
  · next h => exact hpush (by rw [h]; exact fun i => NodeState.noConfusion)
  · next h => exact hpush (by rw [h]; exact fun i => NodeState.noConfusion)

/-- A node that is not settled is inserted like one that is opened again. -/
theorem insert_eq_reopen {q : NodeQueue} (key : Nat → α) {v : Nat} (hs : q.stateOf v ≠ .settled) :
    q.insert key v = q.reopen key v := by
  unfold insert reopen
  cases h : q.stateOf v with
  | unknown => rfl
  | queued i => rfl
  | settled => exact absurd h hs

theorem queued_insert {q : NodeQueue} (key : Nat → α) {v : Nat} (hq : q.Consistent)
    (hv : v < q.capacity) (hs : q.stateOf v ≠ .settled) : Queued q v (q.insert key v) := by
  rw [insert_eq_reopen key hs]
  exact queued_reopen key hq hv

/-! #### Order -/

section Preorder

variable {R : α → α → Prop} {q : NodeQueue} {key key₀ : Nat → α} {v : Nat}

/-- Comparing the keys of two nodes that wait once `v` does tells which of them may stand
above the other. -/
def RespectsWith (R : α → α → Prop) (key : Nat → α) (q : NodeQueue) (v : Nat) : Prop :=
  ∀ u w, q.Waits u ∨ u = v → q.Waits w ∨ w = v →
    if Weight.below (key u) (key w) = true then R (key u) (key w) else R (key w) (key u)

theorem orderedBy_push [IsTrans α R] (hq : q.Consistent) (hv : v < q.capacity) (hw : ¬ q.Waits v)
    (hkey : RespectsWith R key q v) (heq : ∀ u, u ≠ v → key u = key₀ u)
    (hord : OrderedBy R key₀ q) : OrderedBy R key (q.push key v) := by
  rw [push]
  refine orderedBy_siftUp (by omega) (by simp) (hq.append hv hw).agrees ?_ ?_
  · intro u w hu hw
    exact hkey u w (waits_append.mp hu) (waits_append.mp hw)
  · intro j hj hjs hlast
    rw [size_put, size_append] at hjs
    have hne : ∀ i, 1 ≤ i → i ≤ q.size → q.nodeAt i ≠ v := by
      rintro i hi his rfl
      exact hw ⟨i, hi, his, rfl⟩
    rw [nodeAt_append (by omega) (by omega), nodeAt_append (by omega) (by omega),
      heq _ (hne _ (by omega) (by omega)), heq _ (hne _ (by omega) (by omega))]
    exact ⟨hord j hj (by omega), fun h => by omega⟩

theorem orderedBy_siftUp_of_lowered [Std.Refl R] [IsTrans α R] {i : Nat} (hq : q.Consistent)
    (hv : q.stateOf v = .queued i) (hkey : RespectsWith R key q v)
    (heq : ∀ u, u ≠ v → key u = key₀ u) (hle : R (key v) (key₀ v)) (hord : OrderedBy R key₀ q) :
    OrderedBy R key (siftUp key v q i) := by
  obtain ⟨hi, his, hnode⟩ := hq.placed v i hv
  have hput := hq.put_self hv
  -- only the key of slot `i` has changed, and it was lowered
  have hother : ∀ j, 1 ≤ j → j ≤ q.size → j ≠ i → key (q.nodeAt j) = key₀ (q.nodeAt j) := by
    intro j hj hjs hji
    refine heq _ fun h => hji (hq.agrees.injective hj hjs hi his ?_)
    rw [h, hnode]
  have hlower : ∀ j, 1 ≤ j → j ≤ q.size → R (key (q.nodeAt j)) (key₀ (q.nodeAt j)) := by
    intro j hj hjs
    by_cases hji : j = i
    · rw [hji, hnode]
      exact hle
    · rw [hother j hj hjs hji]
      exact refl_of R _
  refine orderedBy_siftUp hi his (by rw [hput]; exact hq.agrees) ?_ ?_
  · rw [hput]
    exact fun u w hu hw => hkey u w (Or.inl hu) (Or.inl hw)
  · rw [hput]
    intro j hj hjs hji
    have hpar : R (key (q.nodeAt (j / 2))) (key (q.nodeAt j)) := by
      rw [hother j (by omega) hjs hji]
      exact trans_of R (hlower _ (by omega) (by omega)) (hord j hj hjs)
    refine ⟨hpar, fun hjc h2 => ?_⟩
    rw [hother j (by omega) hjs hji, hother (i / 2) (by omega) (by omega) (by omega)]
    refine trans_of R (hord i h2 his) ?_
    rw [← hjc]
    exact hord j hj hjs

theorem orderedBy_reopen [Std.Refl R] [IsTrans α R] (hq : q.Consistent) (hv : v < q.capacity)
    (hkey : RespectsWith R key q v) (heq : ∀ u, u ≠ v → key u = key₀ u)
    (hle : q.Waits v → R (key v) (key₀ v)) (hord : OrderedBy R key₀ q) :
    OrderedBy R key (q.reopen key v) := by
  have hpush : (∀ i, q.stateOf v ≠ .queued i) → OrderedBy R key (q.push key v) := by
    intro h
    refine orderedBy_push hq hv ?_ hkey heq hord
    rw [hq.waits_iff]
    rintro ⟨i, hi⟩
    exact h i hi
  unfold reopen
  split
  · next i h =>
    exact orderedBy_siftUp_of_lowered hq h hkey heq (hle (hq.waits_iff.mpr ⟨i, h⟩)) hord
  · next h => exact hpush (by rw [h]; exact fun i => NodeState.noConfusion)
  · next h => exact hpush (by rw [h]; exact fun i => NodeState.noConfusion)

end Preorder

section Ordered

variable {q : NodeQueue} {key key₀ : Nat → ℚ} {v : Nat}

/-- The keys of the nodes that wait once `v` does are apart. -/
def ApartWith (key : Nat → ℚ) (q : NodeQueue) (v : Nat) : Prop :=
  ∀ u w, q.Waits u ∨ u = v → q.Waits w ∨ w = v → Weight.Apart (key u) (key w)

theorem ordered_reopen (hq : q.Consistent) (hv : v < q.capacity) (hkey : ApartWith key q v)
    (heq : ∀ u, u ≠ v → key u = key₀ u) (hle : q.Waits v → key v ≤ key₀ v)
    (hord : Ordered key₀ q) : Ordered key (q.reopen key v) := by
  refine orderedBy_reopen hq hv ?_ heq hle hord
  intro u w hu hw
  exact (hkey u w hu hw).ordered

theorem ordered_insert (hq : q.Consistent) (hv : v < q.capacity) (hs : q.stateOf v ≠ .settled)
    (hkey : ApartWith key q v) (heq : ∀ u, u ≠ v → key u = key₀ u)
    (hle : q.Waits v → key v ≤ key₀ v) (hord : Ordered key₀ q) :
    Ordered key (q.insert key v) := by
  rw [insert_eq_reopen key hs]
  exact ordered_reopen hq hv hkey heq hle hord

end Ordered

/-! ### Extracting a node -/

theorem peekMin?_eq_none_iff {q : NodeQueue} : q.peekMin? = none ↔ q.size = 0 := by
  simp [peekMin?]

theorem popMin?_eq_none_iff {q : NodeQueue} {key : Nat → α} :
    q.popMin? key = none ↔ q.size = 0 := by
  simp [popMin?, peekMin?]

/-- The queue with the node of its last slot sifted down from slot 1. -/
def refilled (q : NodeQueue) (key : Nat → α) : NodeQueue :=
  if q.size = 1 then q.shorten else siftDown key (q.nodeAt q.size) q.shorten 1

/-- The queue with `v`, which is in no slot, settled and counted. -/
def settle (q : NodeQueue) (v : Nat) : NodeQueue :=
  { q with
    state := q.state.setIfInBounds v .settled
    usage := { q.usage with pops := q.usage.pops + 1 } }

@[simp] theorem size_shorten {q : NodeQueue} : q.shorten.size = q.size - 1 := rfl

@[simp] theorem capacity_shorten {q : NodeQueue} : q.shorten.capacity = q.capacity := rfl

theorem popMin?_of_pos {q : NodeQueue} (hq : 0 < q.size) (key : Nat → α) :
    q.popMin? key = some (q.nodeAt 1, (q.refilled key).settle (q.nodeAt 1)) := by
  have htop : q.peekMin? = some (q.nodeAt 1) := if_neg (by omega)
  have hfill : (if q.shorten.size = 0 then q.shorten
      else siftDown key (q.nodeAt q.size) q.shorten 1) = q.refilled key := by
    unfold refilled
    by_cases h1 : q.size = 1
    · rw [if_pos h1, if_pos (by rw [size_shorten, h1])]
    · rw [if_neg h1, if_neg (by rw [size_shorten]; omega)]
  rw [popMin?, htop, ← hfill]
  rfl

theorem size_pos_of_popMin? {q r : NodeQueue} {key : Nat → α} {v : Nat}
    (h : q.popMin? key = some (v, r)) : 0 < q.size := by
  rw [Nat.pos_iff_ne_zero]
  intro h0
  rw [popMin?_eq_none_iff.mpr h0] at h
  cases h

section Extract

variable {q : NodeQueue}

theorem nodeAt_shorten (i : Nat) : q.shorten.nodeAt i = q.nodeAt i := rfl

/-- Slot 1 holds the last node, the other slots what they held. -/
theorem nodeAt_filled (hq : 2 ≤ q.size) {i : Nat} (hi : 1 ≤ i) :
    (q.shorten.put 1 (q.nodeAt q.size)).nodeAt i =
      if i = 1 then q.nodeAt q.size else q.nodeAt i := by
  rw [nodeAt_put le_rfl (by simp; omega) hi, nodeAt_shorten]

theorem Consistent.agrees_filled (hq : q.Consistent) (h2 : 2 ≤ q.size) :
    (q.shorten.put 1 (q.nodeAt q.size)).Agrees := by
  intro i hi his
  rw [size_put, size_shorten] at his
  have hlast := hq.agrees.lt_capacity (i := q.size) (by omega) le_rfl
  rw [nodeAt_filled h2 hi]
  by_cases h1 : i = 1
  · rw [if_pos h1, h1]
    exact stateOf_put_self hlast
  · rw [if_neg h1, stateOf_put_of_ne]
    · exact hq.agrees i hi (by omega)
    · intro h
      have := hq.agrees.injective hi (by omega) (by omega) le_rfl h
      omega

/-- What waits once the last node fills slot 1: every node but the extracted one. -/
theorem Consistent.waits_filled (hq : q.Consistent) (h2 : 2 ≤ q.size) (u : Nat) :
    (q.shorten.put 1 (q.nodeAt q.size)).Waits u ↔ q.Waits u ∧ u ≠ q.nodeAt 1 := by
  have hne : ∀ i, 2 ≤ i → i ≤ q.size → q.nodeAt i ≠ q.nodeAt 1 := by
    intro i hi his h
    have := hq.agrees.injective (by omega) his le_rfl (by omega) h
    omega
  constructor
  · rintro ⟨i, hi, his, rfl⟩
    rw [size_put, size_shorten] at his
    rw [nodeAt_filled h2 hi]
    by_cases h1 : i = 1
    · rw [if_pos h1]
      exact ⟨⟨q.size, by omega, le_rfl, rfl⟩, hne _ h2 le_rfl⟩
    · rw [if_neg h1]
      exact ⟨⟨i, hi, by omega, rfl⟩, hne i (by omega) (by omega)⟩
  · rintro ⟨⟨i, hi, his, rfl⟩, hu⟩
    have h1 : i ≠ 1 := by
      rintro rfl
      exact hu rfl
    by_cases hlast : i = q.size
    · refine ⟨1, le_rfl, by simp; omega, ?_⟩
      rw [nodeAt_filled h2 le_rfl, if_pos rfl, hlast]
    · exact ⟨i, hi, by simp; omega, by rw [nodeAt_filled h2 hi, if_neg h1]⟩

/-- The refilled queue holds every node but the extracted one, whose state it leaves
as it was. -/
theorem Consistent.refilled (hq : q.Consistent) (hpos : 0 < q.size) (key : Nat → α) :
    (q.refilled key).Agrees ∧ (q.refilled key).capacity = q.capacity ∧
      (∀ u, (q.refilled key).Waits u ↔ q.Waits u ∧ u ≠ q.nodeAt 1) ∧
      ∀ u, ¬ q.Waits u → (q.refilled key).stateOf u = q.stateOf u := by
  unfold NodeQueue.refilled
  by_cases h1 : q.size = 1
  · rw [if_pos h1]
    have hnone : ∀ u, ¬ q.shorten.Waits u := not_waits_of_size (by simp [h1])
    refine ⟨fun i hi his => by simp [h1] at his; omega, rfl, fun u => ?_, fun u _ => rfl⟩
    refine iff_of_false (hnone u) ?_
    rintro ⟨⟨i, hi, his, rfl⟩, hu⟩
    obtain rfl : i = 1 := by omega
    exact hu rfl
  · rw [if_neg h1]
    have h2 : 2 ≤ q.size := by omega
    have h := rearranged_siftDown key le_rfl (by simp; omega) (hq.agrees_filled h2)
    refine ⟨h.agrees, by rw [h.capacity]; simp,
      fun u => (h.waits u).trans (hq.waits_filled h2 u), fun u hu => ?_⟩
    rw [h.frame u (by rw [hq.waits_filled h2]; exact fun hw => hu hw.1), stateOf_put_of_ne]
    · rfl
    · rintro rfl
      exact hu ⟨q.size, hpos, le_rfl, rfl⟩

theorem stateOf_settle_self {r : NodeQueue} {v : Nat} (hv : v < r.capacity) :
    (r.settle v).stateOf v = .settled :=
  Array.getD_setIfInBounds_self hv _ _

theorem stateOf_settle_of_ne {r : NodeQueue} {u v : Nat} (hne : u ≠ v) :
    (r.settle v).stateOf u = r.stateOf u :=
  Array.getD_setIfInBounds_of_ne hne _ _

theorem extracted_popMin? {r : NodeQueue} {key : Nat → α} {v : Nat} (hq : q.Consistent)
    (h : q.popMin? key = some (v, r)) : Extracted q v r := by
  have hpos := size_pos_of_popMin? h
  rw [popMin?_of_pos hpos, Option.some.injEq, Prod.mk.injEq] at h
  obtain ⟨rfl, rfl⟩ := h
  obtain ⟨hagrees, hcap, hwaits, hframe⟩ := hq.refilled hpos key
  have htop : q.Waits (q.nodeAt 1) := ⟨1, le_rfl, hpos, rfl⟩
  have hlt : q.nodeAt 1 < (q.refilled key).capacity := by
    rw [hcap]
    exact hq.agrees.lt_capacity le_rfl hpos
  have hnode : ∀ i, 1 ≤ i → i ≤ (q.refilled key).size → (q.refilled key).nodeAt i ≠ q.nodeAt 1 :=
    fun i hi his => ((hwaits _).mp ⟨i, hi, his, rfl⟩).2
  refine ⟨htop, ⟨fun i hi his => ?_, fun u i hu => ?_⟩, by rw [← hcap]; simp [settle, capacity],
    hwaits, stateOf_settle_self hlt, fun u hu => ?_⟩
  · exact (stateOf_settle_of_ne (hnode i hi his)).trans (hagrees i hi his)
  · by_cases hut : u = q.nodeAt 1
    · rw [hut, stateOf_settle_self hlt] at hu
      exact NodeState.noConfusion hu
    · rw [stateOf_settle_of_ne hut] at hu
      by_cases hw : (q.refilled key).Waits u
      · obtain ⟨j, hj, hjs, rfl⟩ := hw
        rw [hagrees j hj hjs] at hu
        obtain rfl := NodeState.queued.inj hu
        exact ⟨hj, hjs, rfl⟩
      · -- a node outside the slots is not said to wait
        have hnw : ¬ q.Waits u := fun hq' => hw ((hwaits u).mpr ⟨hq', hut⟩)
        rw [hframe u hnw] at hu
        exact absurd ⟨i, hq.placed u i hu⟩ hnw
  · rw [stateOf_settle_of_ne, hframe u hu]
    rintro rfl
    exact hu htop

end Extract

section PreorderExtract

variable {R : α → α → Prop} {q r : NodeQueue} {key : Nat → α} {v : Nat}

theorem orderedBy_popMin? [Std.Refl R] [IsTrans α R] (hq : q.Consistent)
    (hkey : Respects R key q) (hord : OrderedBy R key q) (h : q.popMin? key = some (v, r)) :
    OrderedBy R key r := by
  have hpos := size_pos_of_popMin? h
  rw [popMin?_of_pos hpos, Option.some.injEq, Prod.mk.injEq] at h
  obtain ⟨rfl, rfl⟩ := h
  have hgoal : OrderedBy R key (q.refilled key) := by
    unfold refilled
    by_cases h1 : q.size = 1
    · rw [if_pos h1]
      exact orderedBy_of_size (by simp [h1])
    · rw [if_neg h1]
      have h2 : 2 ≤ q.size := by omega
      refine orderedBy_siftDown le_rfl (by simp; omega) (hq.agrees_filled h2) ?_ ?_
      · intro u w hu hw
        exact hkey u w ((hq.waits_filled h2 u).mp hu).1 ((hq.waits_filled h2 w).mp hw).1
      · intro j hj hjs
        rw [size_put, size_shorten] at hjs
        refine ⟨fun hj1 => ?_, fun _ h => by omega⟩
        rw [nodeAt_filled h2 (by omega), if_neg hj1,
          nodeAt_filled h2 (by omega), if_neg (by omega)]
        exact hord j hj (by omega)
  exact hgoal

/-- The extracted node may stand above every waiting one. -/
theorem popMin?_before [Std.Refl R] [IsTrans α R] (hord : OrderedBy R key q)
    (h : q.popMin? key = some (v, r)) {u : Nat} (hu : q.Waits u) : R (key v) (key u) := by
  obtain ⟨i, hi, his, rfl⟩ := hu
  rw [popMin?_of_pos (by omega), Option.some.injEq, Prod.mk.injEq] at h
  rw [← h.1]
  exact hord.top hi his

end PreorderExtract

section OrderedExtract

variable {q r : NodeQueue} {key : Nat → ℚ} {v : Nat}

theorem ordered_popMin? (hq : q.Consistent) (hkey : ApartKeys key q) (hord : Ordered key q)
    (h : q.popMin? key = some (v, r)) : Ordered key r :=
  orderedBy_popMin? hq hkey.respects hord h

/-- The extracted node has the smallest key. -/
theorem popMin?_le (hord : Ordered key q) (h : q.popMin? key = some (v, r)) {u : Nat}
    (hu : q.Waits u) : key v ≤ key u :=
  popMin?_before (R := (· ≤ ·)) hord h hu

end OrderedExtract

/-! ### Waiting as a load -/

section Load

variable {q r : NodeQueue} {v : Nat}

/-- Whether a node waits counts for one at most. -/
theorem waiting_load_nonneg (q : NodeQueue) (v : Nat) :
    (0 : ℚ) ≤ if v ∈ q.waiting then 1 else 0 := by
  split <;> norm_num

theorem waiting_load_le (q : NodeQueue) (v : Nat) :
    (if v ∈ q.waiting then (1 : ℚ) else 0) ≤ 1 := by
  split <;> norm_num

theorem waiting_load_congr (h : r.Waits v ↔ q.Waits v) :
    (if v ∈ r.waiting then (1 : ℚ) else 0) = if v ∈ q.waiting then 1 else 0 := by
  refine if_congr ?_ rfl rfl
  rw [mem_waiting, mem_waiting, h]

end Load

/-! ### Counting settled nodes -/

theorem isSettled_iff {q : NodeQueue} {v : Nat} :
    q.isSettled v = true ↔ q.stateOf v = .settled := by
  simp [isSettled]

theorem Consistent.not_waits_of_isSettled {q : NodeQueue} (hq : q.Consistent) {v : Nat}
    (hv : q.isSettled v = true) : ¬ q.Waits v := by
  rw [isSettled_iff] at hv
  rw [hq.waits_iff, hv]
  rintro ⟨i, h⟩
  cases h

/-- Making a node wait that was not settled leaves the settled nodes as they are. -/
theorem Queued.isSettled_eq {q r : NodeQueue} {v : Nat} (h : Queued q v r) (hq : q.Consistent)
    (hv : q.stateOf v ≠ .settled) (u : Nat) : r.isSettled u = q.isSettled u := by
  have hwait : r.Waits u → r.isSettled u = false := fun hw =>
    Bool.eq_false_iff.mpr fun hs => h.consistent.not_waits_of_isSettled hs hw
  by_cases huv : u = v
  · rw [hwait ((h.waits u).mpr (Or.inr huv)), eq_comm, Bool.eq_false_iff, Ne, isSettled_iff, huv]
    exact hv
  · by_cases hw : q.Waits u
    · rw [hwait ((h.waits u).mpr (Or.inl hw)), eq_comm, Bool.eq_false_iff]
      exact fun hs => hq.not_waits_of_isSettled hs hw
    · simp only [isSettled, h.frame u hw huv]

/-- An extraction settles one node. -/
theorem Extracted.isSettled_iff {q r : NodeQueue} {v : Nat} (h : Extracted q v r)
    (hq : q.Consistent) (u : Nat) : r.isSettled u = true ↔ q.isSettled u = true ∨ u = v := by
  by_cases huv : u = v
  · rw [NodeQueue.isSettled_iff, huv]
    exact iff_of_true h.settled (Or.inr rfl)
  · simp only [huv, or_false]
    by_cases hw : q.Waits u
    · refine iff_of_false (fun hs => ?_) (fun hs => hq.not_waits_of_isSettled hs hw)
      exact h.consistent.not_waits_of_isSettled hs ((h.waits u).mpr ⟨hw, huv⟩)
    · simp only [isSettled, h.frame u hw]

/-- Two counts over a list without repetitions whose predicates differ in one place. -/
theorem countP_eq_add_of_single {p q : Nat → Bool} {v : Nat} (hp : p v = true) (hq : q v = false)
    (hne : ∀ u, u ≠ v → p u = q u) {l : List Nat} (hl : l.Nodup) :
    l.countP p = l.countP q + if v ∈ l then 1 else 0 := by
  induction l with
  | nil => rfl
  | cons u l ih =>
    obtain ⟨hu, hl⟩ := List.nodup_cons.mp hl
    rw [List.countP_cons, List.countP_cons, ih hl]
    by_cases huv : u = v
    · rw [huv] at hu ⊢
      simp [hp, hq, hu]
    · have : v ∈ u :: l ↔ v ∈ l := by simp [Ne.symm huv]
      simp only [hne u huv, this]
      omega

/-- The number of settled nodes below `n`. -/
def settledCount (q : NodeQueue) (n : Nat) : Nat := (List.range n).countP q.isSettled

theorem settledCount_le (q : NodeQueue) (n : Nat) : q.settledCount n ≤ n := by
  have := List.countP_le_length (p := q.isSettled) (l := List.range n)
  rwa [List.length_range] at this

/-- While some node is not settled the count is not full. -/
theorem settledCount_lt {q : NodeQueue} {v n : Nat} (hv : v < n) (hopen : q.isSettled v = false) :
    q.settledCount n < n := by
  refine lt_of_le_of_ne (settledCount_le q n) fun hfull => ?_
  have hall : (List.range n).countP q.isSettled = (List.range n).length := by
    rw [List.length_range]
    exact hfull
  have hsettled := List.countP_eq_length.mp hall v (List.mem_range.mpr hv)
  rw [hopen] at hsettled
  cases hsettled

/-- The count depends on which nodes are settled and on nothing else. -/
theorem settledCount_congr {q r : NodeQueue} (h : ∀ u, r.isSettled u = q.isSettled u) (n : Nat) :
    r.settledCount n = q.settledCount n := by
  unfold settledCount
  rw [funext h]

theorem Queued.settledCount_eq {q r : NodeQueue} {v : Nat} (h : Queued q v r) (hq : q.Consistent)
    (hv : q.stateOf v ≠ .settled) (n : Nat) : r.settledCount n = q.settledCount n :=
  settledCount_congr (h.isSettled_eq hq hv) n

theorem Extracted.settledCount_eq {q r : NodeQueue} {v n : Nat} (h : Extracted q v r)
    (hq : q.Consistent) (hv : v < n) : r.settledCount n = q.settledCount n + 1 := by
  have hnot : q.isSettled v = false :=
    Bool.eq_false_iff.mpr fun hs => hq.not_waits_of_isSettled hs h.waited
  have hset : r.isSettled v = true :=
    NodeQueue.isSettled_iff.mpr h.settled
  have hne : ∀ u, u ≠ v → r.isSettled u = q.isSettled u := by
    intro u hu
    rw [Bool.eq_iff_iff, h.isSettled_iff hq]
    simp [hu]
  unfold settledCount
  rw [countP_eq_add_of_single hset hnot hne List.nodup_range, if_pos (List.mem_range.mpr hv)]

/-! ### Forgetting a node that does not wait -/

section SetState

variable {q : NodeQueue} {u v : Nat} {s : NodeState}

@[simp] theorem capacity_setState : (q.setState v s).capacity = q.capacity := by
  simp [setState, capacity]

theorem waits_setState : (q.setState v s).Waits u ↔ q.Waits u := Iff.rfl

theorem stateOf_setState_of_ne (h : u ≠ v) : (q.setState v s).stateOf u = q.stateOf u :=
  Array.getD_setIfInBounds_of_ne h _ _

theorem stateOf_setState_self (hv : v < q.capacity) : (q.setState v s).stateOf v = s :=
  Array.getD_setIfInBounds_self hv _ _

/-- A node that the queue is not for has no state that could be set. -/
theorem stateOf_setState_of_le (hv : q.capacity ≤ v) : (q.setState v s).stateOf v = .unknown :=
  Array.getD_of_size_le (capacity_setState.trans_le hv) _

theorem stateOf_setState_unknown : (q.setState v .unknown).stateOf v = .unknown :=
  (Array.getD_setIfInBounds_default ..).trans (if_pos rfl)

theorem Consistent.setState (hq : q.Consistent) (hv : ¬ q.Waits v) (hs : ∀ i, s ≠ .queued i) :
    (q.setState v s).Consistent where
  agrees i hi his := by
    have hne : q.nodeAt i ≠ v := fun h => hv ⟨i, hi, his, h⟩
    exact (stateOf_setState_of_ne hne).trans (hq.agrees i hi his)
  placed u i hu := by
    by_cases huv : u = v
    · rw [huv] at hu
      by_cases hlt : v < q.capacity
      · exact absurd ((stateOf_setState_self hlt).symm.trans hu) (hs i)
      · rw [stateOf_setState_of_le (Nat.le_of_not_lt hlt)] at hu
        cases hu
    · rw [stateOf_setState_of_ne huv] at hu
      exact hq.placed u i hu

theorem Consistent.setState_unknown (hq : q.Consistent) (hv : ¬ q.Waits v) :
    (q.setState v .unknown).Consistent := hq.setState hv fun _ => NodeState.noConfusion

end SetState

/-! ### Emptying a queue -/

section Clear

variable {q : NodeQueue} {v : Nat}

@[simp] theorem size_clear : q.clear.size = 0 := rfl

@[simp] theorem capacity_clear : q.clear.capacity = q.capacity :=
  Array.size_foldl_setIfInBounds ..

/-- The waiting nodes become unknown, the others keep their states. -/
theorem stateOf_clear_of_waits (hv : q.Waits v) : q.clear.stateOf v = .unknown :=
  (Array.getD_foldl_setIfInBounds ..).trans (if_pos (mem_waiting.mpr hv))

theorem stateOf_clear_of_not_waits (hv : ¬ q.Waits v) : q.clear.stateOf v = q.stateOf v :=
  (Array.getD_foldl_setIfInBounds ..).trans (if_neg (mt mem_waiting.mp hv))

theorem Consistent.clear (hq : q.Consistent) : q.clear.Consistent := by
  refine consistent_of_size size_clear fun v => ?_
  by_cases hv : q.Waits v
  · exact Or.inl (stateOf_clear_of_waits hv)
  · rw [stateOf_clear_of_not_waits hv]
    cases h : q.stateOf v with
    | unknown => exact Or.inl rfl
    | queued i => exact absurd (hq.waits_iff.mpr ⟨i, h⟩) hv
    | settled => exact Or.inr rfl

end Clear

end NodeQueue

end SteinerSearch
