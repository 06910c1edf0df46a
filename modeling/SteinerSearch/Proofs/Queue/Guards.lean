import SteinerSearch.Proofs.Queue.Keyed

/-!
# Slots that the operations of a queue look at

Here the operations of both kinds of queue are written once more, with a check before every
slot that is read or written: the slot must be one of those in use at that moment.  In a
consistent queue no check fails, whatever the keys are, and the outcome is that of the
operation without checks.  The checks stand where the operation looks at the slot, so a slot
that is appended is in use before it is written, and the last one is read before it is given
up.  Where a sift starts, the node that it moves is read off its slot.

## Main definitions

* `checkSlot count i` — slot `i` is one of `count` slots in use.
* `NodeQueue.Guarded.insert`, `NodeQueue.Guarded.reopen`, `NodeQueue.Guarded.peekMin?`,
  `NodeQueue.Guarded.popMin?`, `NodeQueue.Guarded.clear` — the operations with checks.
* `KeyedQueue.Guarded.insert`, `KeyedQueue.Guarded.popMin?`, `KeyedQueue.Guarded.empty` —
  those of a queue with its own keys.

## Main results

* `NodeQueue.Guarded.insert_eq`, `NodeQueue.Guarded.popMin?_eq`, `KeyedQueue.Guarded.insert_eq`
  and their like — no check fails.
-/

namespace SteinerSearch

/-! ### Checks -/

/-- Passes if slot `i` is one of the `count` slots in use. -/
def checkSlot (count i : Nat) : Option Unit := if 1 ≤ i ∧ i ≤ count then some () else none

/-- Passes if the slots may be looked at in which the two children of slot `i` are compared.
There is nothing to compare unless there is a right child. -/
def checkChildren (count i : Nat) : Option Unit :=
  if 2 * i < count then do
    checkSlot count (2 * i + 1)
    checkSlot count (2 * i)
  else return ()

theorem checkSlot_of_le {count i : Nat} (hi : 1 ≤ i) (his : i ≤ count) :
    checkSlot count i = some () := if_pos ⟨hi, his⟩

theorem checkChildren_of_pos {count i : Nat} (hi : 1 ≤ i) : checkChildren count i = some () := by
  unfold checkChildren
  split
  · rw [checkSlot_of_le (by omega) (by omega), checkSlot_of_le (by omega) (by omega)]
    rfl
  · rfl

/-- All slots in use pass. -/
theorem forM_checkSlot (count : Nat) :
    (List.range' 1 count).forM (checkSlot count) = some () := by
  have hall : ∀ is : List Nat, (∀ i ∈ is, 1 ≤ i ∧ i ≤ count) →
      is.forM (checkSlot count) = some () := by
    intro is
    induction is with
    | nil => exact fun _ => rfl
    | cons i is ih =>
      intro his
      obtain ⟨hi, hle⟩ := his i List.mem_cons_self
      rw [List.forM, checkSlot_of_le hi hle]
      exact ih fun j hj => his j (List.mem_cons_of_mem i hj)
  refine hall _ fun i hi => ?_
  rw [List.mem_range'_1] at hi
  omega

namespace NodeQueue

variable {α : Type} [Weight α] {q : NodeQueue} {i v : Nat}

namespace Guarded

/-! ### Sifting -/

/-- `NodeQueue.siftUp` with checks. -/
def siftUp (key : Nat → α) (v : Nat) (q : NodeQueue) (i : Nat) : Option NodeQueue :=
  if 1 < i then do
    checkSlot q.size (i / 2)
    let p := q.nodeAt (i / 2)
    checkSlot q.size i
    if Weight.below (key v) (key p) then siftUp key v (q.put i p) (i / 2) else return q.put i v
  else do
    checkSlot q.size i
    return q.put i v
termination_by i

/-- `NodeQueue.siftDown` with checks. -/
def siftDown (key : Nat → α) (v : Nat) (q : NodeQueue) (i : Nat) : Option NodeQueue :=
  if 0 < i ∧ 2 * i ≤ q.size then do
    checkChildren q.size i
    let c := q.lesserChild key i
    checkSlot q.size c
    checkSlot q.size i
    if Weight.below (key (q.nodeAt c)) (key v) then siftDown key v (q.put i (q.nodeAt c)) c
    else return q.put i v
  else do
    checkSlot q.size i
    return q.put i v
termination_by q.size + 1 - i
decreasing_by
  simp only [size_put, lesserChild]
  split <;> simp_all <;> omega

theorem siftUp_eq (key : Nat → α) (hi : 1 ≤ i) (his : i ≤ q.size) :
    siftUp key v q i = some (NodeQueue.siftUp key v q i) := by
  induction i using Nat.strongRecOn generalizing q with
  | ind i ih =>
    rw [siftUp, NodeQueue.siftUp, checkSlot_of_le hi his]
    split
    · next hlt =>
      rw [checkSlot_of_le (by omega) (by omega)]
      simp only [Option.bind_eq_bind, Option.bind_some]
      split
      · exact ih (i / 2) (by omega) (by omega) (by rw [size_put]; omega)
      · rfl
    · rfl

theorem siftDown_eq (key : Nat → α) (hi : 1 ≤ i) (his : i ≤ q.size) :
    siftDown key v q i = some (NodeQueue.siftDown key v q i) := by
  -- a hole sinks, so there are fewer slots below it
  induction hn : q.size - i using Nat.strongRecOn generalizing q i with
  | ind n ih =>
    subst hn
    rw [siftDown, NodeQueue.siftDown, checkSlot_of_le hi his, checkChildren_of_pos hi]
    split
    · next hlt =>
      have hc := lesserChild_cases key q i
      have hcs : q.lesserChild key i ≤ q.size := by omega
      have hchild := checkSlot_of_le (by omega) hcs
      simp only [hchild, Option.bind_eq_bind, Option.bind_some]
      split
      · exact ih _ (by rw [size_put]; omega) (by omega) (by rw [size_put]; exact hcs) rfl
      · rfl
    · rfl

/-! ### Operations -/

/-- Sifts the node in slot `i` towards the root. -/
def raise (key : Nat → α) (q : NodeQueue) (i : Nat) : Option NodeQueue := do
  checkSlot q.size i
  siftUp key (q.nodeAt i) q i

/-- `NodeQueue.push` with checks. -/
def push (key : Nat → α) (v : Nat) (q : NodeQueue) : Option NodeQueue := do
  -- the slot that is written comes into use first
  checkSlot (q.append v).size (q.append v).size
  raise key (q.append v) (q.append v).size

/-- `NodeQueue.reopen` with checks. -/
def reopen (key : Nat → α) (v : Nat) (q : NodeQueue) : Option NodeQueue :=
  match q.stateOf v with
  | .queued i => raise key q i
  | .unknown | .settled => push key v q

/-- `NodeQueue.insert` with checks. -/
def insert (key : Nat → α) (v : Nat) (q : NodeQueue) : Option NodeQueue :=
  match q.stateOf v with
  | .unknown => push key v q
  | .queued i => raise key q i
  | .settled => some q

/-- `NodeQueue.peekMin?` with checks. -/
def peekMin? (q : NodeQueue) : Option (Option Nat) :=
  if q.size = 0 then some none else do
    checkSlot q.size 1
    return some (q.nodeAt 1)

/-- `NodeQueue.popMin?` with checks. -/
def popMin? (key : Nat → α) (q : NodeQueue) : Option (Option (Nat × NodeQueue)) :=
  if q.size = 0 then some none else do
    checkSlot q.size 1
    checkSlot q.size q.size
    -- the last slot is given up; if it was not the only one, its node goes into slot 1
    let rest ← if q.size = 1 then some q.shorten else do
      checkSlot q.shorten.size 1
      siftDown key (q.nodeAt q.size) q.shorten 1
    return some (q.nodeAt 1, rest.settle (q.nodeAt 1))

/-- `NodeQueue.clear` with checks. -/
def clear (q : NodeQueue) : Option NodeQueue := do
  (List.range' 1 q.size).forM (checkSlot q.size)
  return q.clear

theorem raise_eq (key : Nat → α) (hi : 1 ≤ i) (his : i ≤ q.size) :
    raise key q i = some (NodeQueue.siftUp key (q.nodeAt i) q i) := by
  rw [raise, checkSlot_of_le hi his]
  exact siftUp_eq key hi his

theorem push_eq (key : Nat → α) (v : Nat) (q : NodeQueue) :
    push key v q = some (q.push key v) := by
  have hnode : (q.append v).nodeAt (q.size + 1) = v := Buffer.getD_write_self q.count_le v 0
  rw [push, size_append, checkSlot_of_le (by omega) le_rfl, NodeQueue.push]
  have hraise := raise_eq (q := q.append v) (i := q.size + 1) key (by omega) le_rfl
  rwa [hnode] at hraise

theorem reopen_eq (hq : q.Consistent) (key : Nat → α) (v : Nat) :
    reopen key v q = some (q.reopen key v) := by
  unfold reopen NodeQueue.reopen
  cases hv : q.stateOf v with
  | queued i =>
    obtain ⟨hi, his, rfl⟩ := hq.placed v i hv
    exact raise_eq key hi his
  | unknown => exact push_eq key v q
  | settled => exact push_eq key v q

theorem insert_eq (hq : q.Consistent) (key : Nat → α) (v : Nat) :
    insert key v q = some (q.insert key v) := by
  unfold insert NodeQueue.insert
  cases hv : q.stateOf v with
  | queued i =>
    obtain ⟨hi, his, rfl⟩ := hq.placed v i hv
    exact raise_eq key hi his
  | unknown => exact push_eq key v q
  | settled => rfl

theorem peekMin?_eq (q : NodeQueue) : peekMin? q = some q.peekMin? := by
  unfold peekMin? NodeQueue.peekMin?
  split
  · rfl
  · rw [checkSlot_of_le le_rfl (by omega)]
    rfl

theorem popMin?_eq (key : Nat → α) (q : NodeQueue) : popMin? key q = some (q.popMin? key) := by
  by_cases h0 : q.size = 0
  · rw [popMin?_eq_none_iff.mpr h0, popMin?, if_pos h0]
  · rw [popMin?_of_pos (by omega), popMin?, if_neg h0, checkSlot_of_le le_rfl (by omega),
      checkSlot_of_le (by omega) le_rfl, refilled]
    by_cases h1 : q.size = 1
    · rw [if_pos h1, if_pos h1]
      rfl
    · have hroom : 1 ≤ q.shorten.size := by
        rw [size_shorten]
        omega
      rw [if_neg h1, if_neg h1, checkSlot_of_le le_rfl hroom, siftDown_eq key le_rfl hroom]
      rfl

theorem clear_eq (q : NodeQueue) : clear q = some q.clear := by
  rw [clear, forM_checkSlot]
  rfl

end Guarded

end NodeQueue

namespace KeyedQueue

variable {α : Type} [Weight α] {q : KeyedQueue α} {e : KeyedNode α} {i : Nat}

theorem lesserChild_cases (q : KeyedQueue α) (i : Nat) :
    q.lesserChild i = 2 * i ∨ q.lesserChild i = 2 * i + 1 ∧ 2 * i < q.size := by
  unfold lesserChild
  split
  · next h =>
    simp only [Bool.and_eq_true, decide_eq_true_eq] at h
    exact Or.inr ⟨rfl, h.1⟩
  · exact Or.inl rfl

namespace Guarded

/-! ### Sifting entries -/

/-- `KeyedQueue.siftUp` with checks. -/
def siftUp (e : KeyedNode α) (q : KeyedQueue α) (i : Nat) : Option (KeyedQueue α) :=
  if 1 < i then do
    checkSlot q.size (i / 2)
    let above := q.entryAt (i / 2)
    checkSlot q.size i
    if Weight.below e.key above.key then siftUp e (q.put i above) (i / 2) else return q.put i e
  else do
    checkSlot q.size i
    return q.put i e
termination_by i

/-- `KeyedQueue.siftDown` with checks. -/
def siftDown (e : KeyedNode α) (q : KeyedQueue α) (i : Nat) : Option (KeyedQueue α) :=
  if 0 < i ∧ 2 * i ≤ q.size then do
    checkChildren q.size i
    let child := q.lesserChild i
    checkSlot q.size child
    checkSlot q.size i
    if Weight.below (q.entryAt child).key e.key then siftDown e (q.put i (q.entryAt child)) child
    else return q.put i e
  else do
    checkSlot q.size i
    return q.put i e
termination_by q.size + 1 - i
decreasing_by
  simp only [size_put, lesserChild]
  split <;> simp_all <;> omega

theorem siftUp_eq (hi : 1 ≤ i) (his : i ≤ q.size) :
    siftUp e q i = some (KeyedQueue.siftUp e q i) := by
  induction i using Nat.strongRecOn generalizing q with
  | ind i ih =>
    rw [siftUp, KeyedQueue.siftUp, checkSlot_of_le hi his]
    split
    · next hlt =>
      rw [checkSlot_of_le (by omega) (by omega)]
      simp only [Option.bind_eq_bind, Option.bind_some]
      split
      · exact ih (i / 2) (by omega) (by omega) (by rw [size_put]; omega)
      · rfl
    · rfl

theorem siftDown_eq (hi : 1 ≤ i) (his : i ≤ q.size) :
    siftDown e q i = some (KeyedQueue.siftDown e q i) := by
  induction hn : q.size - i using Nat.strongRecOn generalizing q i with
  | ind n ih =>
    subst hn
    rw [siftDown, KeyedQueue.siftDown, checkSlot_of_le hi his, checkChildren_of_pos hi]
    split
    · next hlt =>
      have hc := lesserChild_cases q i
      have hcs : q.lesserChild i ≤ q.size := by omega
      have hchild := checkSlot_of_le (by omega) hcs
      simp only [hchild, Option.bind_eq_bind, Option.bind_some]
      split
      · exact ih _ (by rw [size_put]; omega) (by omega) (by rw [size_put]; exact hcs) rfl
      · rfl
    · rfl

/-! ### Operations on entries -/

/-- `KeyedQueue.insert` with checks. -/
def insert (v : Nat) (x : α) (q : KeyedQueue α) : Option (KeyedQueue α) :=
  match q.placeOf v with
  | .slot i => do
      checkSlot q.size i
      if Weight.below x (q.entryAt i).key then siftUp ⟨x, (q.entryAt i).node⟩ q i else return q
  | .unknown | .removed => do
      checkSlot (q.append ⟨x, v⟩).size (q.append ⟨x, v⟩).size
      siftUp ⟨x, v⟩ (q.append ⟨x, v⟩) (q.append ⟨x, v⟩).size

/-- `KeyedQueue.popMin?` with checks. -/
def popMin? (q : KeyedQueue α) : Option (Option (KeyedNode α × KeyedQueue α)) :=
  if q.size = 0 then some none else do
    checkSlot q.size 1
    checkSlot q.size q.size
    -- the last slot is given up; if it was not the only one, its entry goes into slot 1
    let rest ← if q.size = 1 then some q.shorten else do
      checkSlot q.shorten.size 1
      siftDown (q.entryAt q.size) q.shorten 1
    return some (q.entryAt 1, rest.remove (q.entryAt 1).node)

/-- `KeyedQueue.empty` with checks. -/
def empty (q : KeyedQueue α) : Option (KeyedQueue α) := do
  (List.range' 1 q.size).forM (checkSlot q.size)
  return q.empty

theorem insert_eq (hq : q.bare.Consistent) (v : Nat) (x : α) :
    insert v x q = some (q.insert v x) := by
  have happend : (q.append ⟨x, v⟩).size = q.size + 1 := rfl
  have hnew : (do
      checkSlot (q.append ⟨x, v⟩).size (q.append ⟨x, v⟩).size
      siftUp ⟨x, v⟩ (q.append ⟨x, v⟩) (q.append ⟨x, v⟩).size) =
        some (KeyedQueue.siftUp ⟨x, v⟩ (q.append ⟨x, v⟩) (q.size + 1)) := by
    rw [happend, checkSlot_of_le (by omega) le_rfl, siftUp_eq (by omega) (by rw [happend])]
    rfl
  unfold insert KeyedQueue.insert
  cases hv : q.placeOf v with
  | slot i =>
    obtain ⟨hi, his, hnode⟩ := hq.placed v i (placeOf_eq_slot_iff.mp hv)
    rw [nodeAt_bare] at hnode
    rw [size_bare] at his
    dsimp only
    rw [checkSlot_of_le hi his, hnode, siftUp_eq hi his]
    simp only [Option.bind_eq_bind, Option.bind_some]
    split <;> rfl
  | unknown => exact hnew
  | removed => exact hnew

theorem popMin?_eq (q : KeyedQueue α) : popMin? q = some q.popMin? := by
  by_cases h0 : q.size = 0
  · rw [popMin?_eq_none_iff.mpr h0, popMin?, if_pos h0]
  · rw [popMin?_of_pos (by omega), popMin?, if_neg h0, checkSlot_of_le le_rfl (by omega),
      checkSlot_of_le (by omega) le_rfl, refilled]
    by_cases h1 : q.size = 1
    · rw [if_pos h1, if_pos h1]
      rfl
    · have hroom : 1 ≤ q.shorten.size := by
        rw [size_shorten]
        omega
      rw [if_neg h1, if_neg h1, checkSlot_of_le le_rfl hroom, siftDown_eq le_rfl hroom]
      rfl

theorem empty_eq (q : KeyedQueue α) : empty q = some q.empty := by
  rw [empty, forM_checkSlot]
  rfl

end Guarded

end KeyedQueue

end SteinerSearch
