import Mathlib.Data.Finset.Card
import Mathlib.Data.Finset.Range
import SteinerSearch.Proofs.Queue.Guards

/-!
# Which nodes wait

The keys may be anything here: they may change between two operations without notice, they may
be equal, and comparing them need not make sense.  The order of a queue is lost then, but not
its bookkeeping.  The nodes in the slots are those that were made to wait and neither extracted
nor cleared since, each in one slot that it knows, and no operation looks at a slot that is not
in use.

## Main definitions

* `NodeQueue.Handled α n q S`, `KeyedQueue.Handled n q S` — `q` is a queue for `n` nodes after
  some operations, each with keys of its own, and the nodes of `S` should wait.
* `NodeQueue.Members n q S` — the invariant: the nodes of `S` wait.
* `NodeQueue.Tidy α n q S`, `KeyedQueue.Tidy n q S` — what the slots and the states say, and
  what the next operation does.

## Main results

* `NodeQueue.Members.queued`, `NodeQueue.Members.extracted` and their like — every operation
  keeps the invariant.
* `tidy_of_handled` — queues of both kinds are tidy after every operation.
-/

namespace SteinerSearch

namespace NodeQueue

/-- `q` is a queue for `n` nodes after some operations, each of which was given any keys.  The
nodes of `S` were made to wait and neither extracted nor cleared since. -/
inductive Handled (α : Type) [Weight α] (n : Nat) : NodeQueue → Finset Nat → Prop
  /-- The queue is new. -/
  | new : Handled α n (empty n) ∅
  /-- A node that was not extracted is inserted. -/
  | insert {q : NodeQueue} {S : Finset Nat} {v : Nat} (key : Nat → α) :
      Handled α n q S → v < n → q.isSettled v = false →
      Handled α n (q.insert key v) (Insert.insert v S)
  /-- Any node is opened again. -/
  | reopen {q : NodeQueue} {S : Finset Nat} {v : Nat} (key : Nat → α) :
      Handled α n q S → v < n → Handled α n (q.reopen key v) (Insert.insert v S)
  /-- A node is extracted. -/
  | popMin {q r : NodeQueue} {S : Finset Nat} {v : Nat} {key : Nat → α} :
      Handled α n q S → q.popMin? key = some (v, r) → Handled α n r (S.erase v)
  /-- The queue is cleared. -/
  | clear {q : NodeQueue} {S : Finset Nat} : Handled α n q S → Handled α n q.clear ∅
  /-- A node that does not wait gets another state. -/
  | setState {q : NodeQueue} {S : Finset Nat} {v : Nat} {s : NodeState} :
      Handled α n q S → (∀ i, q.stateOf v ≠ .queued i) → (∀ i, s ≠ .queued i) →
      Handled α n (q.setState v s) S

/-- `q` is a queue for `n` nodes in which those of `S` wait, and each operation on it looks at
slots in use only. -/
structure Tidy (α : Type) [Weight α] (n : Nat) (q : NodeQueue) (S : Finset Nat) : Prop where
  /-- The queue is for `n` nodes. -/
  capacity : q.capacity = n
  /-- No node is in two slots. -/
  nodup : q.waiting.Nodup
  /-- A node's state names a slot if and only if the node is in it. -/
  queued : ∀ v i, q.stateOf v = .queued i ↔ 1 ≤ i ∧ i ≤ q.size ∧ q.nodeAt i = v
  /-- There is room for the nodes that wait. -/
  size_le : q.size ≤ n
  /-- The nodes in the slots are those of `S`. -/
  waiting : ∀ v, v ∈ q.waiting ↔ v ∈ S
  /-- One of them is extracted. -/
  extracts : ∀ (key : Nat → α) v r, q.popMin? key = some (v, r) → v ∈ S
  /-- Nothing is extracted only if nothing waits. -/
  exhausted : ∀ key : Nat → α, q.popMin? key = none ↔ S = ∅
  /-- An insertion looks at slots in use. -/
  insert_slots : ∀ (key : Nat → α) v, Guarded.insert key v q = some (q.insert key v)
  /-- So does opening a node again. -/
  reopen_slots : ∀ (key : Nat → α) v, Guarded.reopen key v q = some (q.reopen key v)
  /-- So does a look at the next node. -/
  peek_slots : Guarded.peekMin? q = some q.peekMin?
  /-- So does an extraction. -/
  pop_slots : ∀ key : Nat → α, Guarded.popMin? key q = some (q.popMin? key)
  /-- So does clearing the queue. -/
  clear_slots : Guarded.clear q = some q.clear

/-- What every operation on a queue keeps, whatever the keys are. -/
structure Members (n : Nat) (q : NodeQueue) (S : Finset Nat) : Prop where
  /-- Slots and states agree. -/
  consistent : q.Consistent
  /-- The queue is for `n` nodes. -/
  capacity : q.capacity = n
  /-- The nodes of `S` wait. -/
  waits : ∀ v, q.Waits v ↔ v ∈ S

variable {n : Nat} {q r : NodeQueue} {S : Finset Nat} {v : Nat}

/-! ### One operation -/

theorem members_of_size (hsize : q.size = 0) (hcap : q.capacity = n) (hq : q.Consistent) :
    Members n q ∅ where
  consistent := hq
  capacity := hcap
  waits v := iff_of_false (not_waits_of_size hsize v) (Finset.notMem_empty v)

theorem members_empty (n : Nat) : Members n (empty n) ∅ :=
  members_of_size rfl (capacity_empty n)
    (consistent_of_size rfl fun v => Or.inl (stateOf_empty n v))

theorem Members.queued (h : Members n q S) (hr : Queued q v r) :
    Members n r (Insert.insert v S) where
  consistent := hr.consistent
  capacity := hr.capacity.trans h.capacity
  waits u := by rw [hr.waits, h.waits, Finset.mem_insert, or_comm]

theorem Members.extracted (h : Members n q S) (hr : Extracted q v r) :
    Members n r (S.erase v) where
  consistent := hr.consistent
  capacity := hr.capacity.trans h.capacity
  waits u := by rw [hr.waits, h.waits, Finset.mem_erase, and_comm]

theorem Members.clear (h : Members n q S) : Members n q.clear ∅ :=
  members_of_size rfl (capacity_clear.trans h.capacity) h.consistent.clear

theorem Members.setState {s : NodeState} (h : Members n q S) (hv : ∀ i, q.stateOf v ≠ .queued i)
    (hs : ∀ i, s ≠ .queued i) : Members n (q.setState v s) S where
  consistent := h.consistent.setState
    (fun hw => (h.consistent.waits_iff.mp hw).elim fun i hi => hv i hi) hs
  capacity := capacity_setState.trans h.capacity
  waits := h.waits

/-- Every operation keeps the invariant. -/
theorem Handled.members {α : Type} [Weight α] (h : Handled α n q S) : Members n q S := by
  induction h with
  | new => exact members_empty n
  | insert key _ hv hs ih =>
    refine ih.queued (queued_insert key ih.consistent (by rwa [ih.capacity]) ?_)
    rw [Ne, ← isSettled_iff, hs]
    exact Bool.false_ne_true
  | reopen key _ hv ih =>
    exact ih.queued (queued_reopen key ih.consistent (by rwa [ih.capacity]))
  | popMin _ hpop ih => exact ih.extracted (extracted_popMin? ih.consistent hpop)
  | clear _ ih => exact ih.clear
  | setState _ hv hs ih => exact ih.setState hv hs

/-! ### What the invariant says about a queue -/

theorem Consistent.stateOf_eq_queued_iff (hq : q.Consistent) {i : Nat} :
    q.stateOf v = .queued i ↔ 1 ≤ i ∧ i ≤ q.size ∧ q.nodeAt i = v := by
  constructor
  · exact hq.placed v i
  · rintro ⟨hi, his, rfl⟩
    exact hq.agrees i hi his

theorem Members.mem_waiting_iff (h : Members n q S) : v ∈ q.waiting ↔ v ∈ S :=
  mem_waiting.trans (h.waits v)

theorem Members.lt (h : Members n q S) (hv : v ∈ S) : v < n := by
  obtain ⟨i, hi, his, rfl⟩ := (h.waits v).mpr hv
  rw [← h.capacity]
  exact h.consistent.agrees.lt_capacity hi his

/-- There are as many slots in use as nodes that wait. -/
theorem Members.size_eq_card (h : Members n q S) : q.size = S.card := by
  have hset : q.waiting.toFinset = S := by
    ext v
    rw [List.mem_toFinset, h.mem_waiting_iff]
  rw [← hset, List.toFinset_card_of_nodup h.consistent.agrees.nodup_waiting, waiting,
    List.length_map, List.length_range']

theorem Members.size_le (h : Members n q S) : q.size ≤ n := by
  have hsub : S ⊆ Finset.range n := fun v hv => Finset.mem_range.mpr (h.lt hv)
  rw [h.size_eq_card, ← Finset.card_range n]
  exact Finset.card_le_card hsub

theorem Members.size_eq_zero_iff (h : Members n q S) : q.size = 0 ↔ S = ∅ := by
  rw [h.size_eq_card, Finset.card_eq_zero]

theorem Members.tidy {α : Type} [Weight α] (h : Members n q S) : Tidy α n q S where
  capacity := h.capacity
  nodup := h.consistent.agrees.nodup_waiting
  queued _ _ := h.consistent.stateOf_eq_queued_iff
  size_le := h.size_le
  waiting _ := h.mem_waiting_iff
  extracts _ v _ hpop := (h.waits v).mp (extracted_popMin? h.consistent hpop).waited
  exhausted _ := popMin?_eq_none_iff.trans h.size_eq_zero_iff
  insert_slots := Guarded.insert_eq h.consistent
  reopen_slots := Guarded.reopen_eq h.consistent
  peek_slots := Guarded.peekMin?_eq q
  pop_slots key := Guarded.popMin?_eq key q
  clear_slots := Guarded.clear_eq q

end NodeQueue

namespace KeyedQueue

variable {α : Type} [Weight α]

/-- `q` is a queue for `n` nodes after some operations.  The nodes of `S` were inserted, with
any keys, and neither extracted nor cleared since. -/
inductive Handled (n : Nat) : KeyedQueue α → Finset Nat → Prop
  /-- The queue is new. -/
  | new : Handled n (ofCapacity n) ∅
  /-- A node is inserted, or inserted again with another key. -/
  | insert {q : KeyedQueue α} {S : Finset Nat} {v : Nat} (x : α) :
      Handled n q S → v < n → Handled n (q.insert v x) (Insert.insert v S)
  /-- An entry is extracted. -/
  | popMin {q r : KeyedQueue α} {S : Finset Nat} {top : KeyedNode α} :
      Handled n q S → q.popMin? = some (top, r) → Handled n r (S.erase top.node)
  /-- The queue is emptied. -/
  | empty {q : KeyedQueue α} {S : Finset Nat} : Handled n q S → Handled n q.empty ∅
  /-- The queue is emptied and forgets what was extracted. -/
  | clear {q : KeyedQueue α} {S : Finset Nat} : Handled n q S → Handled n q.clear ∅
  /-- A node that does not wait is forgotten. -/
  | forget {q : KeyedQueue α} {S : Finset Nat} {v : Nat} :
      Handled n q S → (∀ i, q.placeOf v ≠ .slot i) → Handled n (q.forget v) S

/-- `q` is a queue for `n` nodes in which those of `S` wait, and each operation on it looks at
slots in use only. -/
structure Tidy (n : Nat) (q : KeyedQueue α) (S : Finset Nat) : Prop where
  /-- The queue is for `n` nodes. -/
  capacity : q.capacity = n
  /-- No node is in two slots. -/
  nodup : q.waiting.Nodup
  /-- A node's place is a slot if and only if the node is in it. -/
  placed : ∀ v i, q.placeOf v = .slot i ↔ 1 ≤ i ∧ i ≤ q.size ∧ (q.entryAt i).node = v
  /-- There is room for the nodes that wait. -/
  size_le : q.size ≤ n
  /-- The nodes in the slots are those of `S`. -/
  waiting : ∀ v, v ∈ q.waiting ↔ v ∈ S
  /-- One of them is extracted. -/
  extracts : ∀ top r, q.popMin? = some (top, r) → top.node ∈ S
  /-- Nothing is extracted only if nothing waits. -/
  exhausted : q.popMin? = none ↔ S = ∅
  /-- An insertion looks at slots in use. -/
  insert_slots : ∀ v x, Guarded.insert v x q = some (q.insert v x)
  /-- So does an extraction. -/
  pop_slots : Guarded.popMin? q = some q.popMin?
  /-- So does emptying the queue. -/
  empty_slots : Guarded.empty q = some q.empty

variable {n : Nat} {q : KeyedQueue α} {S : Finset Nat} {v : Nat}

omit [Weight α] in
theorem members_bare_of_size (hsize : q.size = 0) (hcap : q.capacity = n)
    (hplace : ∀ v, q.placeOf v = .unknown) : NodeQueue.Members n q.bare ∅ :=
  NodeQueue.members_of_size hsize (capacity_bare.trans hcap)
    (NodeQueue.consistent_of_size hsize fun v => Or.inl (by rw [stateOf_bare, hplace]; rfl))

omit [Weight α] in
theorem bare_forget : (q.forget v).bare = q.bare.setState v .unknown :=
  NodeQueue.ext rfl rfl Array.map_setIfInBounds rfl

theorem capacity_ofCapacity (n : Nat) : (ofCapacity n : KeyedQueue α).capacity = n :=
  Array.size_replicate

theorem placeOf_ofCapacity (n v : Nat) : (ofCapacity n : KeyedQueue α).placeOf v = .unknown :=
  Array.getD_replicate _ _ _

omit [Weight α] in
theorem capacity_clear : q.clear.capacity = q.capacity := Array.size_replicate

omit [Weight α] in
theorem placeOf_clear : q.clear.placeOf v = .unknown := Array.getD_replicate _ _ _

/-- Every operation keeps the invariant of the queue without its keys. -/
theorem Handled.members (h : Handled n q S) : NodeQueue.Members n q.bare S := by
  induction h with
  | new => exact members_bare_of_size rfl (capacity_ofCapacity n) (placeOf_ofCapacity n)
  | insert x _ hv ih =>
    have hcap := capacity_bare.symm.trans ih.capacity
    exact ih.queued (queued_insert_any ih.consistent (by rwa [hcap]) x)
  | popMin _ hpop ih => exact ih.extracted (extracted_popMin?_any ih.consistent hpop)
  | empty _ ih =>
    rw [bare_empty]
    exact ih.clear
  | clear _ ih =>
    refine members_bare_of_size rfl ?_ fun v => placeOf_clear
    rw [capacity_clear, ← capacity_bare]
    exact ih.capacity
  | forget _ hv ih =>
    rw [bare_forget]
    refine ih.setState (fun i hstate => ?_) fun i => NodeState.noConfusion
    exact hv i (placeOf_eq_slot_iff.mpr hstate)

theorem tidy_of_members (h : NodeQueue.Members n q.bare S) : Tidy n q S where
  capacity := capacity_bare.symm.trans h.capacity
  nodup := by
    rw [← waiting_bare]
    exact h.consistent.agrees.nodup_waiting
  placed v i := by
    rw [placeOf_eq_slot_iff, h.consistent.stateOf_eq_queued_iff, size_bare, nodeAt_bare]
  size_le := h.size_le
  waiting v := by
    rw [← waiting_bare]
    exact h.mem_waiting_iff
  extracts top _ hpop := (h.waits top.node).mp (extracted_popMin?_any h.consistent hpop).waited
  exhausted := popMin?_eq_none_iff.trans h.size_eq_zero_iff
  insert_slots := Guarded.insert_eq h.consistent
  pop_slots := Guarded.popMin?_eq q
  empty_slots := Guarded.empty_eq q

end KeyedQueue

/-- Whatever keys its operations are given, a queue of either kind has one slot for each node
that was made to wait and not taken out since, every state or place agrees with the slots, and
no operation looks at a slot that is not in use. -/
theorem tidy_of_handled {α : Type} [Weight α] :
    (∀ n q S, NodeQueue.Handled α n q S → NodeQueue.Tidy α n q S) ∧
      ∀ n (q : KeyedQueue α) S, KeyedQueue.Handled n q S → KeyedQueue.Tidy n q S :=
  ⟨fun _ _ _ h => h.members.tidy, fun _ _ _ h => KeyedQueue.tidy_of_members h.members⟩

/-- A node that was said to be extracted is opened again, with keys that are not those of the
insertion before.  In a queue of the other kind two nodes get the same key. -/
theorem tidy_of_handled_other_keys :
    NodeQueue.Tidy ℚ 3
        ((((NodeQueue.empty 3).setState 2 .settled).insert (fun _ => (5 : ℚ)) 0).reopen
          (fun v => -(v : ℚ)) 2) {2, 0} ∧
      KeyedQueue.Tidy 2
        ((((KeyedQueue.ofCapacity 2).forget 1).insert 0 (5 : ℚ)).insert 1 5) {1, 0} := by
  have hset := (NodeQueue.Handled.new (α := ℚ) (n := 3)).setState (v := 2) (s := .settled)
    (by simp) (by simp)
  have hnodes := (hset.insert (v := 0) (fun _ => 5) (by decide) (by decide)).reopen (v := 2)
    (fun v => -(v : ℚ)) (by decide)
  have hforget := (KeyedQueue.Handled.new (α := ℚ) (n := 2)).forget (v := 1)
    (by simp [KeyedQueue.placeOf_ofCapacity])
  have hentries := (hforget.insert (v := 0) 5 (by decide)).insert (v := 1) 5 (by decide)
  exact ⟨tidy_of_handled.1 _ _ _ hnodes, tidy_of_handled.2 _ _ _ hentries⟩

end SteinerSearch
