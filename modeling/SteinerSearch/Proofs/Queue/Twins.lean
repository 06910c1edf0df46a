import SteinerSearch.Proofs.Queue.Membership

/-!
# Queues that are driven alike

A queue with outside keys and a queue with its own keys are offered the same nodes with the
same keys and are asked for the same extractions.  If a waiting node is only offered a smaller
key, they stay alike slot by slot, so the order of extraction does not depend on the kind of
queue.  Nothing is asked of the comparison of keys.

## Main definitions

* `Twins n q r key` — `q` and `r` are queues for `n` nodes after the same offers and
  extractions, and `key` has the keys offered last.
* `InStep q r key` — the same nodes with the same keys are in the same slots, and the next
  extraction takes out the same node.
* `Paired n q r key` — the invariant: without its keys, the one queue is the other one.

## Main results

* `Paired.offer`, `Paired.extract` — what one offer or extraction keeps.
* `inStep_of_twins` — the queues are alike after any offers and extractions.
-/

namespace SteinerSearch

open Function (update)

variable {α : Type} [Weight α]

/-- `q` and `r` are queues for `n` nodes after the same offers and extractions.  An offer sets
the key of its node, and no key changes but by an offer. -/
inductive Twins (n : Nat) : NodeQueue → KeyedQueue α → (Nat → α) → Prop
  /-- The queues are new. -/
  | new (key : Nat → α) : Twins n (NodeQueue.empty n) (KeyedQueue.ofCapacity n) key
  /-- A node is offered with a key, a smaller one than it has if it waits. -/
  | offer {q : NodeQueue} {r : KeyedQueue α} {key : Nat → α} {v : Nat} (x : α) :
      Twins n q r key → v < n →
      ((∃ i, q.stateOf v = .queued i) → Weight.below x (key v) = true) →
      Twins n (q.reopen (update key v x) v) (r.insert v x) (update key v x)
  /-- Both queues are asked for their next node.  A queue without one stays as it is. -/
  | extract {q : NodeQueue} {r : KeyedQueue α} {key : Nat → α} :
      Twins n q r key →
      Twins n (((q.popMin? key).map Prod.snd).getD q) ((r.popMin?.map Prod.snd).getD r) key

/-- The queues have the same nodes with the same keys in the same slots. -/
structure InStep (q : NodeQueue) (r : KeyedQueue α) (key : Nat → α) : Prop where
  /-- As many slots are in use. -/
  size : q.size = r.size
  /-- The same node is in each slot. -/
  node : ∀ i, 1 ≤ i → i ≤ q.size → q.nodeAt i = (r.entryAt i).node
  /-- It has the same key. -/
  keyed : ∀ i, 1 ≤ i → i ≤ q.size → key (q.nodeAt i) = (r.entryAt i).key
  /-- The state of each node says the same as its place. -/
  state : ∀ v, q.stateOf v = (r.placeOf v).toState
  /-- The next extraction takes out the same node, with its key, or none. -/
  extracts : (q.popMin? key).map (fun p => KeyedNode.mk (key p.1) p.1) = r.popMin?.map Prod.fst

/-- What offers and extractions keep.  The counters of a queue of nodes have no counterpart. -/
structure Paired (n : Nat) (q : NodeQueue) (r : KeyedQueue α) (key : Nat → α) : Prop where
  /-- Without its keys, the one queue is the other one. -/
  bare : ∃ u, r.bare u = q
  /-- Every entry has the key of its node. -/
  keyed : KeyedQueue.Keyed key r
  /-- Slots and states agree. -/
  consistent : q.Consistent
  /-- The queues are for `n` nodes. -/
  capacity : q.capacity = n

variable {n : Nat} {q : NodeQueue} {r : KeyedQueue α} {key : Nat → α} {v : Nat} {x : α}

namespace KeyedQueue

omit [Weight α] in
/-- The counters are no part of what is said about slots and states. -/
theorem consistent_bare {u u' : Usage} (h : (r.bare u).Consistent) : (r.bare u').Consistent :=
  ⟨h.agrees, h.placed⟩

theorem bare_ofCapacity (n : Nat) :
    (ofCapacity n : KeyedQueue α).bare = NodeQueue.empty n :=
  NodeQueue.ext Array.map_replicate rfl Array.map_replicate rfl

end KeyedQueue

/-! ### One offer or extraction -/

theorem paired_new (n : Nat) (key : Nat → α) :
    Paired n (NodeQueue.empty n) (KeyedQueue.ofCapacity n) key where
  bare := ⟨{}, KeyedQueue.bare_ofCapacity n⟩
  keyed _ hj hjs := absurd (hj.trans hjs) (Nat.not_succ_le_zero 0)
  consistent := (NodeQueue.members_empty n).consistent
  capacity := NodeQueue.capacity_empty n

/-- The offered key counts in both queues: the node is appended, or its key is lowered. -/
theorem Paired.offer (h : Paired n q r key) (hv : v < n)
    (hbelow : (∃ i, q.stateOf v = .queued i) → Weight.below x (key v) = true) :
    Paired n (q.reopen (update key v x) v) (r.insert v x) (update key v x) := by
  have hqueued := NodeQueue.queued_reopen (update key v x) h.consistent (by rwa [h.capacity])
  obtain ⟨⟨u, rfl⟩, hkeyed, hq, hcap⟩ := h
  have hself : update key v x v = x := Function.update_self v x key
  have hlower : r.bare.Waits v → Weight.below (update key v x v) (key v) = true := fun hwait => by
    rw [hself]
    exact hbelow (hq.waits_iff.mp hwait)
  have hinsert := KeyedQueue.bare_insert (KeyedQueue.consistent_bare hq) hkeyed
    (fun u hu => Function.update_of_ne hu x key) hlower u
  rw [hself] at hinsert
  exact ⟨hinsert.1, hinsert.2, hqueued.consistent, hqueued.capacity.trans hcap⟩

/-- Without its keys, the one queue gives up the node that the other one does. -/
theorem Paired.popMin? (h : Paired n q r key) :
    (q.popMin? key = none ∧ r.popMin? = none) ∨
      ∃ q' r' v, q.popMin? key = some (v, q') ∧ r.popMin? = some (⟨key v, v⟩, r') ∧
        Paired n q' r' key := by
  obtain ⟨⟨u, rfl⟩, hkeyed, hq, hcap⟩ := h
  cases hpop : r.popMin? with
  | none =>
    refine Or.inl ⟨?_, rfl⟩
    rw [NodeQueue.popMin?_eq_none_iff, KeyedQueue.size_bare]
    exact KeyedQueue.popMin?_eq_none_iff.mp hpop
  | some p =>
    obtain ⟨⟨top, w⟩, r'⟩ := p
    obtain ⟨⟨u', hbare⟩, hkeyed', htop⟩ := KeyedQueue.bare_popMin? hkeyed hpop u
    obtain rfl : top = key w := htop
    have hex := NodeQueue.extracted_popMin? hq hbare
    exact Or.inr ⟨_, r', w, hbare, rfl, ⟨u', rfl⟩, hkeyed', hex.consistent, hex.capacity.trans hcap⟩

theorem Paired.extract (h : Paired n q r key) :
    Paired n (((q.popMin? key).map Prod.snd).getD q) ((r.popMin?.map Prod.snd).getD r) key := by
  obtain ⟨hq, hr⟩ | ⟨q', r', v, hq, hr, hpaired⟩ := h.popMin?
  · rw [hq, hr]
    exact h
  · rw [hq, hr]
    exact hpaired

/-- Every offer and every extraction keeps the invariant. -/
theorem Twins.paired (h : Twins n q r key) : Paired n q r key := by
  induction h with
  | new key => exact paired_new n key
  | offer x _ hv hbelow ih => exact ih.offer hv hbelow
  | extract _ ih => exact ih.extract

/-! ### What the invariant says about the queues -/

theorem Paired.inStep (h : Paired n q r key) : InStep q r key := by
  have hextracts : (q.popMin? key).map (fun p => KeyedNode.mk (key p.1) p.1) =
      r.popMin?.map Prod.fst := by
    obtain ⟨hq, hr⟩ | ⟨q', r', v, hq, hr, -⟩ := h.popMin? <;> rw [hq, hr] <;> rfl
  obtain ⟨⟨u, rfl⟩, hkeyed, -, -⟩ := h
  exact ⟨rfl, fun i _ _ => KeyedQueue.nodeAt_bare i,
    fun i hi his => by rw [KeyedQueue.nodeAt_bare, hkeyed i hi his],
    KeyedQueue.stateOf_bare, hextracts⟩

/-- A queue with outside keys and one with its own that are given the same offers and asked for
the same extractions are alike after each of them. -/
theorem inStep_of_twins (n : Nat) (q : NodeQueue) (r : KeyedQueue α) (key : Nat → α)
    (h : Twins n q r key) : InStep q r key := h.paired.inStep

/-- Two nodes are offered, the key of the first is lowered below that of the second, and a node
is extracted. -/
theorem inStep_of_twins_lowered :
    ∃ (q : NodeQueue) (r : KeyedQueue ℚ) (key : Nat → ℚ),
      q.nodeAt 1 = 0 ∧ key 0 = 2 ∧ InStep q r key ∧
        InStep (((q.popMin? key).map Prod.snd).getD q) ((r.popMin?.map Prod.snd).getD r) key := by
  have hnew := Twins.new (α := ℚ) (n := 2) fun _ => 9
  have hone := hnew.offer (v := 0) 5 (by decide) fun _ => by decide +kernel
  have htwo := hone.offer (v := 1) 3 (by decide) fun _ => by decide +kernel
  have hlow := htwo.offer (v := 0) 2 (by decide) fun _ => by decide +kernel
  exact ⟨_, _, _, by decide +kernel, by decide +kernel, inStep_of_twins _ _ _ _ hlow,
    inStep_of_twins _ _ _ _ hlow.extract⟩

end SteinerSearch
