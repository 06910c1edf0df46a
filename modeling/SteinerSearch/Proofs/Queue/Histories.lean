import SteinerSearch.Proofs.Queue.Membership

/-!
# Queues in use

A queue is handed from one operation to the next, and between two operations its user
changes keys.  As long as a waiting node's key is only lowered, and the queue is told at
once, the queue is a heap after every operation: it holds exactly the nodes that were
inserted and not taken out since, and hands them out by increasing keys.

## Main definitions

* `NodeQueue.History n q key S`, `KeyedQueue.History n q key S` — `q` is a queue for `n`
  nodes after some operations, `key` has the keys by then, and the nodes of `S` were
  inserted and neither extracted nor cleared since.
* `NodeQueue.Extractions q key xs`, `KeyedQueue.Extractions q xs` — the keys `xs` come out
  of `q` one after the other.
* `NodeQueue.InOrder q key S`, `KeyedQueue.InOrder q key S` — `q` is a heap of the nodes of
  `S` and hands them out by increasing keys.
* `NodeQueue.Holds n q key S` — the invariant of a history.

## Main results

* `NodeQueue.History.holds`, `KeyedQueue.History.holds` — every operation keeps the
  invariant.
* `inOrder_of_history` — queues of both kinds are in order after every operation.
-/

namespace SteinerSearch

open Function (update)

namespace NodeQueue

/-- While the nodes of `S` wait, `v` may get the key `x` if the queue is told at once: a
waiting node's key is not raised, and `x` is apart from the other keys. -/
structure MayLower (n : Nat) (key : Nat → ℚ) (S : Finset Nat) (v : Nat) (x : ℚ) : Prop where
  /-- The queue is for `v`. -/
  node : v < n
  /-- A waiting node's key is not raised. -/
  lowers : v ∈ S → x ≤ key v
  /-- The keys that the queue compares stay apart. -/
  apart : ∀ u ∈ S, u ≠ v → Weight.Apart x (key u)

/-- `q` is a queue for `n` nodes after some operations, with the keys `key`.  The nodes of
`S` were inserted and neither extracted nor cleared since. -/
inductive History (n : Nat) : NodeQueue → (Nat → ℚ) → Finset Nat → Prop
  /-- The queue is new. -/
  | new (key : Nat → ℚ) : History n (empty n) key ∅
  /-- A node that does not wait gets any other key. -/
  | rekey {q : NodeQueue} {key : Nat → ℚ} {S : Finset Nat} {v : Nat} (x : ℚ) :
      History n q key S → v ∉ S → History n q (update key v x) S
  /-- A node that was not extracted gets a key and is inserted. -/
  | insert {q : NodeQueue} {key : Nat → ℚ} {S : Finset Nat} {v : Nat} {x : ℚ} :
      History n q key S → q.isSettled v = false → MayLower n key S v x →
      History n (q.insert (update key v x) v) (update key v x) (Insert.insert v S)
  /-- Any node gets a key and is opened again. -/
  | reopen {q : NodeQueue} {key : Nat → ℚ} {S : Finset Nat} {v : Nat} {x : ℚ} :
      History n q key S → MayLower n key S v x →
      History n (q.reopen (update key v x) v) (update key v x) (Insert.insert v S)
  /-- A node is extracted. -/
  | popMin {q r : NodeQueue} {key : Nat → ℚ} {S : Finset Nat} {v : Nat} :
      History n q key S → q.popMin? key = some (v, r) → History n r key (S.erase v)
  /-- The queue is cleared. -/
  | clear {q : NodeQueue} {key : Nat → ℚ} {S : Finset Nat} :
      History n q key S → History n q.clear key ∅

/-- The keys `xs` come out of `q` one after the other.  In between, nodes that do not wait
may get other keys. -/
inductive Extractions : NodeQueue → (Nat → ℚ) → List ℚ → Prop
  /-- Nothing is extracted. -/
  | nil (q : NodeQueue) (key : Nat → ℚ) : Extractions q key []
  /-- A node is extracted. -/
  | popMin {q r : NodeQueue} {key : Nat → ℚ} {v : Nat} {xs : List ℚ} :
      q.popMin? key = some (v, r) → Extractions r key xs → Extractions q key (key v :: xs)
  /-- A node that does not wait gets another key. -/
  | rekey {q : NodeQueue} {key : Nat → ℚ} {v : Nat} {x : ℚ} {xs : List ℚ} :
      v ∉ q.waiting → Extractions q (update key v x) xs → Extractions q key xs

/-- `q` is a heap of the nodes of `S` and hands them out by increasing keys. -/
structure InOrder (q : NodeQueue) (key : Nat → ℚ) (S : Finset Nat) : Prop where
  /-- No node is smaller than the one above it, and every node knows its slot. -/
  ordered : q.isOrdered key = true
  /-- The nodes in the slots are those of `S`. -/
  waiting : ∀ v, v ∈ q.waiting ↔ v ∈ S
  /-- No node is in two slots. -/
  nodup : q.waiting.Nodup
  /-- The nodes that are said to wait are those of `S`. -/
  queued : ∀ v, (∃ i, q.stateOf v = .queued i) ↔ v ∈ S
  /-- There is a next node unless nothing waits. -/
  next : q.peekMin? = none ↔ S = ∅
  /-- The next node has the smallest key. -/
  least : ∀ v, q.peekMin? = some v → v ∈ S ∧ ∀ u ∈ S, key v ≤ key u
  /-- It is the next node that is extracted. -/
  extracts : (q.popMin? key).map Prod.fst = q.peekMin?
  /-- Keys that come out one after the other do not decrease. -/
  increasing : ∀ xs, Extractions q key xs → xs.Pairwise (· ≤ ·)

/-- What every operation on a queue keeps. -/
structure Holds (n : Nat) (q : NodeQueue) (key : Nat → ℚ) (S : Finset Nat) : Prop where
  /-- Slots and states agree. -/
  consistent : q.Consistent
  /-- The queue is for `n` nodes. -/
  capacity : q.capacity = n
  /-- No node has a smaller key than the one above it. -/
  ordered : Ordered key q
  /-- The nodes of `S` wait. -/
  waits : ∀ v, q.Waits v ↔ v ∈ S
  /-- Their keys are apart. -/
  apart : ∀ u ∈ S, ∀ w ∈ S, Weight.Apart (key u) (key w)

variable {n : Nat} {q r : NodeQueue} {key : Nat → ℚ} {S : Finset Nat} {v : Nat} {x : ℚ}

/-! ### One operation -/

theorem Holds.members (h : Holds n q key S) : Members n q S := ⟨h.consistent, h.capacity, h.waits⟩

theorem Holds.apartKeys (h : Holds n q key S) : ApartKeys key q := fun u w hu hw =>
  h.apart u ((h.waits u).mp hu) w ((h.waits w).mp hw)

/-- The order is one of the waiting nodes only. -/
theorem Holds.rekey (h : Holds n q key S) (hv : v ∉ S) : Holds n q (update key v x) S := by
  have hkey : ∀ u ∈ S, update key v x u = key u := by
    intro u hu
    refine Function.update_of_ne ?_ x key
    rintro rfl
    exact hv hu
  refine ⟨h.consistent, h.capacity, fun j hj hjs => ?_, h.waits, fun u hu w hw => ?_⟩
  · rw [hkey _ ((h.waits _).mp ⟨j / 2, by omega, by omega, rfl⟩),
      hkey _ ((h.waits _).mp ⟨j, by omega, hjs, rfl⟩)]
    exact h.ordered j hj hjs
  · rw [hkey u hu, hkey w hw]
    exact h.apart u hu w hw

/-- The keys stay apart when `v` gets the key `x`. -/
theorem MayLower.apart_update (hx : MayLower n key S v x)
    (h : ∀ u ∈ S, ∀ w ∈ S, Weight.Apart (key u) (key w)) :
    ∀ u ∈ Insert.insert v S, ∀ w ∈ Insert.insert v S,
      Weight.Apart (update key v x u) (update key v x w) := by
  have hmem : ∀ u ∈ Insert.insert v S, u ≠ v → u ∈ S := fun u hu huv =>
    (Finset.mem_insert.mp hu).resolve_left huv
  intro u hu w hw
  by_cases huv : u = v <;> by_cases hwv : w = v
  · rw [huv, hwv]
    exact Or.inl rfl
  · rw [huv, Function.update_self, Function.update_of_ne hwv]
    exact hx.apart w (hmem w hw hwv) hwv
  · rw [hwv, Function.update_self, Function.update_of_ne huv]
    exact (hx.apart u (hmem u hu huv) huv).symm
  · rw [Function.update_of_ne huv, Function.update_of_ne hwv]
    exact h u (hmem u hu huv) w (hmem w hw hwv)

theorem Holds.reopen (h : Holds n q key S) (hx : MayLower n key S v x) :
    Holds n (q.reopen (update key v x) v) (update key v x) (Insert.insert v S) := by
  have hv : v < q.capacity := by
    rw [h.capacity]
    exact hx.node
  have hq := queued_reopen (update key v x) h.consistent hv
  have hm := h.members.queued hq
  have hapart := hx.apart_update h.apart
  refine ⟨hm.consistent, hm.capacity, ?_, hm.waits, hapart⟩
  refine ordered_reopen h.consistent hv ?_ (fun u hu => Function.update_of_ne hu x key) ?_
    h.ordered
  · intro u w hu hw
    exact hapart u ((hm.waits u).mp ((hq.waits u).mpr hu)) w ((hm.waits w).mp ((hq.waits w).mpr hw))
  · intro hw
    rw [Function.update_self]
    exact hx.lowers ((h.waits v).mp hw)

theorem Holds.insert (h : Holds n q key S) (hs : q.isSettled v = false)
    (hx : MayLower n key S v x) :
    Holds n (q.insert (update key v x) v) (update key v x) (Insert.insert v S) := by
  have hstate : q.stateOf v ≠ .settled := by
    rw [Ne, ← isSettled_iff, hs]
    exact Bool.false_ne_true
  rw [insert_eq_reopen _ hstate]
  exact h.reopen hx

theorem Holds.popMin? (h : Holds n q key S) (hpop : q.popMin? key = some (v, r)) :
    Holds n r key (S.erase v) := by
  have hm := h.members.extracted (extracted_popMin? h.consistent hpop)
  exact ⟨hm.consistent, hm.capacity, ordered_popMin? h.consistent h.apartKeys h.ordered hpop,
    hm.waits, fun u hu w hw =>
      h.apart u (Finset.mem_of_mem_erase hu) w (Finset.mem_of_mem_erase hw)⟩

theorem Members.holds_empty (h : Members n q ∅) (hsize : q.size = 0) (key : Nat → ℚ) :
    Holds n q key ∅ where
  consistent := h.consistent
  capacity := h.capacity
  ordered := ordered_of_size hsize
  waits := h.waits
  apart u hu := absurd hu (Finset.notMem_empty u)

theorem Holds.clear (h : Holds n q key S) : Holds n q.clear key ∅ :=
  h.members.clear.holds_empty rfl key

/-- Every operation keeps the invariant. -/
theorem History.holds (h : History n q key S) : Holds n q key S := by
  induction h with
  | new key => exact (members_empty n).holds_empty rfl key
  | rekey x _ hv ih => exact ih.rekey hv
  | insert _ hs hx ih => exact ih.insert hs hx
  | reopen _ hx ih => exact ih.reopen hx
  | popMin _ hpop ih => exact ih.popMin? hpop
  | clear _ ih => exact ih.clear

/-! ### What the invariant says about a queue -/

theorem peekMin?_eq_some_iff : q.peekMin? = some v ↔ 0 < q.size ∧ q.nodeAt 1 = v := by
  unfold peekMin?
  by_cases h : q.size = 0
  · simp [h]
  · simp [h, Nat.pos_of_ne_zero h]

theorem Agrees.isOrdered (hq : q.Agrees) (h : ∀ i, 2 ≤ i → i ≤ q.size →
    Weight.below (key (q.nodeAt i)) (key (q.nodeAt (i / 2))) = false) :
    q.isOrdered key = true := by
  unfold NodeQueue.isOrdered
  rw [List.all_eq_true]
  intro i hi
  rw [List.mem_range'_1] at hi
  rw [Bool.and_eq_true, decide_eq_true_eq]
  refine ⟨hq i hi.1 (by omega), ?_⟩
  by_cases h1 : i = 1
  · simp [h1]
  · simp [h i (by omega) (by omega)]

theorem Holds.isOrdered (h : Holds n q key S) : q.isOrdered key = true := by
  refine h.consistent.agrees.isOrdered fun i hi his => ?_
  have hbelow := Weight.below_iff (h.apartKeys (q.nodeAt i) (q.nodeAt (i / 2))
    ⟨i, by omega, his, rfl⟩ ⟨i / 2, by omega, by omega, rfl⟩)
  exact Bool.eq_false_iff.mpr fun hb => absurd (hbelow.mp hb) (not_lt.mpr (h.ordered i hi his))

/-- No key that comes out is below the keys of the waiting nodes, or below one that came
out earlier. -/
theorem Holds.increasing {xs : List ℚ} (hxs : Extractions q key xs) :
    ∀ {S : Finset Nat}, Holds n q key S →
      xs.Pairwise (· ≤ ·) ∧ ∀ b, (∀ u ∈ S, b ≤ key u) → ∀ y ∈ xs, b ≤ y := by
  induction hxs with
  | nil q key => exact fun _ => ⟨List.Pairwise.nil, fun b _ y hy => absurd hy List.not_mem_nil⟩
  | @popMin q r key v xs hpop _ ih =>
    intro S h
    obtain ⟨hpair, hbound⟩ := ih (h.popMin? hpop)
    have hv : v ∈ S := (h.waits v).mp (extracted_popMin? h.consistent hpop).waited
    have hleast : ∀ u ∈ S, key v ≤ key u := fun u hu =>
      popMin?_le h.ordered hpop ((h.waits u).mpr hu)
    have hrest : ∀ b, (∀ u ∈ S, b ≤ key u) → ∀ y ∈ xs, b ≤ y := fun b hb =>
      hbound b fun u hu => hb u (Finset.mem_of_mem_erase hu)
    refine ⟨List.Pairwise.cons (hrest (key v) hleast) hpair, fun b hb y hy => ?_⟩
    rcases List.mem_cons.mp hy with rfl | hy
    · exact hb v hv
    · exact hrest b hb y hy
  | @rekey q key v x xs hv _ ih =>
    intro S h
    have hvS : v ∉ S := fun hmem => hv (mem_waiting.mpr ((h.waits v).mpr hmem))
    obtain ⟨hpair, hbound⟩ := ih (h.rekey (x := x) hvS)
    refine ⟨hpair, fun b hb => hbound b fun u hu => ?_⟩
    rw [Function.update_of_ne (by rintro rfl; exact hvS hu)]
    exact hb u hu

theorem Holds.inOrder (h : Holds n q key S) : q.InOrder key S where
  ordered := h.isOrdered
  waiting v := mem_waiting.trans (h.waits v)
  nodup := h.consistent.agrees.nodup_waiting
  queued v := h.consistent.waits_iff.symm.trans (h.waits v)
  next := by
    rw [peekMin?_eq_none_iff, h.members.size_eq_zero_iff]
  least v hv := by
    obtain ⟨hpos, rfl⟩ := peekMin?_eq_some_iff.mp hv
    refine ⟨(h.waits _).mp ⟨1, le_rfl, hpos, rfl⟩, fun u hu => ?_⟩
    obtain ⟨i, hi, his, rfl⟩ := (h.waits u).mpr hu
    exact h.ordered.top_le hi his
  extracts := by
    unfold NodeQueue.popMin?
    cases q.peekMin? <;> rfl
  increasing _ hxs := (h.increasing hxs).1

end NodeQueue

namespace KeyedQueue

/-- `q` is a queue for `n` nodes after some operations.  The nodes of `S` were inserted and
neither extracted nor cleared since, and `key` has the smallest key each was inserted with. -/
inductive History (n : Nat) : KeyedQueue ℚ → (Nat → ℚ) → Finset Nat → Prop
  /-- The queue is new. -/
  | new (key : Nat → ℚ) : History n (ofCapacity n) key ∅
  /-- A node is inserted, or inserted again with another key. -/
  | insert {q : KeyedQueue ℚ} {key : Nat → ℚ} {S : Finset Nat} {v : Nat} {x : ℚ} :
      History n q key S → v < n → (∀ u ∈ S, Weight.Apart x (key u)) →
      History n (q.insert v x) (update key v (if v ∈ S then min x (key v) else x))
        (Insert.insert v S)
  /-- An entry is extracted. -/
  | popMin {q r : KeyedQueue ℚ} {key : Nat → ℚ} {S : Finset Nat} {top : KeyedNode ℚ} :
      History n q key S → q.popMin? = some (top, r) → History n r key (S.erase top.node)
  /-- The queue is emptied. -/
  | empty {q : KeyedQueue ℚ} {key : Nat → ℚ} {S : Finset Nat} :
      History n q key S → History n q.empty key ∅
  /-- The queue is emptied and forgets what was extracted. -/
  | clear {q : KeyedQueue ℚ} {key : Nat → ℚ} {S : Finset Nat} :
      History n q key S → History n q.clear key ∅

/-- The keys `xs` come out of `q` one after the other. -/
inductive Extractions : KeyedQueue ℚ → List ℚ → Prop
  /-- Nothing is extracted. -/
  | nil (q : KeyedQueue ℚ) : Extractions q []
  /-- An entry is extracted. -/
  | popMin {q r : KeyedQueue ℚ} {top : KeyedNode ℚ} {xs : List ℚ} :
      q.popMin? = some (top, r) → Extractions r xs → Extractions q (top.key :: xs)

/-- `q` is a heap of the nodes of `S` with the keys `key`, and hands them out by increasing
keys. -/
structure InOrder (q : KeyedQueue ℚ) (key : Nat → ℚ) (S : Finset Nat) : Prop where
  /-- No entry is smaller than the one above it, and every node knows its slot. -/
  ordered : q.isOrdered = true
  /-- The nodes in the slots are those of `S`. -/
  waiting : ∀ v, v ∈ q.waiting ↔ v ∈ S
  /-- No node is in two slots. -/
  nodup : q.waiting.Nodup
  /-- The nodes that are said to wait are those of `S`. -/
  placed : ∀ v, (∃ i, q.placeOf v = .slot i) ↔ v ∈ S
  /-- They have the keys `key`. -/
  keyed : ∀ v, q.keyOf? v = if v ∈ S then some (key v) else none
  /-- There is a next entry unless nothing waits. -/
  next : q.peekMin? = none ↔ S = ∅
  /-- The next entry has the smallest key. -/
  least : ∀ e, q.peekMin? = some e → e.node ∈ S ∧ e.key = key e.node ∧ ∀ u ∈ S, e.key ≤ key u
  /-- It is the next entry that is extracted. -/
  extracts : q.popMin?.map Prod.fst = q.peekMin?
  /-- Keys that come out one after the other do not decrease. -/
  increasing : ∀ xs, Extractions q xs → xs.Pairwise (· ≤ ·)

/-- What every operation on a queue keeps: without its keys it is in order, and the keys of
its entries are those of their nodes. -/
structure Holds (n : Nat) (q : KeyedQueue ℚ) (key : Nat → ℚ) (S : Finset Nat) : Prop where
  /-- The queue without its keys is in order. -/
  bare : NodeQueue.Holds n q.bare key S
  /-- Every entry has the key of its node. -/
  keyed : Keyed key q

variable {n : Nat} {q r : KeyedQueue ℚ} {key : Nat → ℚ} {S : Finset Nat} {v : Nat} {x : ℚ}

/-- The counters are not part of what is said about a queue. -/
theorem holds_bare {u : Usage} (h : NodeQueue.Holds n (q.bare u) key S) :
    NodeQueue.Holds n q.bare key S :=
  ⟨⟨h.consistent.agrees, h.consistent.placed⟩, h.capacity, h.ordered, h.waits, h.apart⟩

/-! ### One operation -/

theorem holds_of_size (hsize : q.size = 0) (hcap : q.capacity = n)
    (hplace : ∀ v, q.placeOf v = .unknown) (key : Nat → ℚ) : Holds n q key ∅ :=
  ⟨(members_bare_of_size hsize hcap hplace).holds_empty hsize key, fun j hj hjs => by omega⟩

theorem Holds.insert (h : Holds n q key S) (hv : v < n)
    (hx : ∀ u ∈ S, Weight.Apart x (key u)) :
    Holds n (q.insert v x) (update key v (if v ∈ S then min x (key v) else x))
      (Insert.insert v S) := by
  by_cases hkeep : v ∈ S ∧ key v ≤ x
  · -- the node waits with a key that is small enough
    obtain ⟨hvS, hle⟩ := hkeep
    have hnot : Weight.below x (key v) = false :=
      Bool.eq_false_iff.mpr fun hb =>
        absurd ((Weight.below_iff (hx v hvS)).mp hb) (not_lt.mpr hle)
    have hwait : q.bare.Waits v := (h.bare.waits v).mpr hvS
    rw [insert_of_not_below h.bare.consistent h.keyed hwait hnot, if_pos hvS, min_eq_right hle,
      Function.update_eq_self, Finset.insert_eq_self.mpr hvS]
    exact h
  · -- the node gets the key `x`, as if it was opened again
    have hlower : v ∈ S → x < key v := fun hvS =>
      not_le.mp fun hle => hkeep ⟨hvS, hle⟩
    have hval : (if v ∈ S then min x (key v) else x) = x := by
      split
      · next hvS => exact min_eq_left (hlower hvS).le
      · rfl
    rw [hval]
    have hmay : NodeQueue.MayLower n key S v x :=
      ⟨hv, fun hvS => (hlower hvS).le, fun u hu _ => hx u hu⟩
    have hself : update key v x v = x := Function.update_self v x key
    have hbelow : q.bare.Waits v → Weight.below (update key v x v) (key v) = true := by
      intro hwait
      have hvS := (h.bare.waits v).mp hwait
      rw [hself, Weight.below_iff (hx v hvS)]
      exact hlower hvS
    obtain ⟨⟨u, hbare⟩, hkeyed⟩ := bare_insert h.bare.consistent h.keyed
      (fun u hu => Function.update_of_ne hu x key) hbelow {}
    rw [hself] at hbare hkeyed
    have hreopen := h.bare.reopen hmay
    rw [← hbare] at hreopen
    exact ⟨holds_bare hreopen, hkeyed⟩

theorem Holds.popMin? {top : KeyedNode ℚ} (h : Holds n q key S)
    (hpop : q.popMin? = some (top, r)) : Holds n r key (S.erase top.node) := by
  obtain ⟨⟨u, hbare⟩, hkeyed, -⟩ := bare_popMin? h.keyed hpop {}
  exact ⟨holds_bare (h.bare.popMin? hbare), hkeyed⟩

theorem Holds.empty (h : Holds n q key S) : Holds n q.empty key ∅ := by
  refine ⟨?_, fun j hj hjs => ?_⟩
  · rw [bare_empty]
    exact h.bare.clear
  · rw [size_empty] at hjs
    omega

theorem Holds.clear (h : Holds n q key S) : Holds n q.clear key ∅ := by
  refine holds_of_size rfl ?_ (fun v => placeOf_clear) key
  rw [capacity_clear, ← capacity_bare]
  exact h.bare.capacity

/-- Every operation keeps the invariant. -/
theorem History.holds (h : History n q key S) : Holds n q key S := by
  induction h with
  | new key => exact holds_of_size rfl (capacity_ofCapacity n) (placeOf_ofCapacity n) key
  | insert _ hv hx ih => exact ih.insert hv hx
  | popMin _ hpop ih => exact ih.popMin? hpop
  | empty _ ih => exact ih.empty
  | clear _ ih => exact ih.clear

/-! ### What the invariant says about a queue -/

/-- A queue and the same queue without its keys are ordered alike. -/
theorem isOrdered_bare (hkeyed : Keyed key q) : q.bare.isOrdered key = q.isOrdered := by
  unfold NodeQueue.isOrdered isOrdered
  rw [size_bare, Bool.eq_iff_iff, List.all_eq_true, List.all_eq_true]
  refine forall₂_congr fun i hi => ?_
  rw [List.mem_range'_1] at hi
  have hstate : q.bare.stateOf (q.entryAt i).node = .queued i ↔
      q.placeOf (q.entryAt i).node = .slot i := by
    rw [stateOf_bare]
    cases q.placeOf (q.entryAt i).node <;> simp [Place.toState]
  by_cases h1 : i = 1
  · subst h1
    simp only [nodeAt_bare, hstate, beq_self_eq_true, Bool.true_or]
  · have habove := hkeyed (i / 2) (by omega) (by omega)
    simp only [nodeAt_bare, hstate, ← habove, ← hkeyed i hi.1 (by omega)]

theorem peekMin?_bare : q.bare.peekMin? = q.peekMin?.map KeyedNode.node := by
  unfold NodeQueue.peekMin? peekMin?
  rw [size_bare, nodeAt_bare]
  split <;> rfl

theorem placed_iff : (∃ i, q.placeOf v = .slot i) ↔ ∃ i, q.bare.stateOf v = .queued i := by
  rw [stateOf_bare]
  cases q.placeOf v <;> simp [Place.toState]

theorem Holds.keyOf? (h : Holds n q key S) :
    q.keyOf? v = if v ∈ S then some (key v) else none := by
  have hplaced : (∃ i, q.placeOf v = .slot i) ↔ v ∈ S :=
    placed_iff.trans (h.bare.consistent.waits_iff.symm.trans (h.bare.waits v))
  unfold KeyedQueue.keyOf?
  cases hp : q.placeOf v with
  | unknown =>
    rw [if_neg]
    rw [← hplaced, hp]
    rintro ⟨i, hi⟩
    cases hi
  | removed =>
    rw [if_neg]
    rw [← hplaced, hp]
    rintro ⟨i, hi⟩
    cases hi
  | slot i =>
    have hstate : q.bare.stateOf v = .queued i := by
      rw [stateOf_bare, hp]
      rfl
    obtain ⟨hi, his, hnode⟩ := h.bare.consistent.placed v i hstate
    rw [nodeAt_bare] at hnode
    rw [if_pos (hplaced.mp ⟨i, hp⟩)]
    change some (q.entryAt i).key = some (key v)
    rw [h.keyed i hi his, hnode]

/-- No key that comes out is below the keys of the waiting nodes, or below one that came
out earlier. -/
theorem Holds.increasing {xs : List ℚ} (hxs : Extractions q xs) :
    ∀ {S : Finset Nat}, Holds n q key S →
      xs.Pairwise (· ≤ ·) ∧ ∀ b, (∀ u ∈ S, b ≤ key u) → ∀ y ∈ xs, b ≤ y := by
  induction hxs with
  | nil q => exact fun _ => ⟨List.Pairwise.nil, fun b _ y hy => absurd hy List.not_mem_nil⟩
  | @popMin q r top xs hpop _ ih =>
    intro S h
    obtain ⟨hpair, hbound⟩ := ih (h.popMin? hpop)
    obtain ⟨⟨u, hbare⟩, -, htop⟩ := bare_popMin? h.keyed hpop {}
    have hmem : top.node ∈ S :=
      (h.bare.waits _).mp (NodeQueue.extracted_popMin? h.bare.consistent hbare).waited
    have hleast : ∀ u ∈ S, top.key ≤ key u := by
      intro u hu
      rw [htop]
      exact NodeQueue.popMin?_le h.bare.ordered hbare ((h.bare.waits u).mpr hu)
    have hrest : ∀ b, (∀ u ∈ S, b ≤ key u) → ∀ y ∈ xs, b ≤ y := fun b hb =>
      hbound b fun u hu => hb u (Finset.mem_of_mem_erase hu)
    refine ⟨List.Pairwise.cons (hrest top.key hleast) hpair, fun b hb y hy => ?_⟩
    rcases List.mem_cons.mp hy with rfl | hy
    · rw [htop]
      exact hb top.node hmem
    · exact hrest b hb y hy

theorem Holds.inOrder (h : Holds n q key S) : q.InOrder key S := by
  have hbare := h.bare.inOrder
  refine ⟨?_, fun v => ?_, ?_, fun v => placed_iff.trans (hbare.queued v), fun v => h.keyOf?,
    ?_, fun e he => ?_, ?_, fun xs hxs => (h.increasing hxs).1⟩
  · rw [← isOrdered_bare h.keyed]
    exact hbare.ordered
  · rw [← waiting_bare]
    exact hbare.waiting v
  · rw [← waiting_bare]
    exact hbare.nodup
  · rw [← hbare.next, peekMin?_bare, Option.map_eq_none_iff]
  · have hnode : q.bare.peekMin? = some e.node := by
      rw [peekMin?_bare, he]
      rfl
    obtain ⟨hmem, hleast⟩ := hbare.least e.node hnode
    have hkey : e.key = key e.node := by
      unfold peekMin? at he
      split at he
      · cases he
      · next hsize =>
        obtain rfl := Option.some.inj he
        exact h.keyed 1 le_rfl (Nat.pos_of_ne_zero hsize)
    exact ⟨hmem, hkey, fun u hu => hkey.trans_le (hleast u hu)⟩
  · unfold KeyedQueue.popMin?
    cases q.peekMin? <;> rfl

end KeyedQueue

/-- After any operations, a queue of either kind is a heap of the nodes that were inserted
and not taken out since, and hands them out by increasing keys. -/
theorem inOrder_of_history :
    (∀ n q key S, NodeQueue.History n q key S → NodeQueue.InOrder q key S) ∧
      ∀ n q key S, KeyedQueue.History n q key S → KeyedQueue.InOrder q key S :=
  ⟨fun _ _ _ _ h => h.holds.inOrder, fun _ _ _ _ h => h.holds.inOrder⟩

/-- Two nodes are inserted into a queue of the one kind, the second before the first in
order.  In a queue of the other kind the key of a waiting node is lowered. -/
theorem inOrder_of_history_two_inserts :
    NodeQueue.InOrder
        (((NodeQueue.empty 2).insert (update (fun _ => (0 : ℚ)) 0 5) 0).reopen
          (update (update (fun _ => (0 : ℚ)) 0 5) 1 3) 1)
        (update (update (fun _ => (0 : ℚ)) 0 5) 1 3) {1, 0} ∧
      KeyedQueue.InOrder (((KeyedQueue.ofCapacity 2).insert 0 (5 : ℚ)).insert 0 3)
        (update (fun _ => (0 : ℚ)) 0 3) {0} := by
  have hapart : Weight.Apart 3 5 :=
    Weight.IsWhole.apart ⟨3, by norm_num⟩ ⟨5, by norm_num⟩
  have hnodes := ((NodeQueue.History.new (n := 2) fun _ => (0 : ℚ)).insert (v := 0) (x := 5)
    (by decide) ⟨by decide, by simp, by simp⟩).reopen (v := 1) (x := 3)
    ⟨by decide, by simp, by simpa using hapart⟩
  have hentries := ((KeyedQueue.History.new (n := 2) fun _ => (0 : ℚ)).insert (v := 0) (x := 5)
    (by decide) (by simp)).insert (v := 0) (x := 3) (by decide) (by simpa using hapart)
  have hmin : min (3 : ℚ) 5 = 3 := by norm_num
  simp only [Finset.notMem_empty, if_false, Finset.mem_singleton, if_true, insert_empty_eq,
    Function.update_self, Function.update_idem, hmin, Finset.insert_eq_of_mem] at hentries
  exact ⟨inOrder_of_history.1 _ _ _ _ hnodes, inOrder_of_history.2 _ _ _ _ hentries⟩

end SteinerSearch
