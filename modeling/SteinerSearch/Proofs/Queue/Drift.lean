import Mathlib.Data.Nat.Log
import SteinerSearch.Proofs.Queue.Histories

/-!
# How far rounding can spoil the order of a queue

Comparison up to rounding is not transitive: each of several keys may count as equal to
the next one although the first and the last are far apart.  So a queue that is given keys
closer together than rounding need not stay a heap, and the key that comes out of it may be
larger than one that waits, by more than rounding.  What remains true is that the keys the
queue was given leave no gap between the two: the one leads down to the other in steps that
are rounding each.  A queue that was given `k` keys is at most `k - 1` such steps out of order,
and no better bound holds.  If such steps between the keys never lead further than rounding,
the order is exact up to rounding.

## Main definitions

* `Weight.Bridged K a b` — the weights of `K` leave no gap wider than rounding between `b`
  and `a`.
* `Weight.Tight K` — two steps of rounding between weights of `K` lead no further than rounding.
* `NodeQueue.Offered n q key S K`, `KeyedQueue.Offered n q key S K` — `q` is a queue for `n`
  nodes after some operations, `key` has the keys by then, the nodes of `S` wait, and `K` has
  every key that was given.
* `NodeQueue.Drifts n q key S K`, `KeyedQueue.Drifts n q key S K` — the invariant of such a
  sequence of operations.
* `NodeQueue.NearOrder q key S K`, `KeyedQueue.NearOrder q key S K` — `q` is a heap up to as
  many steps as there are keys in `K`.

## Main results

* `Weight.Bridged.le` — how far apart bridged weights can be.
* `NodeQueue.Offered.drifts`, `KeyedQueue.Offered.drifts` — every operation keeps the invariant.
* `exists_drift` — the bound is met for every number of keys.
* `nearOrder_of_offered` — queues of both kinds are heaps up to that many steps.
* `drifts_beyond_rounding` — five keys that bring a queue out of order.
-/

namespace SteinerSearch

open Function (update)

namespace Weight

/-- The weights of `K` leave no gap wider than rounding from `b` up to `a`. -/
def Bridged (K : Finset ℚ) (a b : ℚ) : Prop :=
  ∀ t, b ≤ t → t < a → ∃ k ∈ K, t < k ∧ k ≤ t + tolerance

variable {K : Finset ℚ} {a b : ℚ}

theorem bridged_of_le (h : a ≤ b) : Bridged K a b := by
  intro t hbt hta
  linarith

/-- A single step needs no other weight. -/
theorem bridged_of_le_add (ha : a ∈ K) (h : a ≤ b + tolerance) : Bridged K a b := by
  intro t hbt hta
  exact ⟨a, ha, hta, by linarith⟩

theorem Bridged.mono {L : Finset ℚ} (h : Bridged K a b) (hKL : K ⊆ L) : Bridged L a b := by
  intro t hbt hta
  obtain ⟨k, hk, hstep⟩ := h t hbt hta
  exact ⟨k, hKL hk, hstep⟩

instance : Std.Refl (Bridged K) := ⟨fun _ => bridged_of_le le_rfl⟩

instance : IsTrans ℚ (Bridged K) where
  trans a b c hab hbc := by
    intro t hct hta
    rcases lt_or_ge t b with htb | hbt
    · exact hbc t hct htb
    · exact hab t hbt hta

/-- Fewer weights lie above a larger weight, if it is one of them. -/
theorem card_filter_lt {k : ℚ} (hk : k ∈ K) (hbk : b < k) :
    (K.filter (k < ·)).card < (K.filter (b < ·)).card := by
  apply Finset.card_lt_card
  rw [Finset.ssubset_iff_of_subset fun x hx => ?_]
  · exact ⟨k, by simp [hk, hbk], by simp⟩
  · simp only [Finset.mem_filter] at hx ⊢
    exact ⟨hx.1, hbk.trans hx.2⟩

/-- Each step up from `b` uses a weight of its own. -/
theorem Bridged.le_card (h : Bridged K a b) :
    a ≤ b + (K.filter (b < ·)).card * tolerance := by
  induction hn : (K.filter (b < ·)).card using Nat.strongRecOn generalizing b with
  | ind n ih =>
    subst hn
    rcases le_or_gt a b with hab | hba
    · have := mul_nonneg (Nat.cast_nonneg (α := ℚ) (K.filter (b < ·)).card) tolerance_pos.le
      linarith
    · obtain ⟨k, hk, hbk, hkb⟩ := h b le_rfl hba
      have hfewer := card_filter_lt hk hbk
      have hrest : Bridged K a k := fun t hkt => h t (hbk.le.trans hkt)
      have hle := ih _ hfewer hrest rfl
      have hsucc : ((K.filter (k < ·)).card : ℚ) + 1 ≤ (K.filter (b < ·)).card := by
        exact_mod_cast hfewer
      have := mul_le_mul_of_nonneg_right hsucc tolerance_pos.le
      linarith

/-- Weights that are bridged by `K`, the lower of which is in `K`, are at most one step apart
for each other weight of `K`. -/
theorem Bridged.le (hb : b ∈ K) (h : Bridged K a b) : a ≤ b + (K.card - 1 : ℚ) * tolerance := by
  have hfewer : (K.filter (b < ·)).card < K.card := by
    apply Finset.card_lt_card
    rw [Finset.filter_ssubset]
    exact ⟨b, hb, lt_irrefl b⟩
  have hcard : ((K.filter (b < ·)).card : ℚ) ≤ K.card - 1 := by
    have : ((K.filter (b < ·)).card : ℚ) + 1 ≤ K.card := by exact_mod_cast hfewer
    linarith
  have := mul_le_mul_of_nonneg_right hcard tolerance_pos.le
  linarith [h.le_card]

/-- Weights of `K` that are at most rounding apart from a third one are so from each other. -/
def Tight (K : Finset ℚ) : Prop :=
  ∀ a ∈ K, ∀ b ∈ K, ∀ c ∈ K, a ≤ b + tolerance → b ≤ c + tolerance → a ≤ c + tolerance

/-- Any number of steps leads no further than one, if two of them do. -/
theorem Bridged.le_of_tight (hK : Tight K) (ha : a ∈ K) (hb : b ∈ K) (h : Bridged K a b) :
    a ≤ b + tolerance := by
  induction hn : (K.filter (b < ·)).card using Nat.strongRecOn generalizing b with
  | ind n ih =>
    subst hn
    rcases le_or_gt a b with hab | hba
    · linarith [tolerance_pos]
    · obtain ⟨k, hk, hbk, hkb⟩ := h b le_rfl hba
      have hrest : Bridged K a k := fun t hkt => h t (hbk.le.trans hkt)
      exact hK a ha k hk b hb (ih _ (card_filter_lt hk hbk) hk hrest rfl) hkb

/-- Comparing two weights of `K` tells which of them is bridged down to the other. -/
theorem bridged_of_below {u w : ℚ} (hw : w ∈ K) :
    if below u w = true then Bridged K u w else Bridged K w u := by
  split
  · next h =>
    rw [below_rat] at h
    apply bridged_of_le
    linarith [tolerance_pos]
  · next h =>
    rw [below_rat] at h
    exact bridged_of_le_add hw (by linarith)

end Weight

open Weight (Bridged)

namespace NodeQueue

/-- `q` is a queue for `n` nodes after some operations, with the keys `key`, which may be any
rationals.  The nodes of `S` were made to wait and neither extracted nor cleared since; `K` has
all keys with which a node was made to wait since the queue was last cleared. -/
inductive Offered (n : Nat) : NodeQueue → (Nat → ℚ) → Finset Nat → Finset ℚ → Prop
  /-- The queue is new. -/
  | new (key : Nat → ℚ) : Offered n (empty n) key ∅ ∅
  /-- A node that does not wait gets any other key. -/
  | rekey {q : NodeQueue} {key : Nat → ℚ} {S : Finset Nat} {K : Finset ℚ} {v : Nat} (x : ℚ) :
      Offered n q key S K → v ∉ S → Offered n q (update key v x) S K
  /-- A node that was not extracted gets a key and is inserted.  If it waits, its key is not
  raised. -/
  | insert {q : NodeQueue} {key : Nat → ℚ} {S : Finset Nat} {K : Finset ℚ} {v : Nat} (x : ℚ) :
      Offered n q key S K → q.isSettled v = false → v < n → (v ∈ S → x ≤ key v) →
      Offered n (q.insert (update key v x) v) (update key v x) (Insert.insert v S)
        (Insert.insert x K)
  /-- Any node gets a key and is opened again.  If it waits, its key is not raised. -/
  | reopen {q : NodeQueue} {key : Nat → ℚ} {S : Finset Nat} {K : Finset ℚ} {v : Nat} (x : ℚ) :
      Offered n q key S K → v < n → (v ∈ S → x ≤ key v) →
      Offered n (q.reopen (update key v x) v) (update key v x) (Insert.insert v S)
        (Insert.insert x K)
  /-- A node is extracted. -/
  | popMin {q r : NodeQueue} {key : Nat → ℚ} {S : Finset Nat} {K : Finset ℚ} {v : Nat} :
      Offered n q key S K → q.popMin? key = some (v, r) → Offered n r key (S.erase v) K
  /-- The queue is cleared. -/
  | clear {q : NodeQueue} {key : Nat → ℚ} {S : Finset Nat} {K : Finset ℚ} :
      Offered n q key S K → Offered n q.clear key ∅ ∅

/-- `q` holds the nodes of `S`, and is a heap up to steps between the keys of `K`. -/
structure NearOrder (q : NodeQueue) (key : Nat → ℚ) (S : Finset Nat) (K : Finset ℚ) : Prop where
  /-- The nodes in the slots are those of `S`. -/
  waiting : ∀ v, v ∈ q.waiting ↔ v ∈ S
  /-- A node is said to wait in a slot if and only if the slot holds it. -/
  queued : ∀ v i, q.stateOf v = .queued i ↔ 1 ≤ i ∧ i ≤ q.size ∧ q.nodeAt i = v
  /-- A node leads up to the one above it in steps between keys, and is at most one step below
  for each key but its own. -/
  above : ∀ i, 2 ≤ i → i ≤ q.size →
    Bridged K (key (q.nodeAt (i / 2))) (key (q.nodeAt i)) ∧
      key (q.nodeAt (i / 2)) ≤ key (q.nodeAt i) + (K.card - 1 : ℚ) * Weight.tolerance
  /-- Something is extracted unless nothing waits. -/
  exhausted : q.popMin? key = none ↔ S = ∅
  /-- An extracted node leads down to all that wait in steps between keys, and is at most one
  step above for each key but its own. -/
  extracts : ∀ v r, q.popMin? key = some (v, r) → v ∈ S ∧ ∀ u ∈ S,
    Bridged K (key v) (key u) ∧ key v ≤ key u + (K.card - 1 : ℚ) * Weight.tolerance
  /-- If steps between keys lead no further than rounding, the order is exact up to rounding. -/
  tight : Weight.Tight K → q.isOrdered key = true ∧ ∀ v r, q.popMin? key = some (v, r) →
    ∀ u ∈ S, key v ≤ key u + Weight.tolerance

/-- What every operation keeps. -/
structure Drifts (n : Nat) (q : NodeQueue) (key : Nat → ℚ) (S : Finset Nat) (K : Finset ℚ) :
    Prop where
  /-- The nodes of `S` wait. -/
  members : Members n q S
  /-- Every node leads up to the one above it. -/
  ordered : OrderedBy (Bridged K) key q
  /-- The keys of the waiting nodes are among those that were given. -/
  given : ∀ u ∈ S, key u ∈ K

variable {n : Nat} {q r : NodeQueue} {key : Nat → ℚ} {S : Finset Nat} {K : Finset ℚ} {v : Nat}
  {x : ℚ}

/-! ### One operation -/

theorem Members.drifts_empty (h : Members n q ∅) (hsize : q.size = 0) (key : Nat → ℚ)
    (K : Finset ℚ) : Drifts n q key ∅ K where
  members := h
  ordered := orderedBy_of_size hsize
  given u hu := absurd hu (Finset.notMem_empty u)

theorem Drifts.respects (h : Drifts n q key S K) : Respects (Bridged K) key q :=
  fun _ w _ hw => Weight.bridged_of_below (h.given w ((h.members.waits w).mp hw))

theorem Drifts.rekey (h : Drifts n q key S K) (hv : v ∉ S) : Drifts n q (update key v x) S K := by
  have hkey : ∀ u ∈ S, update key v x u = key u := by
    intro u hu
    apply Function.update_of_ne
    rintro rfl
    exact hv hu
  refine ⟨h.members, fun j hj hjs => ?_, fun u hu => ?_⟩
  · rw [hkey _ ((h.members.waits _).mp ⟨j / 2, by omega, by omega, rfl⟩),
      hkey _ ((h.members.waits _).mp ⟨j, by omega, hjs, rfl⟩)]
    exact h.ordered j hj hjs
  · rw [hkey u hu]
    exact h.given u hu

theorem Drifts.reopen (h : Drifts n q key S K) (hv : v < n) (hx : v ∈ S → x ≤ key v) :
    Drifts n (q.reopen (update key v x) v) (update key v x) (Insert.insert v S)
      (Insert.insert x K) := by
  have hcap : v < q.capacity := by rwa [h.members.capacity]
  have hq := queued_reopen (update key v x) h.members.consistent hcap
  have hgiven : ∀ u ∈ Insert.insert v S, update key v x u ∈ Insert.insert x K := by
    intro u hu
    by_cases huv : u = v
    · simp [huv]
    · simp [huv, h.given u ((Finset.mem_insert.mp hu).resolve_left huv)]
  refine ⟨h.members.queued hq, ?_, hgiven⟩
  refine orderedBy_reopen h.members.consistent hcap ?_ (fun u hu => Function.update_of_ne hu x key)
    ?_ (h.ordered.mono fun a b hab => hab.mono (Finset.subset_insert x K))
  · intro u w _ hw
    apply Weight.bridged_of_below
    apply hgiven
    rw [Finset.mem_insert, ← h.members.waits]
    exact hw.symm
  · intro hw
    apply Weight.bridged_of_le
    rw [Function.update_self]
    exact hx ((h.members.waits v).mp hw)

theorem Drifts.insert (h : Drifts n q key S K) (hs : q.isSettled v = false) (hv : v < n)
    (hx : v ∈ S → x ≤ key v) :
    Drifts n (q.insert (update key v x) v) (update key v x) (Insert.insert v S)
      (Insert.insert x K) := by
  have hstate : q.stateOf v ≠ .settled := by
    rw [Ne, ← isSettled_iff, hs]
    exact Bool.false_ne_true
  rw [insert_eq_reopen _ hstate]
  exact h.reopen hv hx

theorem Drifts.popMin? (h : Drifts n q key S K) (hpop : q.popMin? key = some (v, r)) :
    Drifts n r key (S.erase v) K where
  members := h.members.extracted (extracted_popMin? h.members.consistent hpop)
  ordered := orderedBy_popMin? h.members.consistent h.respects h.ordered hpop
  given u hu := h.given u (Finset.mem_of_mem_erase hu)

/-- Every operation keeps the invariant. -/
theorem Offered.drifts (h : Offered n q key S K) : Drifts n q key S K := by
  induction h with
  | new key => exact (members_empty n).drifts_empty rfl key ∅
  | rekey x _ hv ih => exact ih.rekey hv
  | insert x _ hs hv hx ih => exact ih.insert hs hv hx
  | reopen x _ hv hx ih => exact ih.reopen hv hx
  | popMin _ hpop ih => exact ih.popMin? hpop
  | clear _ ih => exact ih.members.clear.drifts_empty rfl _ ∅

/-! ### What the invariant says about a queue -/

theorem Drifts.extracts (h : Drifts n q key S K) (hpop : q.popMin? key = some (v, r)) :
    v ∈ S ∧ ∀ u ∈ S,
      Bridged K (key v) (key u) ∧ key v ≤ key u + (K.card - 1 : ℚ) * Weight.tolerance := by
  refine ⟨(h.members.waits v).mp (extracted_popMin? h.members.consistent hpop).waited, ?_⟩
  intro u hu
  have hbridged := popMin?_before h.ordered hpop ((h.members.waits u).mpr hu)
  exact ⟨hbridged, hbridged.le (h.given u hu)⟩

theorem Drifts.isOrdered (h : Drifts n q key S K) (hK : Weight.Tight K) :
    q.isOrdered key = true := by
  refine h.members.consistent.agrees.isOrdered fun i hi his => ?_
  have hgiven : ∀ j, 1 ≤ j → j ≤ q.size → key (q.nodeAt j) ∈ K := fun j hj hjs =>
    h.given _ ((h.members.waits _).mp ⟨j, hj, hjs, rfl⟩)
  have hle := (h.ordered i hi his).le_of_tight hK (hgiven _ (by omega) (by omega))
    (hgiven i (by omega) his)
  rw [Bool.eq_false_iff, Ne, Weight.below_rat]
  linarith

theorem Drifts.nearOrder (h : Drifts n q key S K) : q.NearOrder key S K where
  waiting _ := h.members.mem_waiting_iff
  queued _ _ := h.members.consistent.stateOf_eq_queued_iff
  above i hi his := by
    have hbridged := h.ordered i hi his
    exact ⟨hbridged, hbridged.le (h.given _ ((h.members.waits _).mp ⟨i, by omega, his, rfl⟩))⟩
  exhausted := popMin?_eq_none_iff.trans h.members.size_eq_zero_iff
  extracts _ _ hpop := h.extracts hpop
  tight hK := by
    refine ⟨h.isOrdered hK, fun v r hpop u hu => ?_⟩
    obtain ⟨hv, hbridged⟩ := h.extracts hpop
    exact (hbridged u hu).1.le_of_tight hK (h.given v hv) (h.given u hu)

end NodeQueue

namespace KeyedQueue

/-- `q` is a queue for `n` nodes after some operations, each of which was given any rationals.
The nodes of `S` were inserted and neither extracted nor cleared since, `key` has the keys that
the queue holds for them, and `K` has all keys that it took over since it was last cleared.  A
key that is not smaller than that of the waiting node, or only by rounding, is passed over. -/
inductive Offered (n : Nat) : KeyedQueue ℚ → (Nat → ℚ) → Finset Nat → Finset ℚ → Prop
  /-- The queue is new. -/
  | new (key : Nat → ℚ) : Offered n (ofCapacity n) key ∅ ∅
  /-- A node is inserted with a key that counts: it did not wait, or with a larger key. -/
  | insert {q : KeyedQueue ℚ} {key : Nat → ℚ} {S : Finset Nat} {K : Finset ℚ} {v : Nat} (x : ℚ) :
      Offered n q key S K → v < n → (v ∈ S → Weight.below x (key v) = true) →
      Offered n (q.insert v x) (update key v x) (Insert.insert v S) (Insert.insert x K)
  /-- A node is inserted with a key that is passed over. -/
  | keep {q : KeyedQueue ℚ} {key : Nat → ℚ} {S : Finset Nat} {K : Finset ℚ} {v : Nat} (x : ℚ) :
      Offered n q key S K → v ∈ S → Weight.below x (key v) = false →
      Offered n (q.insert v x) key S K
  /-- An entry is extracted. -/
  | popMin {q r : KeyedQueue ℚ} {key : Nat → ℚ} {S : Finset Nat} {K : Finset ℚ}
      {top : KeyedNode ℚ} :
      Offered n q key S K → q.popMin? = some (top, r) → Offered n r key (S.erase top.node) K
  /-- The queue is emptied. -/
  | empty {q : KeyedQueue ℚ} {key : Nat → ℚ} {S : Finset Nat} {K : Finset ℚ} :
      Offered n q key S K → Offered n q.empty key ∅ ∅
  /-- The queue is emptied and forgets what was extracted. -/
  | clear {q : KeyedQueue ℚ} {key : Nat → ℚ} {S : Finset Nat} {K : Finset ℚ} :
      Offered n q key S K → Offered n q.clear key ∅ ∅

/-- `q` holds the nodes of `S` with the keys `key`, and is a heap up to steps between the keys
of `K`. -/
structure NearOrder (q : KeyedQueue ℚ) (key : Nat → ℚ) (S : Finset Nat) (K : Finset ℚ) :
    Prop where
  /-- The nodes in the slots are those of `S`. -/
  waiting : ∀ v, v ∈ q.waiting ↔ v ∈ S
  /-- A node's place is a slot if and only if the node is in it. -/
  placed : ∀ v i, q.placeOf v = .slot i ↔ 1 ≤ i ∧ i ≤ q.size ∧ (q.entryAt i).node = v
  /-- The entries have the keys `key`. -/
  keyed : ∀ i, 1 ≤ i → i ≤ q.size → (q.entryAt i).key = key (q.entryAt i).node
  /-- An entry leads up to the one above it in steps between keys, and is at most one step below
  for each key but its own. -/
  above : ∀ i, 2 ≤ i → i ≤ q.size →
    Bridged K (q.entryAt (i / 2)).key (q.entryAt i).key ∧
      (q.entryAt (i / 2)).key ≤ (q.entryAt i).key + (K.card - 1 : ℚ) * Weight.tolerance
  /-- Something is extracted unless nothing waits. -/
  exhausted : q.popMin? = none ↔ S = ∅
  /-- An extracted entry leads down to all that wait in steps between keys, and is at most one
  step above for each key but its own. -/
  extracts : ∀ top r, q.popMin? = some (top, r) → top.node ∈ S ∧ top.key = key top.node ∧
    ∀ u ∈ S, Bridged K top.key (key u) ∧ top.key ≤ key u + (K.card - 1 : ℚ) * Weight.tolerance
  /-- If steps between keys lead no further than rounding, the order is exact up to rounding. -/
  tight : Weight.Tight K → q.isOrdered = true ∧ ∀ top r, q.popMin? = some (top, r) →
    ∀ u ∈ S, top.key ≤ key u + Weight.tolerance

/-- What every operation keeps: without its keys the queue is a heap up to steps between keys,
and the keys of its entries are those of their nodes. -/
structure Drifts (n : Nat) (q : KeyedQueue ℚ) (key : Nat → ℚ) (S : Finset Nat) (K : Finset ℚ) :
    Prop where
  /-- The queue without its keys is a heap up to steps between keys. -/
  bare : NodeQueue.Drifts n q.bare key S K
  /-- Every entry has the key of its node. -/
  keyed : Keyed key q

variable {n : Nat} {q r : KeyedQueue ℚ} {key : Nat → ℚ} {S : Finset Nat} {K : Finset ℚ} {v : Nat}
  {x : ℚ}

/-- The counters are not part of what is said about a queue. -/
theorem drifts_bare {u : Usage} (h : NodeQueue.Drifts n (q.bare u) key S K) :
    NodeQueue.Drifts n q.bare key S K :=
  ⟨⟨⟨h.members.consistent.agrees, h.members.consistent.placed⟩, h.members.capacity,
    h.members.waits⟩, h.ordered, h.given⟩

/-! ### One operation -/

theorem drifts_of_size (hsize : q.size = 0) (hcap : q.capacity = n)
    (hplace : ∀ v, q.placeOf v = .unknown) (key : Nat → ℚ) (K : Finset ℚ) : Drifts n q key ∅ K :=
  ⟨(members_bare_of_size hsize hcap hplace).drifts_empty hsize key K, fun j hj hjs => by omega⟩

theorem Drifts.insert (h : Drifts n q key S K) (hv : v < n)
    (hx : v ∈ S → Weight.below x (key v) = true) :
    Drifts n (q.insert v x) (update key v x) (Insert.insert v S) (Insert.insert x K) := by
  have hself : update key v x v = x := Function.update_self v x key
  obtain ⟨⟨u, hbare⟩, hkeyed⟩ := bare_insert h.bare.members.consistent h.keyed
    (fun u hu => Function.update_of_ne hu x key)
    (fun hw => by rw [hself]; exact hx ((h.bare.members.waits v).mp hw)) {}
  rw [hself] at hbare hkeyed
  have hreopen := h.bare.reopen (x := x) hv fun hvS => by
    have := Weight.below_rat.mp (hx hvS)
    linarith [Weight.tolerance_pos]
  rw [← hbare] at hreopen
  exact ⟨drifts_bare hreopen, hkeyed⟩

theorem Drifts.keep (h : Drifts n q key S K) (hv : v ∈ S) (hx : Weight.below x (key v) = false) :
    Drifts n (q.insert v x) key S K := by
  rw [insert_of_not_below h.bare.members.consistent h.keyed ((h.bare.members.waits v).mpr hv) hx]
  exact h

theorem Drifts.popMin? {top : KeyedNode ℚ} (h : Drifts n q key S K)
    (hpop : q.popMin? = some (top, r)) : Drifts n r key (S.erase top.node) K := by
  obtain ⟨⟨u, hbare⟩, hkeyed, -⟩ := bare_popMin? h.keyed hpop {}
  exact ⟨drifts_bare (h.bare.popMin? hbare), hkeyed⟩

theorem Drifts.empty (h : Drifts n q key S K) : Drifts n q.empty key ∅ ∅ := by
  refine ⟨?_, fun j hj hjs => ?_⟩
  · rw [bare_empty]
    exact h.bare.members.clear.drifts_empty rfl key ∅
  · rw [size_empty] at hjs
    omega

theorem Drifts.clear (h : Drifts n q key S K) : Drifts n q.clear key ∅ ∅ := by
  refine drifts_of_size rfl ?_ (fun v => placeOf_clear) key ∅
  rw [capacity_clear, ← capacity_bare]
  exact h.bare.members.capacity

/-- Every operation keeps the invariant. -/
theorem Offered.drifts (h : Offered n q key S K) : Drifts n q key S K := by
  induction h with
  | new key => exact drifts_of_size rfl (capacity_ofCapacity n) (placeOf_ofCapacity n) key ∅
  | insert x _ hv hx ih => exact ih.insert hv hx
  | keep x _ hv hx ih => exact ih.keep hv hx
  | popMin _ hpop ih => exact ih.popMin? hpop
  | empty _ ih => exact ih.empty
  | clear _ ih => exact ih.clear

/-! ### What the invariant says about a queue -/

theorem Drifts.nearOrder (h : Drifts n q key S K) : q.NearOrder key S K := by
  have hbare := h.bare.nearOrder
  refine ⟨fun v => ?_, fun v i => ?_, h.keyed, fun i hi his => ?_, ?_, fun top r hpop => ?_,
    fun hK => ⟨?_, fun top r hpop => ?_⟩⟩
  · rw [← waiting_bare]
    exact hbare.waiting v
  · simpa [placeOf_eq_slot_iff] using hbare.queued v i
  · rw [h.keyed i (by omega) his, h.keyed (i / 2) (by omega) (by omega)]
    simpa using hbare.above i hi his
  · exact popMin?_eq_none_iff.trans h.bare.members.size_eq_zero_iff
  · obtain ⟨⟨u, hpop'⟩, -, htop⟩ := bare_popMin? h.keyed hpop {}
    obtain ⟨hmem, hnear⟩ := h.bare.extracts hpop'
    rw [htop]
    exact ⟨hmem, rfl, hnear⟩
  · rw [← isOrdered_bare h.keyed]
    exact h.bare.isOrdered hK
  · obtain ⟨⟨u, hpop'⟩, -, htop⟩ := bare_popMin? h.keyed hpop {}
    rw [htop]
    exact (hbare.tight hK).2 _ _ (by simpa using hpop')

end KeyedQueue

/-! ### Steps of rounding that add up -/

/-- Keys that fall by one step of rounding on every level of a heap. -/
def stairs (m v : Nat) : ℚ := (m - Nat.log 2 (v + 1) : ℚ) * Weight.tolerance

/-- A node's key is one step below that of the node in the slot above, so it stays where it is
appended. -/
theorem not_below_stairs (m : Nat) {i : Nat} (hi : 2 ≤ i) :
    Weight.below (stairs m (i - 1)) (stairs m (i / 2 - 1)) = false := by
  have hlog : Nat.log 2 (i / 2) + 1 = Nat.log 2 i := by
    rw [Nat.log_div_base]
    have := Nat.log_pos one_lt_two hi
    omega
  have hcast : (Nat.log 2 i : ℚ) = Nat.log 2 (i / 2) + 1 := by exact_mod_cast hlog.symm
  rw [Bool.eq_false_iff, Ne, Weight.below_rat, stairs, stairs, show i - 1 + 1 = i by omega,
    show i / 2 - 1 + 1 = i / 2 by omega, hcast]
  linarith

/-- A node that does not count as smaller than the one above it stays where it is appended. -/
theorem insert_eq_append_put {q : NodeQueue} {key : Nat → ℚ} {v : Nat}
    (hv : q.stateOf v = .unknown) (hstep : 1 ≤ q.size →
      Weight.below (key v) (key (q.nodeAt ((q.size + 1) / 2))) = false) :
    q.insert key v = (q.append v).put (q.size + 1) v := by
  rw [NodeQueue.insert, hv]
  show NodeQueue.siftUp key v (q.append v) (q.size + 1) = _
  rw [NodeQueue.siftUp]
  split
  · next h1 =>
    have habove : (q.append v).nodeAt ((q.size + 1) / 2) = q.nodeAt ((q.size + 1) / 2) := by
      rw [← NodeQueue.nodeAt_append (q := q) (v := v) (by omega) (by omega),
        NodeQueue.nodeAt_put (by omega) (by simp) (by omega), if_neg (by omega)]
    simp [habove, hstep (by omega)]
  · rfl

/-- Nodes with these keys stand in the slots in the order in which they are inserted. -/
theorem exists_stairs (m n : Nat) {s : Nat} (hs : s ≤ n) (hn : n ≤ 2 ^ m) :
    ∃ q K, NodeQueue.Offered n q (stairs m) (Finset.range s) K ∧ q.size = s ∧
      (∀ i, 1 ≤ i → i ≤ s → q.nodeAt i = i - 1) ∧ (∀ v, s ≤ v → q.stateOf v = .unknown) ∧
      K ⊆ (Finset.range (m + 1)).image fun l : Nat => (m - l : ℚ) * Weight.tolerance := by
  induction s with
  | zero =>
    refine ⟨NodeQueue.empty n, ∅, NodeQueue.Offered.new _, rfl, fun i hi his => by omega,
      fun v _ => NodeQueue.stateOf_empty n v, Finset.empty_subset _⟩
  | succ s ih =>
    obtain ⟨q, K, hq, hsize, hnode, hstate, hK⟩ := ih (by omega)
    have hunknown := hstate s le_rfl
    have hins := hq.insert (stairs m s) (by simp [NodeQueue.isSettled, hunknown]) (v := s)
      (by omega) (by simp)
    rw [Function.update_eq_self, ← Finset.range_add_one] at hins
    have hstep : 1 ≤ q.size →
        Weight.below (stairs m s) (stairs m (q.nodeAt ((q.size + 1) / 2))) = false := by
      intro hpos
      rw [hsize, hnode ((s + 1) / 2) (by omega) (by omega)]
      exact not_below_stairs m (i := s + 1) (by omega)
    rw [insert_eq_append_put hunknown hstep, hsize] at hins
    rw [← hsize] at hins ⊢
    refine ⟨_, _, hins, rfl, fun i hi his => ?_, fun v hv => ?_, ?_⟩
    · by_cases hlast : i = q.size + 1
      · rw [hlast, NodeQueue.nodeAt_append_last, Nat.add_sub_cancel]
      · rw [NodeQueue.nodeAt_append hi (by omega)]
        exact hnode i hi (by omega)
    · rw [NodeQueue.stateOf_put_of_ne (by omega)]
      exact hstate v (by omega)
    · rw [Finset.insert_subset_iff, Finset.mem_image]
      refine ⟨⟨Nat.log 2 (q.size + 1), ?_, rfl⟩, hK⟩
      have := Nat.log_mono_right (b := 2) (show q.size + 1 ≤ 2 ^ m by omega)
      rw [Nat.log_pow one_lt_two] at this
      simp
      omega

/-- The bound is met: `m + 1` keys are enough for an extracted key to be `m` steps above one
that waits. -/
theorem exists_drift (m : Nat) :
    ∃ n q key S K v r u, NodeQueue.Offered n q key S K ∧ K.card ≤ m + 1 ∧
      q.popMin? key = some (v, r) ∧ u ∈ S ∧ key v = key u + m * Weight.tolerance := by
  have hpos := Nat.pow_pos (n := m) (show 0 < 2 by decide)
  obtain ⟨q, K, hq, hsize, hnode, -, hK⟩ := exists_stairs m (2 ^ m) le_rfl le_rfl
  have hpop := NodeQueue.popMin?_of_pos (q := q) (by omega) (stairs m)
  rw [hnode 1 le_rfl (by omega)] at hpop
  refine ⟨2 ^ m, q, stairs m, _, K, 0, _, 2 ^ m - 1, hq, ?_, hpop, by simp, ?_⟩
  · exact (Finset.card_le_card hK).trans (Finset.card_image_le.trans (by simp))
  · simp [stairs, Nat.sub_add_cancel hpos, Nat.log_pow one_lt_two]

/-- Keys of which the first counts as equal to the second one and that to the fourth one, but
not the first to the fourth. -/
def slide (v : Nat) : ℚ :=
  [100000000018, 100000000009, 500000000000, 100000000000, 0].getD v 0 / 10000000000

/-- The queue into which the first `n` of five nodes were inserted with these keys. -/
def slideQueue (n : Nat) : NodeQueue :=
  (List.range n).foldl (fun q v => q.insert slide v) (NodeQueue.empty 5)

/-- The same for a queue with its own keys. -/
def slideEntries (n : Nat) : KeyedQueue ℚ :=
  (List.range n).foldl (fun q v => q.insert v (slide v)) (KeyedQueue.ofCapacity 5)

theorem offered_slideQueue {n : Nat} (hn : n ≤ 5) :
    NodeQueue.Offered 5 (slideQueue n) slide (Finset.range n) ((Finset.range n).image slide) := by
  induction n with
  | zero => exact NodeQueue.Offered.new slide
  | succ n ih =>
    have hunsettled : ∀ m < 5, (slideQueue m).isSettled m = false := by decide +kernel
    have hins := (ih (by omega)).insert (slide n) (hunsettled n (by omega)) (by omega) (by simp)
    rw [Function.update_eq_self, ← Finset.image_insert, ← Finset.range_add_one] at hins
    simpa [slideQueue, List.range_succ] using hins

theorem offered_slideEntries {n : Nat} (hn : n ≤ 5) :
    KeyedQueue.Offered 5 (slideEntries n) slide (Finset.range n)
      ((Finset.range n).image slide) := by
  induction n with
  | zero => exact KeyedQueue.Offered.new slide
  | succ n ih =>
    have hins := (ih (by omega)).insert (v := n) (slide n) (by omega) (by simp)
    rw [Function.update_eq_self, ← Finset.image_insert, ← Finset.range_add_one] at hins
    simpa [slideEntries, List.range_succ] using hins

/-- Whatever keys it is given, a queue of either kind that was given `k` of them is a heap up to
`k - 1` steps of rounding, and an extracted key leads down to each one that waits in steps
between given keys.  Where these never lead further than rounding, one step is enough. -/
theorem nearOrder_of_offered (n : Nat) (key : Nat → ℚ) (S : Finset Nat) (K : Finset ℚ) :
    (∀ q, NodeQueue.Offered n q key S K → NodeQueue.NearOrder q key S K) ∧
      ∀ q, KeyedQueue.Offered n q key S K → KeyedQueue.NearOrder q key S K :=
  ⟨fun _ h => h.drifts.nearOrder, fun _ h => h.drifts.nearOrder⟩

/-- Five nodes wait, in an order that is no heap. -/
theorem nearOrder_of_offered_slide :
    (slideQueue 5).NearOrder slide (Finset.range 5) ((Finset.range 5).image slide) ∧
      (slideEntries 5).NearOrder slide (Finset.range 5) ((Finset.range 5).image slide) :=
  ⟨(nearOrder_of_offered 5 _ _ _).1 _ (offered_slideQueue le_rfl),
    (nearOrder_of_offered 5 _ _ _).2 _ (offered_slideEntries le_rfl)⟩

/-- Of four nodes one comes out whose key is larger than another one's by more than rounding.
After a fifth one is inserted, a node is smaller than the one above it by more than rounding, in
queues of both kinds. -/
theorem drifts_beyond_rounding :
    (NodeQueue.Offered 5 (slideQueue 4) slide (Finset.range 4) ((Finset.range 4).image slide) ∧
      ((slideQueue 4).popMin? slide).map Prod.fst = some 0 ∧ 3 ∈ (slideQueue 4).waiting ∧
        slide 3 + Weight.tolerance < slide 0) ∧
    (NodeQueue.Offered 5 (slideQueue 5) slide (Finset.range 5) ((Finset.range 5).image slide) ∧
      (slideQueue 5).isOrdered slide = false) ∧
    KeyedQueue.Offered 5 (slideEntries 5) slide (Finset.range 5) ((Finset.range 5).image slide) ∧
      (slideEntries 5).isOrdered = false :=
  ⟨⟨offered_slideQueue (by decide), by decide +kernel, by decide +kernel, by decide +kernel⟩,
    ⟨offered_slideQueue le_rfl, by decide +kernel⟩, offered_slideEntries le_rfl,
    by decide +kernel⟩

end SteinerSearch
