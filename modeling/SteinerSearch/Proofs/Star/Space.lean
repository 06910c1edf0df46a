import SteinerSearch.Proofs.Queue.Histories
import SteinerSearch.Star.Space

/-!
# Tables of the star search

What the writing operations of a star search change, and what its tables hold before
a search.

## Main definitions

* `StarSpace.Sized w` — all tables are for the same nodes.
* `StarSpace.Ready w` — and no search has left anything behind.
* `StarSpace.Enqueued w v w'`, `StarSpace.Dequeued w v w'`, `StarSpace.Labeled w v d b w'` —
  a node starts to wait, is taken out, or is labeled and waits.
* `StarSpace.Ordered w` — the queue is in the order of the distances.

## Main results

* `StarSpace.enqueued`, `StarSpace.dequeued` — which nodes wait, whatever the weights are.
* `StarSpace.scanned_reset` — the number of scans outlives the tables.
* `StarSpace.Ordered.enqueue`, `StarSpace.Ordered.popMin?` — the nearest node is taken out.
-/

namespace SteinerSearch

namespace StarSpace

variable {α : Type}

/-- All tables are for the same nodes. -/
structure Sized (w : StarSpace α) : Prop where
  queue : w.queue.capacity = w.capacity
  base : w.base.size = w.capacity
  prev : w.prev.size = w.capacity
  slot : w.slot.size = w.capacity

/-- The tables have one size, and no search has left anything behind. -/
structure Ready [Weight α] (w : StarSpace α) : Prop where
  sized : w.Sized
  pristine : w.isPristine = true

/-! ### Before a search -/

theorem fresh_ready (n : Nat) : (fresh n : StarSpace ℚ).Ready := by
  refine ⟨⟨by simp [fresh, capacity, KeyedQueue.ofCapacity, KeyedQueue.capacity],
    by simp [fresh, capacity], by simp [fresh, capacity], by simp [fresh, capacity]⟩, ?_⟩
  have hblank : ∀ v, (fresh n : StarSpace ℚ).isBlankAt v = true := by
    intro v
    simp only [isBlankAt, distOf, baseOf, prevOf, slotOf, KeyedQueue.placeOf,
      KeyedQueue.ofCapacity, fresh, Array.getD_replicate]
    decide
  simp only [isPristine, Bool.and_eq_true, List.all_eq_true]
  exact ⟨⟨rfl, rfl⟩, fun v _ => hblank v⟩

section Ready

variable [Weight α] {w : StarSpace α}

theorem Ready.size_queue (hw : w.Ready) : w.queue.size = 0 := by
  have h := hw.pristine
  simp only [isPristine, Bool.and_eq_true, beq_iff_eq] at h
  exact h.1.2

theorem Ready.isBlankAt (hw : w.Ready) {v : Nat} (hv : v < w.capacity) : w.isBlankAt v = true := by
  have h := hw.pristine
  simp only [isPristine, Bool.and_eq_true, List.all_eq_true] at h
  exact h.2 v (List.mem_range.mpr hv)

theorem Ready.slotOf_eq (hw : w.Ready) (v : Nat) : w.slotOf v = none := by
  by_cases hv : v < w.capacity
  · have h := hw.isBlankAt hv
    simp only [StarSpace.isBlankAt, Bool.and_eq_true, Option.isNone_iff_eq_none] at h
    exact h.1.2
  · exact Array.getD_of_size_le (by rw [hw.sized.slot]; omega) _

theorem Ready.baseOf_eq (hw : w.Ready) (v : Nat) : w.baseOf v = none := by
  by_cases hv : v < w.capacity
  · have h := hw.isBlankAt hv
    simp only [StarSpace.isBlankAt, Bool.and_eq_true, Option.isNone_iff_eq_none] at h
    exact h.1.1.1.2
  · exact Array.getD_of_size_le (by rw [hw.sized.base]; omega) _

theorem Ready.placeOf_eq (hw : w.Ready) (v : Nat) : w.queue.placeOf v = .unknown := by
  by_cases hv : v < w.capacity
  · have h := hw.isBlankAt hv
    simp only [StarSpace.isBlankAt, Bool.and_eq_true, decide_eq_true_eq] at h
    exact h.2
  · refine Array.getD_of_size_le ?_ _
    have := hw.sized.queue
    unfold KeyedQueue.capacity at this
    omega

end Ready

/-- The number of scans of an earlier search is not looked at. -/
theorem Ready.setScanned [Weight α] {w : StarSpace α} (hw : w.Ready) (n : Nat) :
    { w with scanned := n }.Ready :=
  ⟨⟨hw.sized.queue, hw.sized.base, hw.sized.prev, hw.sized.slot⟩, hw.pristine⟩

/-- Over the rationals a blank node is as far away as can be. -/
theorem Ready.distOf_eq {w : StarSpace ℚ} (hw : w.Ready) (v : Nat) :
    w.distOf v = Weight.faraway := by
  by_cases hv : v < w.capacity
  · have h := hw.isBlankAt hv
    simp only [StarSpace.isBlankAt, Weight.same, Bool.and_eq_true, decide_eq_true_eq] at h
    exact le_antisymm h.1.1.1.1.1 h.1.1.1.1.2
  · exact Array.getD_of_size_le (Nat.le_of_not_lt hv) _

/-! ### Labels and slots -/

section Write

variable {w : StarSpace α} {u v i b p : Nat} {d : α}

theorem slotOf_setSlot_self (hw : w.Sized) (hv : v < w.capacity) :
    (w.setSlot v i).slotOf v = some i :=
  Array.getD_setIfInBounds_self (by rwa [hw.slot]) _ _

theorem slotOf_setSlot_of_ne (hne : u ≠ v) : (w.setSlot v i).slotOf u = w.slotOf u :=
  Array.getD_setIfInBounds_of_ne hne _ _

theorem Sized.setSlot (hw : w.Sized) : (w.setSlot v i).Sized :=
  ⟨hw.queue, hw.base, hw.prev, (Array.size_setIfInBounds ..).trans hw.slot⟩

theorem capacity_setDist : (w.setDist v d).capacity = w.capacity := by
  simp [StarSpace.setDist, capacity]

theorem Sized.setDist (hw : w.Sized) : (w.setDist v d).Sized := by
  refine ⟨?_, ?_, ?_, ?_⟩ <;> rw [capacity_setDist]
  · exact hw.queue
  · exact hw.base
  · exact hw.prev
  · exact hw.slot

variable [Weight α]

theorem distOf_setDist_self (hv : v < w.capacity) : (w.setDist v d).distOf v = d :=
  Array.getD_setIfInBounds_self hv _ _

theorem distOf_setDist_of_ne (hne : u ≠ v) : (w.setDist v d).distOf u = w.distOf u :=
  Array.getD_setIfInBounds_of_ne hne _ _

theorem capacity_label : (w.label v d b p).capacity = w.capacity := by
  simp [label, capacity]

theorem distOf_label_self (hv : v < w.capacity) : (w.label v d b p).distOf v = d :=
  Array.getD_setIfInBounds_self hv _ _

theorem distOf_label_of_ne (hne : u ≠ v) : (w.label v d b p).distOf u = w.distOf u :=
  Array.getD_setIfInBounds_of_ne hne _ _

theorem baseOf_label_self (hw : w.Sized) (hv : v < w.capacity) :
    (w.label v d b p).baseOf v = some b :=
  Array.getD_setIfInBounds_self (by rwa [hw.base]) _ _

theorem baseOf_label_of_ne (hne : u ≠ v) : (w.label v d b p).baseOf u = w.baseOf u :=
  Array.getD_setIfInBounds_of_ne hne _ _

theorem Sized.label (hw : w.Sized) : (w.label v d b p).Sized := by
  refine ⟨?_, ?_, ?_, ?_⟩ <;> rw [capacity_label]
  · exact hw.queue
  · exact (Array.size_setIfInBounds ..).trans hw.base
  · exact (Array.size_setIfInBounds ..).trans hw.prev
  · exact hw.slot

/-- `w'` is `w` with the slot `i` and the distance `d` given to `v`. -/
structure Placed (w : StarSpace α) (v i : Nat) (d : α) (w' : StarSpace α) : Prop where
  sized : w'.Sized
  capacity : w'.capacity = w.capacity
  queue : w'.queue = w.queue
  slot_self : w'.slotOf v = some i
  slot_ne : ∀ u, u ≠ v → w'.slotOf u = w.slotOf u
  dist_self : w'.distOf v = d
  dist_ne : ∀ u, u ≠ v → w'.distOf u = w.distOf u

/-- A node that is labeled and gets a slot. -/
theorem placed_label (hw : w.Sized) (hv : v < w.capacity) :
    Placed w v i d ((w.label v d b p).setSlot v i) where
  sized := hw.label.setSlot
  capacity := capacity_label (b := b) (p := p) (d := d)
  queue := rfl
  slot_self := slotOf_setSlot_self hw.label (by rwa [capacity_label])
  slot_ne _ hu := slotOf_setSlot_of_ne hu
  dist_self := distOf_label_self (b := b) (p := p) hv
  dist_ne _ hu := distOf_label_of_ne (b := b) (p := p) hu

/-- A node whose slot and distance are replaced. -/
theorem placed_setDist (hw : w.Sized) (hv : v < w.capacity) :
    Placed w v i d ((w.setSlot v i).setDist v d) where
  sized := hw.setSlot.setDist
  capacity := capacity_setDist
  queue := rfl
  slot_self := slotOf_setSlot_self hw hv
  slot_ne _ hu := slotOf_setSlot_of_ne hu
  dist_self := distOf_setDist_self hv
  dist_ne _ hu := distOf_setDist_of_ne hu

/-- Every slot is the new one or an old one. -/
theorem Placed.slot_cases {w' : StarSpace α} (h : Placed w v i d w') {m j : Nat}
    (hm : w'.slotOf m = some j) : m = v ∧ j = i ∨ m ≠ v ∧ w.slotOf m = some j := by
  by_cases hmv : m = v
  · rw [hmv, h.slot_self] at hm
    exact Or.inl ⟨hmv, (Option.some.inj hm).symm⟩
  · rw [h.slot_ne m hmv] at hm
    exact Or.inr ⟨hmv, hm⟩

end Write

/-! ### The queue -/

section Queue

variable [Weight α] {w w' : StarSpace α} {v : Nat}

/-- `v` waits. -/
def Waits (w : StarSpace α) (v : Nat) : Prop := w.queue.bare.Waits v

/-- `v` was taken out of the queue. -/
def Removed (w : StarSpace α) (v : Nat) : Prop := w.queue.placeOf v = .removed

omit [Weight α] in
theorem removed_iff : w.Removed v ↔ w.queue.bare.isSettled v = true :=
  KeyedQueue.isSettled_bare.symm

omit [Weight α] in
theorem not_waits_of_removed (hq : w.queue.bare.Consistent) (hv : w.Removed v) : ¬ w.Waits v :=
  hq.not_waits_of_isSettled (removed_iff.mp hv)

/-- `w'` is `w` with `v` made to wait. -/
structure Enqueued (w : StarSpace α) (v : Nat) (w' : StarSpace α) : Prop where
  sized : w'.Sized
  consistent : w'.queue.bare.Consistent
  waits : ∀ u, w'.Waits u ↔ w.Waits u ∨ u = v
  removed : ∀ u, w'.Removed u ↔ w.Removed u

/-- `w'` is `w` without `v`, which waited, in its queue. -/
structure Dequeued (w : StarSpace α) (v : Nat) (w' : StarSpace α) : Prop where
  sized : w'.Sized
  consistent : w'.queue.bare.Consistent
  waited : w.Waits v
  waits : ∀ u, w'.Waits u ↔ w.Waits u ∧ u ≠ v
  removed : ∀ u, w'.Removed u ↔ w.Removed u ∨ u = v
  dist : ∀ u, w'.distOf u = w.distOf u
  base : ∀ u, w'.baseOf u = w.baseOf u
  slot : ∀ u, w'.slotOf u = w.slotOf u

/-- `w'` is `w` with `v` labeled with the distance `d` and the base `b`, and made to wait. -/
structure Labeled (w : StarSpace α) (v : Nat) (d : α) (b : Nat) (w' : StarSpace α) : Prop
    extends Enqueued w v w' where
  dist_self : w'.distOf v = d
  dist_ne : ∀ u, u ≠ v → w'.distOf u = w.distOf u
  base_self : w'.baseOf v = some b
  base_ne : ∀ u, u ≠ v → w'.baseOf u = w.baseOf u
  slot : ∀ u, w'.slotOf u = w.slotOf u

/-- A node that was not taken out can be made to wait, under any key. -/
theorem enqueued (hw' : w'.Sized) (hqueue : w'.queue = w.queue) (hq : w.queue.bare.Consistent)
    (hv : v < w'.capacity) (hopen : ¬ w.Removed v) (x : α) : Enqueued w v (w'.enqueue v x) := by
  have hnew : (w'.enqueue v x).queue = w.queue.insert v x := by rw [StarSpace.enqueue, hqueue]
  have hqueued := KeyedQueue.queued_insert_any hq (by rwa [← hqueue, hw'.queue]) x
  rw [← hnew] at hqueued
  have hsettled : w.queue.bare.stateOf v ≠ .settled := fun hs =>
    hopen (removed_iff.mpr (NodeQueue.isSettled_iff.mpr hs))
  have hcapacity := hqueued.capacity
  rw [KeyedQueue.capacity_bare, KeyedQueue.capacity_bare] at hcapacity
  rw [← hqueue] at hcapacity
  refine ⟨⟨hcapacity.trans hw'.queue, hw'.base, hw'.prev, hw'.slot⟩, hqueued.consistent,
    hqueued.waits, fun u => ?_⟩
  rw [removed_iff, removed_iff]
  exact Bool.eq_iff_iff.mp (hqueued.isSettled_eq hq hsettled u)

theorem dequeued {top : KeyedNode α} {r : KeyedQueue α} (hw : w.Sized)
    (hq : w.queue.bare.Consistent) (h : w.queue.popMin? = some (top, r)) :
    Dequeued w top.node { w with queue := r } := by
  have hex := KeyedQueue.extracted_popMin?_any hq h
  have hcapacity := hex.capacity
  rw [KeyedQueue.capacity_bare, KeyedQueue.capacity_bare] at hcapacity
  refine ⟨⟨hcapacity.trans hw.queue, hw.base, hw.prev, hw.slot⟩, hex.consistent, hex.waited,
    hex.waits, fun u => ?_, fun _ => rfl, fun _ => rfl, fun _ => rfl⟩
  rw [removed_iff, removed_iff]
  exact hex.isSettled_iff hq u

/-- What waited had not been taken out. -/
theorem Dequeued.not_removed (h : Dequeued w v w') (hq : w.queue.bare.Consistent) :
    ¬ w.Removed v := fun hrem => not_waits_of_removed hq hrem h.waited

theorem Ready.consistent (hw : w.Ready) : w.queue.bare.Consistent := by
  refine NodeQueue.consistent_of_size (by rw [KeyedQueue.size_bare, hw.size_queue]) fun v => ?_
  left
  rw [KeyedQueue.stateOf_bare, hw.placeOf_eq]
  rfl

theorem Ready.not_waits (hw : w.Ready) (v : Nat) : ¬ w.Waits v :=
  NodeQueue.not_waits_of_size (by rw [KeyedQueue.size_bare, hw.size_queue]) v

theorem Ready.not_removed (hw : w.Ready) (v : Nat) : ¬ w.Removed v := by
  rw [Removed, hw.placeOf_eq]
  exact fun h => Place.noConfusion h

end Queue

/-! ### After a search -/

/-- Restoring the tables does not touch the number of scans. -/
theorem scanned_reset [Weight α] (w : StarSpace α) : w.reset.scanned = w.scanned := by
  have hrestore : ∀ (vs : List Nat) (w : StarSpace α),
      (vs.foldl restore w).scanned = w.scanned := by
    intro vs
    induction vs with
    | nil => exact fun w => rfl
    | cons v vs ih => exact fun w => ih (w.restore v)
  unfold reset
  dsimp only
  rw [← Array.foldl_toList]
  exact hrestore _ _

/-! ### The order of the queue -/

section Order

variable {w w' : StarSpace ℚ} {v : Nat}

/-- The queue is a heap of the waiting nodes, with their distances as keys. -/
def Ordered (w : StarSpace ℚ) : Prop :=
  ∃ S, KeyedQueue.Holds w.capacity w.queue w.distOf S

theorem Ready.ordered (hw : w.Ready) : w.Ordered :=
  ⟨∅, KeyedQueue.holds_of_size hw.size_queue hw.sized.queue hw.placeOf_eq w.distOf⟩

/-- A node whose distance alone was changed, and not raised, is made to wait under it. -/
theorem Ordered.enqueue (h : w.Ordered) (hqueue : w'.queue = w.queue)
    (hcap : w'.capacity = w.capacity) (hv : v < w.capacity)
    (hne : ∀ u, u ≠ v → w'.distOf u = w.distOf u)
    (hle : w.Waits v → w'.distOf v ≤ w.distOf v)
    (hapart : ∀ u, Weight.Apart (w'.distOf v) (w.distOf u)) :
    (w'.enqueue v (w'.distOf v)).Ordered := by
  obtain ⟨S, hS⟩ := h
  have hinsert := hS.insert hv (x := w'.distOf v) fun u _ => hapart u
  have hkey : Function.update w.distOf v
      (if v ∈ S then min (w'.distOf v) (w.distOf v) else w'.distOf v) = w'.distOf := by
    funext u
    by_cases hu : u = v
    · subst hu
      rw [Function.update_self]
      split
      · next hmem => exact min_eq_left (hle ((hS.bare.waits u).mpr hmem))
      · rfl
    · rw [Function.update_of_ne hu, hne u hu]
  rw [hkey, ← hqueue, ← hcap] at hinsert
  exact ⟨_, hinsert⟩

/-- The node that is taken out has the least distance of all that wait, which is its key. -/
theorem Ordered.popMin? {top : KeyedNode ℚ} {r : KeyedQueue ℚ} (h : w.Ordered)
    (hpop : w.queue.popMin? = some (top, r)) :
    { w with queue := r }.Ordered ∧ top.key = w.distOf top.node ∧
      ∀ u, w.Waits u → w.distOf top.node ≤ w.distOf u := by
  obtain ⟨S, hS⟩ := h
  obtain ⟨⟨_, hbare⟩, -, hkey⟩ := KeyedQueue.bare_popMin? hS.keyed hpop {}
  exact ⟨⟨_, hS.popMin? hpop⟩, hkey, fun u hu => NodeQueue.popMin?_le hS.bare.ordered hbare hu⟩

end Order

end StarSpace

end SteinerSearch
