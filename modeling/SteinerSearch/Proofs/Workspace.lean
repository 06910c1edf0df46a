import SteinerSearch.Proofs.Queue.Operations
import SteinerSearch.Proofs.TraceLists
import SteinerSearch.Workspace

/-!
# Tables of a workspace

What the writing operations of a workspace change, and what a workspace holds
before a search.

## Main definitions

* `Workspace.Sized w` — all tables are for the same nodes.
* `Workspace.Traced w` — the traces are for the same nodes, too.
* `Workspace.Ready w` — the tables have one size, and no search has left anything
  behind.
* `Workspace.Relabeled w m d p w'` — `w'` is `w` with a new label of `m`, which waits.

## Main results

* `Workspace.Ready.isVisited_eq` and its companions — what a search starts from.
* `Workspace.distOf_setLabel_of_ne` and its companions — a label changes one node.
-/

namespace SteinerSearch

namespace Workspace

variable {α : Type}

/-- All tables are for the same nodes. -/
structure Sized (w : Workspace α) : Prop where
  pred : w.pred.size = w.capacity
  queue : w.queue.capacity = w.capacity
  visited : w.visited.size = w.capacity
  claimed : w.claimed.size = w.capacity
  credited : w.credited.Sized w.capacity
  creditedOther : w.creditedOther.Sized w.capacity
  traversed : w.traversed.Sized w.capacity

/-- The traces are for the nodes of the tables, and fit into their rows. -/
structure Traced (w : Workspace α) : Prop where
  credited : w.credited.WellFormed w.capacity
  creditedOther : w.creditedOther.WellFormed w.capacity
  traversed : w.traversed.WellFormed w.capacity

/-- The tables have one size, and no search has left anything behind. -/
structure Ready [Weight α] (w : Workspace α) : Prop where
  sized : w.Sized
  pristine : w.isPristine = true

/-! ### Before a search -/

theorem capacity_fresh [Weight α] (n capacity : Nat) :
    (fresh n capacity : Workspace α).capacity = n := Array.size_replicate

theorem sized_fresh [Weight α] (n capacity : Nat) :
    (fresh n capacity : Workspace α).Sized := by
  refine ⟨?_, ?_, ?_, ?_, ?_, ?_, ?_⟩ <;> rw [capacity_fresh]
  · exact Array.size_replicate
  · exact NodeQueue.capacity_empty n
  · exact Array.size_replicate
  · exact Array.size_replicate
  · exact TraceLists.sized_empty n capacity
  · exact TraceLists.sized_empty n capacity
  · exact TraceLists.sized_empty n capacity

theorem fresh_ready (n capacity : Nat) : (fresh n capacity : Workspace ℚ).Ready := by
  refine ⟨sized_fresh n capacity, ?_⟩
  have hblank : ∀ v, (fresh n capacity : Workspace ℚ).isBlankAt v = true := by
    intro v
    simp only [isBlankAt, distOf, predOf, isVisited, isClaimed, NodeQueue.stateOf, NodeQueue.empty,
      TraceLists.fillOf, TraceLists.empty, fresh, Array.getD_replicate]
    decide
  simp only [isPristine, Bool.and_eq_true, List.all_eq_true]
  exact ⟨⟨rfl, rfl⟩, fun v _ => hblank v⟩

section Ready

variable [Weight α] {w : Workspace α}

theorem Ready.isBlankAt (hw : w.Ready) {v : Nat} (hv : v < w.capacity) : w.isBlankAt v = true := by
  have h := hw.pristine
  simp only [isPristine, Bool.and_eq_true, List.all_eq_true] at h
  exact h.2 v (List.mem_range.mpr hv)

theorem Ready.size_queue (hw : w.Ready) : w.queue.size = 0 := by
  have h := hw.pristine
  simp only [isPristine, Bool.and_eq_true, beq_iff_eq] at h
  exact h.1.2

theorem Ready.isVisited_eq (hw : w.Ready) (v : Nat) : w.isVisited v = false := by
  by_cases hv : v < w.capacity
  · have h := hw.isBlankAt hv
    simp only [Workspace.isBlankAt, Bool.and_eq_true, Bool.not_eq_true'] at h
    exact h.1.1.1.1.1.2
  · exact Array.getD_of_size_le (by rw [hw.sized.visited]; omega) _

theorem Ready.stateOf_eq (hw : w.Ready) (v : Nat) : w.queue.stateOf v = .unknown := by
  by_cases hv : v < w.capacity
  · have h := hw.isBlankAt hv
    simp only [Workspace.isBlankAt, Bool.and_eq_true, decide_eq_true_eq] at h
    exact h.1.1.1.2
  · by_contra h
    have := NodeQueue.lt_capacity_of_stateOf h
    rw [hw.sized.queue] at this
    exact hv this

theorem Ready.credited_eq (hw : w.Ready) (v : Nat) : w.credited.fillOf v = .holding 0 := by
  by_cases hv : v < w.capacity
  · have h := hw.isBlankAt hv
    simp only [Workspace.isBlankAt, Bool.and_eq_true, decide_eq_true_eq] at h
    exact h.1.1.2
  · exact Array.getD_of_size_le (by rw [hw.sized.credited.fill]; omega) _

theorem Ready.creditedOther_eq (hw : w.Ready) (v : Nat) :
    w.creditedOther.fillOf v = .holding 0 := by
  by_cases hv : v < w.capacity
  · have h := hw.isBlankAt hv
    simp only [Workspace.isBlankAt, Bool.and_eq_true, decide_eq_true_eq] at h
    exact h.1.2
  · exact Array.getD_of_size_le (by rw [hw.sized.creditedOther.fill]; omega) _

theorem Ready.traversed_eq (hw : w.Ready) (v : Nat) :
    w.traversed.fillOf v = .holding 0 := by
  by_cases hv : v < w.capacity
  · have h := hw.isBlankAt hv
    simp only [Workspace.isBlankAt, Bool.and_eq_true, decide_eq_true_eq] at h
    exact h.2
  · exact Array.getD_of_size_le (by rw [hw.sized.traversed.fill]; omega) _

theorem Ready.isClaimed_eq (hw : w.Ready) (v : Nat) : w.isClaimed v = false := by
  by_cases hv : v < w.capacity
  · have h := hw.isBlankAt hv
    simp only [Workspace.isBlankAt, Bool.and_eq_true, Bool.not_eq_true'] at h
    exact h.1.1.1.1.2
  · exact Array.getD_of_size_le (by rw [hw.sized.claimed]; omega) _

theorem Ready.get?_eq (hw : w.Ready) (v : Nat) :
    w.credited.get? v = some [] ∧ w.traversed.get? v = some [] := by
  rw [TraceLists.get?_of_holding (hw.credited_eq v), TraceLists.get?_of_holding (hw.traversed_eq v)]
  exact ⟨rfl, rfl⟩

/-- Before a search all traces are empty. -/
theorem Ready.traced (hw : w.Ready) : w.Traced :=
  ⟨hw.sized.credited.wellFormed_of_empty hw.credited_eq,
    hw.sized.creditedOther.wellFormed_of_empty hw.creditedOther_eq,
    hw.sized.traversed.wellFormed_of_empty hw.traversed_eq⟩

theorem Ready.isSettled_eq (hw : w.Ready) (v : Nat) : w.isSettled v = false := by
  rw [Bool.eq_false_iff, isSettled, Ne, NodeQueue.isSettled_iff, hw.stateOf_eq]
  exact NodeState.noConfusion

theorem Ready.consistent (hw : w.Ready) : w.queue.Consistent :=
  NodeQueue.consistent_of_size hw.size_queue fun v => Or.inl (hw.stateOf_eq v)

end Ready

/-- Over the rationals a blank node is as far away as can be. -/
theorem Ready.distOf_eq {w : Workspace ℚ} (hw : w.Ready) (v : Nat) :
    w.distOf v = Weight.faraway := by
  by_cases hv : v < w.capacity
  · have h := hw.isBlankAt hv
    simp only [Workspace.isBlankAt, Weight.same, Bool.and_eq_true, decide_eq_true_eq] at h
    exact le_antisymm h.1.1.1.1.1.1.1.1 h.1.1.1.1.1.1.1.2
  · exact Array.getD_of_size_le (Nat.le_of_not_lt hv) _

/-! ### Labels -/

section Labels

variable {w : Workspace α} {u v : Nat} {d : α} {p : Option Nat}

@[simp] theorem capacity_setLabel : (w.setLabel v d p).capacity = w.capacity := by
  unfold setLabel visit
  split <;> simp [Workspace.capacity]

@[simp] theorem queue_setLabel : (w.setLabel v d p).queue = w.queue := by
  unfold setLabel visit
  split <;> rfl

@[simp] theorem claimed_setLabel : (w.setLabel v d p).claimed = w.claimed := by
  unfold setLabel visit
  split <;> rfl

@[simp] theorem credited_setLabel : (w.setLabel v d p).credited = w.credited := by
  unfold setLabel visit
  split <;> rfl

@[simp] theorem creditedOther_setLabel : (w.setLabel v d p).creditedOther = w.creditedOther := by
  unfold setLabel visit
  split <;> rfl

@[simp] theorem traversed_setLabel : (w.setLabel v d p).traversed = w.traversed := by
  unfold setLabel visit
  split <;> rfl

theorem dist_setLabel : (w.setLabel v d p).dist = w.dist.setIfInBounds v d := by
  unfold setLabel visit
  split <;> rfl

theorem pred_setLabel : (w.setLabel v d p).pred = w.pred.setIfInBounds v p := by
  unfold setLabel visit
  split <;> rfl

theorem visited_setLabel :
    (w.setLabel v d p).visited =
      if w.isVisited v then w.visited else w.visited.setIfInBounds v true := by
  unfold setLabel visit
  split <;> rfl

theorem Sized.setLabel (hw : w.Sized) : (w.setLabel v d p).Sized := by
  refine ⟨?_, ?_, ?_, ?_, ?_, ?_, ?_⟩ <;> rw [capacity_setLabel]
  · rw [pred_setLabel, Array.size_setIfInBounds, hw.pred]
  · rw [queue_setLabel, hw.queue]
  · rw [visited_setLabel]
    split
    · exact hw.visited
    · rw [Array.size_setIfInBounds, hw.visited]
  · rw [claimed_setLabel, hw.claimed]
  · rw [credited_setLabel]
    exact hw.credited
  · rw [creditedOther_setLabel]
    exact hw.creditedOther
  · rw [traversed_setLabel]
    exact hw.traversed

theorem predOf_setLabel_self (hw : w.Sized) (hv : v < w.capacity) :
    (w.setLabel v d p).predOf v = p := by
  rw [predOf, pred_setLabel]
  exact Array.getD_setIfInBounds_self (by rwa [hw.pred]) _ _

theorem predOf_setLabel_of_ne (hne : u ≠ v) : (w.setLabel v d p).predOf u = w.predOf u := by
  rw [predOf, pred_setLabel]
  exact Array.getD_setIfInBounds_of_ne hne _ _

theorem isVisited_setLabel_self (hw : w.Sized) (hv : v < w.capacity) :
    (w.setLabel v d p).isVisited v = true := by
  rw [isVisited, visited_setLabel]
  split
  · next h => exact h
  · exact Array.getD_setIfInBounds_self (by rwa [hw.visited]) _ _

theorem isVisited_setLabel_of_ne (hne : u ≠ v) :
    (w.setLabel v d p).isVisited u = w.isVisited u := by
  rw [isVisited, visited_setLabel]
  split
  · rfl
  · exact Array.getD_setIfInBounds_of_ne hne _ _

theorem Traced.setLabel (hw : w.Traced) :
    (w.setLabel v d p).Traced := by
  constructor
  · rw [credited_setLabel, capacity_setLabel]
    exact hw.credited
  · rw [creditedOther_setLabel, capacity_setLabel]
    exact hw.creditedOther
  · rw [traversed_setLabel, capacity_setLabel]
    exact hw.traversed

/-- A node that was touched stays so. -/
theorem isVisited_setLabel_of_visited (hu : w.isVisited u = true) :
    (w.setLabel v d p).isVisited u = true := by
  by_cases huv : u = v
  · rw [huv] at hu ⊢
    rw [isVisited, visited_setLabel, if_pos hu]
    exact hu
  · rwa [isVisited_setLabel_of_ne huv]

variable [Weight α]

theorem distOf_setLabel_self (hv : v < w.capacity) : (w.setLabel v d p).distOf v = d := by
  rw [distOf, dist_setLabel]
  exact Array.getD_setIfInBounds_self hv _ _

theorem distOf_setLabel_of_ne (hne : u ≠ v) : (w.setLabel v d p).distOf u = w.distOf u := by
  rw [distOf, dist_setLabel]
  exact Array.getD_setIfInBounds_of_ne hne _ _

end Labels

/-! ### The queue of a workspace -/

section Queue

variable [Weight α] {w w' : Workspace α} {u v : Nat}

@[simp] theorem capacity_enqueue : (w.enqueue v).capacity = w.capacity := rfl

@[simp] theorem claimed_enqueue : (w.enqueue v).claimed = w.claimed := rfl

@[simp] theorem credited_enqueue : (w.enqueue v).credited = w.credited := rfl

@[simp] theorem traversed_enqueue : (w.enqueue v).traversed = w.traversed := rfl

theorem queue_enqueue : (w.enqueue v).queue = w.queue.insert w.distOf v := rfl

theorem Sized.enqueue (hw : w.Sized) (hq : (w.enqueue v).queue.capacity = w.queue.capacity) :
    (w.enqueue v).Sized :=
  ⟨hw.pred, hq.trans hw.queue, hw.visited, hw.claimed, hw.credited, hw.creditedOther,
    hw.traversed⟩

/-- Extraction changes the queue and nothing else. -/
theorem popMin?_eq_some (h : w.popMin? = some (v, w')) :
    ∃ q, w.queue.popMin? w.distOf = some (v, q) ∧ w' = { w with queue := q } := by
  unfold popMin? at h
  obtain ⟨⟨x, q⟩, hq, heq⟩ := Option.map_eq_some_iff.mp h
  simp only [Prod.mk.injEq] at heq
  obtain ⟨rfl, rfl⟩ := heq
  exact ⟨q, hq, rfl⟩

theorem popMin?_eq_none_iff : w.popMin? = none ↔ w.queue.size = 0 := by
  unfold popMin?
  rw [Option.map_eq_none_iff, NodeQueue.popMin?_eq_none_iff]

omit [Weight α] in
theorem Sized.withQueue {q : NodeQueue} (hw : w.Sized) (hq : q.capacity = w.queue.capacity) :
    { w with queue := q }.Sized :=
  ⟨hw.pred, hq.trans hw.queue, hw.visited, hw.claimed, hw.credited, hw.creditedOther,
    hw.traversed⟩

/-- `w'` is `w` with the label of `m` replaced, and `m` waiting. -/
structure Relabeled (w : Workspace α) (m : Nat) (d : α) (p : Option Nat) (w' : Workspace α) :
    Prop where
  sized : w'.Sized
  capacity : w'.capacity = w.capacity
  queue : w'.queue = w.queue.insert w'.distOf m
  queued : NodeQueue.Queued w.queue m w'.queue
  /-- The same nodes are settled. -/
  settled : ∀ u, w'.isSettled u = w.isSettled u
  dist_self : w'.distOf m = d
  dist_ne : ∀ u, u ≠ m → w'.distOf u = w.distOf u
  pred_self : w'.predOf m = p
  pred_ne : ∀ u, u ≠ m → w'.predOf u = w.predOf u
  visited_self : w'.isVisited m = true
  visited_ne : ∀ u, u ≠ m → w'.isVisited u = w.isVisited u

omit [Weight α] in
theorem stateOf_ne_settled {m : Nat} (hopen : w.isSettled m = false) :
    w.queue.stateOf m ≠ .settled := fun hs =>
  Bool.eq_false_iff.mp hopen (NodeQueue.isSettled_iff.mpr hs)

theorem relabeled_enqueue {m : Nat} {d : α} {p : Option Nat} (hw : w.Sized)
    (hq : w.queue.Consistent) (hm : m < w.capacity) (hopen : w.isSettled m = false) :
    w.Relabeled m d p ((w.setLabel m d p).enqueue m) := by
  have hqueue : ((w.setLabel m d p).enqueue m).queue =
      w.queue.insert (w.setLabel m d p).distOf m := by
    rw [queue_enqueue, queue_setLabel]
  have hstate := stateOf_ne_settled hopen
  have hqueued : NodeQueue.Queued w.queue m ((w.setLabel m d p).enqueue m).queue := by
    rw [hqueue]
    exact NodeQueue.queued_insert _ hq (by rwa [hw.queue]) hstate
  exact
    { sized := hw.setLabel.enqueue (by rw [queue_setLabel]; exact hqueued.capacity)
      capacity := by rw [capacity_enqueue, capacity_setLabel]
      queue := hqueue
      queued := hqueued
      settled := hqueued.isSettled_eq hq hstate
      dist_self := distOf_setLabel_self (p := p) hm
      dist_ne := fun u hu => distOf_setLabel_of_ne (d := d) (p := p) hu
      pred_self := predOf_setLabel_self (d := d) hw hm
      pred_ne := fun u hu => predOf_setLabel_of_ne (d := d) (p := p) hu
      visited_self := isVisited_setLabel_self (d := d) (p := p) hw hm
      visited_ne := fun u hu => isVisited_setLabel_of_ne (d := d) (p := p) hu }

/-- A relabeling is seen in four tables, whatever happens to the traces. -/
theorem Relabeled.congr {m : Nat} {d : α} {p : Option Nat} {w'' : Workspace α}
    (h : w.Relabeled m d p w') (hsized : w''.Sized) (hdist : w''.dist = w'.dist)
    (hpred : w''.pred = w'.pred) (hvisited : w''.visited = w'.visited)
    (hqueue : w''.queue = w'.queue) : w.Relabeled m d p w'' := by
  have hdistOf : w''.distOf = w'.distOf := funext fun v => by rw [distOf, hdist, distOf]
  have hpredOf : w''.predOf = w'.predOf := funext fun v => by rw [predOf, hpred, predOf]
  have hisVisited : w''.isVisited = w'.isVisited := funext fun v => by
    rw [isVisited, hvisited, isVisited]
  have hisSettled : w''.isSettled = w'.isSettled := funext fun v => by
    rw [isSettled, hqueue, isSettled]
  exact
    { sized := hsized
      capacity := (congrArg Array.size hdist).trans h.capacity
      queue := by rw [hqueue, hdistOf, h.queue]
      queued := hqueue ▸ h.queued
      settled := hisSettled ▸ h.settled
      dist_self := hdistOf ▸ h.dist_self
      dist_ne := hdistOf ▸ h.dist_ne
      pred_self := hpredOf ▸ h.pred_self
      pred_ne := hpredOf ▸ h.pred_ne
      visited_self := hisVisited ▸ h.visited_self
      visited_ne := hisVisited ▸ h.visited_ne }

/-! ### The first label -/

section Start

variable {m : Nat} {d : α} {p : Option Nat}

/-- A search starts with the label of one node. -/
theorem Ready.relabeled (hw : w.Ready) (hm : m < w.capacity) :
    w.Relabeled m d p ((w.setLabel m d p).enqueue m) :=
  relabeled_enqueue hw.sized hw.consistent hm (hw.isSettled_eq m)

/-- No other node is touched. -/
theorem Relabeled.isVisited_iff (h : w.Relabeled m d p w') (hw : w.Ready) {v : Nat} :
    w'.isVisited v = true ↔ v = m := by
  constructor
  · intro hv
    by_contra hne
    rw [h.visited_ne v hne, hw.isVisited_eq] at hv
    cases hv
  · rintro rfl
    exact h.visited_self

/-- No other node waits. -/
theorem Relabeled.waits_iff (h : w.Relabeled m d p w') (hw : w.Ready) {v : Nat} :
    w'.queue.Waits v ↔ v = m := by
  rw [h.queued.waits]
  exact or_iff_right (NodeQueue.not_waits_of_size hw.size_queue v)

end Start

end Queue

end Workspace

end SteinerSearch
