import SteinerSearch.Proofs.Reuse.Queues
import SteinerSearch.Proofs.Reuse.Traces
import SteinerSearch.Proofs.Walk.Ledger

/-!
# What a search leaves in a workspace

A reset restores the entries of touched nodes only, so a search must not write the entry of
any other node.  In a tracked workspace nodes that were not touched are blank, and each
touched node is listed once.  Every operation of a search keeps a workspace tracked, and
the reset of a tracked workspace is clean.

What distance a blank node has is a parameter: exactly that of an unreached node, or one
that cannot be told from it by comparison.

## Main definitions

* `Workspace.BlankAt far w v` — the entries of `v` are those of a new workspace.
* `Workspace.Tracked far n w₀ w` — searches among `n` nodes wrote to touched nodes only.
* `Workspace.Clean far w` — all nodes are blank and nothing waits.

## Main results

* `Workspace.Tracked.setLabel` and its companions — what searches do is tracked.
* `Workspace.Tracked.clean_reset` — a reset restores all that was written.
-/

namespace SteinerSearch

namespace Ledger

variable {l : TraceLists} {n k m v : Nat}

theorem fillOf_extended_of_ne (hl : l.WellFormed n) (hm : m < n) (hne : k ≠ m) (hv : v ≠ m)
    (x : Nat) (grow : Bool) : (extended l k m x grow).fillOf v = l.fillOf v := by
  rw [TraceLists.fillOf_eq, get?_extended_of_ne hl hm hne hv, ← TraceLists.fillOf_eq]

end Ledger

namespace Workspace

variable {α : Type}

/-- Both workspaces have tables of the same sizes. -/
structure SameSize (w₀ w : Workspace α) : Prop where
  capacity : w.capacity = w₀.capacity
  credited : w.credited.capacity = w₀.credited.capacity
  creditedOther : w.creditedOther.capacity = w₀.creditedOther.capacity
  traversed : w.traversed.capacity = w₀.traversed.capacity

theorem SameSize.refl (w : Workspace α) : SameSize w w := ⟨rfl, rfl, rfl, rfl⟩

theorem SameSize.symm {w₀ w : Workspace α} (h : SameSize w₀ w) : SameSize w w₀ :=
  ⟨h.capacity.symm, h.credited.symm, h.creditedOther.symm, h.traversed.symm⟩

theorem SameSize.trans {w₀ w w' : Workspace α} (h : SameSize w₀ w) (h' : SameSize w w') :
    SameSize w₀ w' :=
  ⟨h'.capacity.trans h.capacity, h'.credited.trans h.credited,
    h'.creditedOther.trans h.creditedOther, h'.traversed.trans h.traversed⟩

variable [Weight α]

/-- The entries of `v` are those of a new workspace, with a distance that `far` holds of.
Whether `v` was touched is not among them. -/
structure BlankAt (far : α → Prop) (w : Workspace α) (v : Nat) : Prop where
  dist : far (w.distOf v)
  pred : w.predOf v = none
  claimed : w.isClaimed v = false
  state : w.queue.stateOf v = .unknown
  credited : w.credited.fillOf v = .holding 0
  creditedOther : w.creditedOther.fillOf v = .holding 0
  traversed : w.traversed.fillOf v = .holding 0

/-- Searches among the first `n` nodes wrote to touched nodes only, in a workspace of the
size of `w₀`. -/
structure Tracked (far : α → Prop) (n : Nat) (w₀ w : Workspace α) : Prop where
  sized : w.Sized
  traced : w.Traced
  sameSize : SameSize w₀ w
  room : n ≤ w.capacity
  consistent : w.queue.Consistent
  /-- The touched nodes are listed. -/
  listed : ∀ v, w.isVisited v = true ↔ v ∈ w.touched.toList
  /-- None is listed twice. -/
  nodup : w.touched.toList.Nodup
  /-- They are nodes of the network. -/
  within : ∀ v, w.isVisited v = true → v < n
  /-- All others are blank. -/
  blank : ∀ v, w.isVisited v = false → w.BlankAt far v

/-- No node was touched, all are blank, and nothing waits. -/
structure Clean (far : α → Prop) (w : Workspace α) : Prop where
  sized : w.Sized
  touched : w.touched = #[]
  size_queue : w.queue.size = 0
  unvisited : ∀ v, w.isVisited v = false
  blank : ∀ v, w.BlankAt far v

variable {far : α → Prop} {n : Nat} {w₀ w : Workspace α} {u v : Nat}

omit [Weight α] in
/-- A node that was touched is not one that was not. -/
theorem ne_of_isVisited (hv : w.isVisited v = true) (hu : w.isVisited u = false) : u ≠ v := by
  rintro rfl
  rw [hv] at hu
  cases hu

/-! ### Labels -/

omit [Weight α] in
theorem touched_setLabel {d : α} {p : Option Nat} :
    (w.setLabel v d p).touched = if w.isVisited v then w.touched else w.touched.push v := by
  unfold setLabel visit
  split <;> rfl

namespace Tracked

theorem lt_capacity (h : Tracked far n w₀ w) (hv : v < n) : v < w.capacity :=
  Nat.lt_of_lt_of_le hv h.room

/-- A node that was not touched does not wait. -/
theorem not_waits (h : Tracked far n w₀ w) (hv : w.isVisited v = false) :
    ¬ w.queue.Waits v := by
  intro hw
  obtain ⟨i, hi⟩ := h.consistent.waits_iff.mp hw
  rw [(h.blank v hv).state] at hi
  cases hi

theorem isVisited_of_waits (h : Tracked far n w₀ w) (hv : w.queue.Waits v) :
    w.isVisited v = true := by
  by_contra hnot
  exact h.not_waits (Bool.eq_false_iff.mpr hnot) hv

theorem listed_setLabel (h : Tracked far n w₀ w) (hv : v < n) (d : α) (p : Option Nat) (u : Nat) :
    (w.setLabel v d p).isVisited u = true ↔ u ∈ (w.setLabel v d p).touched.toList := by
  rw [touched_setLabel]
  by_cases huv : u = v
  · rw [huv, isVisited_setLabel_self h.sized (h.lt_capacity hv)]
    split
    · next hvisited => simpa using (h.listed v).mp hvisited
    · simp
  · rw [isVisited_setLabel_of_ne huv, h.listed u]
    split
    · rfl
    · simp [huv]

theorem nodup_setLabel (h : Tracked far n w₀ w) (v : Nat) (d : α) (p : Option Nat) :
    (w.setLabel v d p).touched.toList.Nodup := by
  rw [touched_setLabel]
  split
  · exact h.nodup
  · next hnew =>
    rw [Array.toList_push]
    refine List.nodup_append.mpr ⟨h.nodup, List.nodup_singleton v, fun u hu x hx hux => ?_⟩
    rw [List.mem_singleton.mp hx] at hux
    rw [hux] at hu
    exact hnew ((h.listed v).mpr hu)

/-- A label touches its node, and no other node. -/
theorem setLabel (h : Tracked far n w₀ w) (hv : v < n) (d : α) (p : Option Nat) :
    Tracked far n w₀ (w.setLabel v d p) where
  sized := h.sized.setLabel
  traced := h.traced.setLabel
  sameSize := by
    refine h.sameSize.trans ⟨capacity_setLabel, ?_, ?_, ?_⟩ <;> simp
  room := by
    rw [capacity_setLabel]
    exact h.room
  consistent := by
    rw [queue_setLabel]
    exact h.consistent
  listed := h.listed_setLabel hv d p
  nodup := h.nodup_setLabel v d p
  within u hu := by
    by_cases huv : u = v
    · rwa [huv]
    · rw [isVisited_setLabel_of_ne huv] at hu
      exact h.within u hu
  blank u hu := by
    have huv := ne_of_isVisited (isVisited_setLabel_self h.sized (h.lt_capacity hv)) hu
    rw [isVisited_setLabel_of_ne huv] at hu
    have hb := h.blank u hu
    exact
      { dist := by
          rw [distOf_setLabel_of_ne huv]
          exact hb.dist
        pred := by rw [predOf_setLabel_of_ne huv, hb.pred]
        claimed := by rw [isClaimed, claimed_setLabel, ← isClaimed, hb.claimed]
        state := by rw [queue_setLabel, hb.state]
        credited := by rw [credited_setLabel, hb.credited]
        creditedOther := by rw [creditedOther_setLabel, hb.creditedOther]
        traversed := by rw [traversed_setLabel, hb.traversed] }

/-- The distance of a touched node may change. -/
theorem setDist (h : Tracked far n w₀ w) (hv : w.isVisited v = true) (d : α) :
    Tracked far n w₀ (w.setDist v d) := by
  have hcap : (w.setDist v d).capacity = w.capacity := Array.size_setIfInBounds
  refine
    { sized := ?_
      traced := ?_
      sameSize := h.sameSize.trans ⟨hcap, rfl, rfl, rfl⟩
      room := by rw [hcap]; exact h.room
      consistent := h.consistent
      listed := h.listed
      nodup := h.nodup
      within := h.within
      blank := fun u hu => ?_ }
  · refine ⟨?_, ?_, ?_, ?_, ?_, ?_, ?_⟩ <;> rw [hcap]
    exacts [h.sized.pred, h.sized.queue, h.sized.visited, h.sized.claimed, h.sized.credited,
      h.sized.creditedOther, h.sized.traversed]
  · refine ⟨?_, ?_, ?_⟩ <;> rw [hcap]
    exacts [h.traced.credited, h.traced.creditedOther, h.traced.traversed]
  · have huv : u ≠ v := ne_of_isVisited hv hu
    have hdist : (w.setDist v d).distOf u = w.distOf u := Array.getD_setIfInBounds_of_ne huv _ _
    have hb := h.blank u hu
    exact { hb with dist := by rw [hdist]; exact hb.dist }

/-! ### The queue -/

/-- The queue may change as long as it says nothing new of nodes that were not touched. -/
theorem withQueue {q : NodeQueue} (h : Tracked far n w₀ w) (hq : q.Consistent)
    (hcap : q.capacity = w.queue.capacity)
    (hstate : ∀ u, w.isVisited u = false → q.stateOf u = .unknown) :
    Tracked far n w₀ { w with queue := q } :=
  { h with
    sized := h.sized.withQueue hcap
    traced := ⟨h.traced.credited, h.traced.creditedOther, h.traced.traversed⟩
    sameSize := h.sameSize.trans ⟨rfl, rfl, rfl, rfl⟩
    consistent := hq
    blank := fun u hu => { h.blank u hu with state := hstate u hu } }

/-- A touched node may wait. -/
theorem queued {q : NodeQueue} (h : Tracked far n w₀ w) (hv : w.isVisited v = true)
    (hq : NodeQueue.Queued w.queue v q) : Tracked far n w₀ { w with queue := q } := by
  refine h.withQueue hq.consistent hq.capacity fun u hu => ?_
  rw [hq.frame u (h.not_waits hu) (ne_of_isVisited hv hu), (h.blank u hu).state]

theorem lt_capacity_queue (h : Tracked far n w₀ w) (hv : w.isVisited v = true) :
    v < w.queue.capacity := by
  rw [h.sized.queue]
  exact h.lt_capacity (h.within v hv)

theorem enqueue (h : Tracked far n w₀ w) (hv : w.isVisited v = true) :
    Tracked far n w₀ (w.enqueue v) := by
  by_cases hs : w.queue.stateOf v = .settled
  · -- a settled node stays settled
    have hq : w.queue.insert w.distOf v = w.queue := by
      simp only [NodeQueue.insert, hs]
    have heq : w.enqueue v = w := congrArg (fun q => { w with queue := q }) hq
    rwa [heq]
  · exact h.queued hv (NodeQueue.queued_insert _ h.consistent (h.lt_capacity_queue hv) hs)

theorem reopen (h : Tracked far n w₀ w) (hv : w.isVisited v = true) :
    Tracked far n w₀ (w.reopen v) :=
  h.queued hv (NodeQueue.queued_reopen _ h.consistent (h.lt_capacity_queue hv))

/-- An extraction gives a touched node. -/
theorem popMin? {w' : Workspace α} (h : Tracked far n w₀ w) (hpop : w.popMin? = some (v, w')) :
    Tracked far n w₀ w' ∧ w'.isVisited v = true ∧ ¬ w'.queue.Waits v := by
  obtain ⟨q, hq, rfl⟩ := popMin?_eq_some hpop
  have hx := NodeQueue.extracted_popMin? h.consistent hq
  refine ⟨h.withQueue hx.consistent hx.capacity fun u hu => ?_, h.isVisited_of_waits hx.waited, ?_⟩
  · rw [hx.frame u (h.not_waits hu), (h.blank u hu).state]
  · change ¬ q.Waits v
    rw [hx.waits]
    exact fun hw => hw.2 rfl

theorem unsettle (h : Tracked far n w₀ w) (hv : ¬ w.queue.Waits v) :
    Tracked far n w₀ (w.unsettle v) := by
  refine h.withQueue (h.consistent.setState_unknown hv) NodeQueue.capacity_setState fun u hu => ?_
  by_cases huv : u = v
  · rw [huv]
    exact NodeQueue.stateOf_setState_unknown
  · rw [NodeQueue.stateOf_setState_of_ne huv, (h.blank u hu).state]

/-! ### Ledgers -/

/-- The lists of a touched node may change. -/
theorem withTraces {c c' t : TraceLists} (h : Tracked far n w₀ w) (hv : w.isVisited v = true)
    (htraced : { w with credited := c, creditedOther := c', traversed := t }.Traced)
    (hc : c.capacity = w.credited.capacity) (hc' : c'.capacity = w.creditedOther.capacity)
    (ht : t.capacity = w.traversed.capacity)
    (hframe : ∀ u, u ≠ v → c.fillOf u = w.credited.fillOf u ∧
      c'.fillOf u = w.creditedOther.fillOf u ∧ t.fillOf u = w.traversed.fillOf u) :
    Tracked far n w₀ { w with credited := c, creditedOther := c', traversed := t } := by
  refine
    { h with
      sized := ⟨h.sized.pred, h.sized.queue, h.sized.visited, h.sized.claimed,
        htraced.credited.toSized, htraced.creditedOther.toSized, htraced.traversed.toSized⟩
      traced := htraced
      sameSize := h.sameSize.trans ⟨rfl, hc, hc', ht⟩
      blank := fun u hu => ?_ }
  have huv : u ≠ v := ne_of_isVisited hv hu
  obtain ⟨hfc, hfc', hft⟩ := hframe u huv
  have hb := h.blank u hu
  exact
    { hb with
      credited := hfc.trans hb.credited
      creditedOther := hfc'.trans hb.creditedOther
      traversed := hft.trans hb.traversed }

theorem claim (h : Tracked far n w₀ w) (hv : w.isVisited v = true) :
    Tracked far n w₀ (w.claim v) := by
  refine
    { h with
      sized := ⟨h.sized.pred, h.sized.queue, h.sized.visited, ?_, h.sized.credited,
        h.sized.creditedOther, h.sized.traversed⟩
      traced := ⟨h.traced.credited, h.traced.creditedOther, h.traced.traversed⟩
      sameSize := h.sameSize.trans ⟨rfl, rfl, rfl, rfl⟩
      blank := fun u hu => ?_ }
  · exact (Array.size_setIfInBounds ..).trans h.sized.claimed
  · have huv : u ≠ v := ne_of_isVisited hv hu
    have hclaimed : (w.claim v).isClaimed u = w.isClaimed u :=
      Array.getD_setIfInBounds_of_ne huv _ _
    have hb := h.blank u hu
    exact { hb with claimed := hclaimed.trans hb.claimed }

theorem record {g : Network α} {l : Ledger} {k m a : Nat} {credit : Bool}
    (h : Tracked far n w₀ w) (hm : w.isVisited m = true) (hne : k ≠ m) :
    Tracked far n w₀ (l.record g w k m a credit) := by
  have hmc := h.lt_capacity (h.within m hm)
  have htraced : (l.record g w k m a credit).Traced := Ledger.traced_record h.traced hmc hne
  cases l with
  | firstVisit =>
    cases credit with
    | false => exact h
    | true => exact h.claim hm
  | combined =>
    refine h.withTraces hm htraced (Ledger.capacity_extended h.traced.credited hmc hne m credit)
      rfl rfl fun u hu => ⟨?_, rfl, rfl⟩
    exact Ledger.fillOf_extended_of_ne h.traced.credited hmc hne hu m credit
  | split =>
    refine h.withTraces hm htraced (Ledger.capacity_extended h.traced.credited hmc hne m _)
      (Ledger.capacity_extended h.traced.creditedOther hmc hne m _)
      (Ledger.capacity_extended h.traced.traversed hmc hne (Arc.edge a) true) fun u hu => ?_
    exact ⟨Ledger.fillOf_extended_of_ne h.traced.credited hmc hne hu m _,
      Ledger.fillOf_extended_of_ne h.traced.creditedOther hmc hne hu m _,
      Ledger.fillOf_extended_of_ne h.traced.traversed hmc hne hu (Arc.edge a) true⟩

end Tracked

/-! ### Resets -/

/-- What is restored, table by table. -/
theorem foldl_restore (vs : List Nat) (w : Workspace α) :
    vs.foldl restore w =
      { w with
        dist := vs.foldl (fun d v => d.setIfInBounds v Weight.faraway) w.dist
        pred := vs.foldl (fun p v => p.setIfInBounds v none) w.pred
        visited := vs.foldl (fun b v => b.setIfInBounds v false) w.visited
        claimed := vs.foldl (fun b v => b.setIfInBounds v false) w.claimed
        queue := vs.foldl (fun q v => q.setState v .unknown) w.queue
        credited := vs.foldl TraceLists.clear w.credited
        creditedOther := vs.foldl TraceLists.clear w.creditedOther
        traversed := vs.foldl TraceLists.clear w.traversed } := by
  induction vs generalizing w with
  | nil => rfl
  | cons v vs ih =>
    rw [List.foldl_cons, ih]
    rfl

theorem reset_eq (w : Workspace α) :
    w.reset = w.touched.toList.foldl restore { w with queue := w.queue.clear, touched := #[] } :=
  (Array.foldl_toList ..).symm

section Reset

theorem dist_reset : w.reset.dist =
    w.touched.toList.foldl (fun d v => d.setIfInBounds v Weight.faraway) w.dist := by
  rw [reset_eq, foldl_restore]

theorem pred_reset : w.reset.pred =
    w.touched.toList.foldl (fun p v => p.setIfInBounds v none) w.pred := by
  rw [reset_eq, foldl_restore]

theorem visited_reset : w.reset.visited =
    w.touched.toList.foldl (fun b v => b.setIfInBounds v false) w.visited := by
  rw [reset_eq, foldl_restore]

theorem claimed_reset : w.reset.claimed =
    w.touched.toList.foldl (fun b v => b.setIfInBounds v false) w.claimed := by
  rw [reset_eq, foldl_restore]

theorem queue_reset : w.reset.queue =
    w.touched.toList.foldl (fun q v => q.setState v .unknown) w.queue.clear := by
  rw [reset_eq, foldl_restore]

theorem credited_reset : w.reset.credited = w.touched.toList.foldl TraceLists.clear w.credited := by
  rw [reset_eq, foldl_restore]

theorem creditedOther_reset :
    w.reset.creditedOther = w.touched.toList.foldl TraceLists.clear w.creditedOther := by
  rw [reset_eq, foldl_restore]

theorem traversed_reset :
    w.reset.traversed = w.touched.toList.foldl TraceLists.clear w.traversed := by
  rw [reset_eq, foldl_restore]

theorem touched_reset : w.reset.touched = #[] := by
  rw [reset_eq, foldl_restore]

theorem distOf_reset (v : Nat) :
    w.reset.distOf v = if v ∈ w.touched.toList then Weight.faraway else w.distOf v := by
  rw [distOf, dist_reset, Array.getD_foldl_setIfInBounds, distOf]

theorem predOf_reset (v : Nat) :
    w.reset.predOf v = if v ∈ w.touched.toList then none else w.predOf v := by
  rw [predOf, pred_reset, Array.getD_foldl_setIfInBounds, predOf]

theorem isVisited_reset (v : Nat) :
    w.reset.isVisited v = if v ∈ w.touched.toList then false else w.isVisited v := by
  rw [isVisited, visited_reset, Array.getD_foldl_setIfInBounds, isVisited]

theorem isClaimed_reset (v : Nat) :
    w.reset.isClaimed v = if v ∈ w.touched.toList then false else w.isClaimed v := by
  rw [isClaimed, claimed_reset, Array.getD_foldl_setIfInBounds, isClaimed]

theorem sameSize_reset : SameSize w w.reset := by
  refine ⟨?_, ?_, ?_, ?_⟩
  · rw [Workspace.capacity, dist_reset, Array.size_foldl_setIfInBounds, Workspace.capacity]
  · rw [credited_reset, TraceLists.capacity_clears]
  · rw [creditedOther_reset, TraceLists.capacity_clears]
  · rw [traversed_reset, TraceLists.capacity_clears]

theorem Sized.reset (hw : w.Sized) : w.reset.Sized := by
  refine ⟨?_, ?_, ?_, ?_, ?_, ?_, ?_⟩ <;> rw [sameSize_reset.capacity]
  · rw [pred_reset, Array.size_foldl_setIfInBounds, hw.pred]
  · have hstates : w.reset.queue.capacity = w.queue.clear.capacity := by
      rw [queue_reset]
      exact NodeQueue.capacity_setStates _
    rw [hstates, NodeQueue.capacity_clear, hw.queue]
  · rw [visited_reset, Array.size_foldl_setIfInBounds, hw.visited]
  · rw [claimed_reset, Array.size_foldl_setIfInBounds, hw.claimed]
  · rw [credited_reset]
    exact hw.credited.clears _
  · rw [creditedOther_reset]
    exact hw.creditedOther.clears _
  · rw [traversed_reset]
    exact hw.traversed.clears _

end Reset

/-- A reset restores all that was written: entries of touched nodes by itself, and there is
nothing to restore at the others. -/
theorem Tracked.clean_reset (h : Tracked far n w₀ w) (hfar : far Weight.faraway) :
    Clean far w.reset := by
  have hkept : ∀ v, v ∉ w.touched.toList → w.isVisited v = false := fun v hv =>
    Bool.eq_false_iff.mpr fun hvisited => hv ((h.listed v).mp hvisited)
  refine ⟨h.sized.reset, touched_reset, ?_, fun v => ?_, fun v => ?_⟩
  · rw [queue_reset, NodeQueue.size_setStates, NodeQueue.size_clear]
  · rw [isVisited_reset]
    split
    · rfl
    · next hv => exact hkept v hv
  · by_cases hv : v ∈ w.touched.toList
    · constructor
      · rw [distOf_reset, if_pos hv]
        exact hfar
      · rw [predOf_reset, if_pos hv]
      · rw [isClaimed_reset, if_pos hv]
      · rw [queue_reset, NodeQueue.stateOf_setStates_unknown, if_pos hv]
      · rw [credited_reset, TraceLists.fillOf_clears, if_pos hv]
      · rw [creditedOther_reset, TraceLists.fillOf_clears, if_pos hv]
      · rw [traversed_reset, TraceLists.fillOf_clears, if_pos hv]
    · have hb := h.blank v (hkept v hv)
      constructor
      · rw [distOf_reset, if_neg hv]
        exact hb.dist
      · rw [predOf_reset, if_neg hv, hb.pred]
      · rw [isClaimed_reset, if_neg hv, hb.claimed]
      · rw [queue_reset, NodeQueue.stateOf_setStates_unknown, if_neg hv,
          NodeQueue.stateOf_clear_of_not_waits (h.not_waits (hkept v hv)), hb.state]
      · rw [credited_reset, TraceLists.fillOf_clears, if_neg hv, hb.credited]
      · rw [creditedOther_reset, TraceLists.fillOf_clears, if_neg hv, hb.creditedOther]
      · rw [traversed_reset, TraceLists.fillOf_clears, if_neg hv, hb.traversed]

/-! ### Clean workspaces -/

theorem Clean.traced (h : Clean far w) : w.Traced :=
  ⟨h.sized.credited.wellFormed_of_empty fun v => (h.blank v).credited,
    h.sized.creditedOther.wellFormed_of_empty fun v => (h.blank v).creditedOther,
    h.sized.traversed.wellFormed_of_empty fun v => (h.blank v).traversed⟩

/-- Before a search there is nothing to track. -/
theorem Clean.tracked (h : Clean far w) (hsize : SameSize w₀ w) (hroom : n ≤ w.capacity) :
    Tracked far n w₀ w where
  sized := h.sized
  traced := h.traced
  sameSize := hsize
  room := hroom
  consistent := NodeQueue.consistent_of_size h.size_queue fun v => Or.inl (h.blank v).state
  listed v := by simp [h.unvisited v, h.touched]
  nodup := by simp [h.touched]
  within v hv := by
    rw [h.unvisited v] at hv
    cases hv
  blank v _ := h.blank v

theorem clean_fresh (n k : Nat) : Clean Weight.IsFar (fresh n k : Workspace α) where
  sized := sized_fresh n k
  touched := rfl
  size_queue := rfl
  unvisited _ := Array.getD_replicate ..
  blank v := ⟨Array.getD_replicate .., Array.getD_replicate .., Array.getD_replicate ..,
    NodeQueue.stateOf_empty n v, Array.getD_replicate .., Array.getD_replicate ..,
    Array.getD_replicate ..⟩

/-! #### By comparison -/

/-- What can be checked of the entries of one node. -/
theorem isBlankAt_iff : w.isBlankAt v = true ↔
    w.isVisited v = false ∧ w.BlankAt Weight.LooksFar v := by
  constructor
  · intro h
    simp only [isBlankAt, Bool.and_eq_true, Bool.not_eq_true', Option.isNone_iff_eq_none,
      decide_eq_true_eq] at h
    obtain ⟨⟨⟨⟨⟨⟨⟨hdist, hpred⟩, hvisited⟩, hclaimed⟩, hstate⟩, hc⟩, ho⟩, ht⟩ := h
    exact ⟨hvisited, hdist, hpred, hclaimed, hstate, hc, ho, ht⟩
  · rintro ⟨hvisited, h⟩
    have hdist : Weight.same (w.distOf v) Weight.faraway = true := h.dist
    simp [isBlankAt, hvisited, hdist, h.pred, h.claimed, h.state, h.credited, h.creditedOther,
      h.traversed]

theorem Ready.clean (hw : w.Ready) (hfar : Weight.LooksFar (Weight.faraway : α)) :
    Clean Weight.LooksFar w where
  sized := hw.sized
  touched := by
    have h := hw.pristine
    simp only [isPristine, Bool.and_eq_true, Array.isEmpty_iff] at h
    exact h.1.1
  size_queue := hw.size_queue
  unvisited := hw.isVisited_eq
  blank v := by
    by_cases hv : v < w.capacity
    · exact (isBlankAt_iff.mp (hw.isBlankAt hv)).2
    · -- a table says of a node that it has no entry for what it says of a blank one
      have hv := Nat.le_of_not_lt hv
      refine ⟨?_, ?_, ?_, hw.stateOf_eq v, hw.credited_eq v, hw.creditedOther_eq v,
        hw.traversed_eq v⟩
      · rw [distOf, Array.getD_of_size_le hv]
        exact hfar
      · exact Array.getD_of_size_le (by rwa [hw.sized.pred]) _
      · exact Array.getD_of_size_le (by rwa [hw.sized.claimed]) _

theorem Clean.ready (h : Clean Weight.LooksFar w) : w.Ready := by
  refine ⟨h.sized, ?_⟩
  simp only [isPristine, Bool.and_eq_true, List.all_eq_true, beq_iff_eq]
  refine ⟨⟨?_, h.size_queue⟩, fun v _ => isBlankAt_iff.mpr ⟨h.unvisited v, h.blank v⟩⟩
  rw [h.touched]
  rfl

end Workspace

end SteinerSearch
