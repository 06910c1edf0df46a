import SteinerSearch.Proofs.Reuse.Tracking

/-!
# Two workspaces in lockstep

A workspace that is used again differs from a new one in what lies behind the slots in use
and the fills of the rows, and in what its queue has counted.  No operation of a search
reads any of it.

## Main definitions

* `Workspace.Alike w w'` — the two differ only where no search looks.
* `Workspace.Lockstep far n w₀ w w'` — and `w`, so both of them, is tracked.
* `Workspace.Rested far w₀ w w'` — and `w`, so both of them, is clean.

## Main results

* `Workspace.Lockstep.setLabel` and its companions — what searches do keeps two workspaces
  in lockstep.
* `Workspace.Clean.alike` — clean workspaces of one size are alike.
* `Workspace.Ready.rested` — ready workspaces of one size cannot be told apart.
-/

namespace SteinerSearch

theorem TraceLists.Alike.extended {l l' : TraceLists} {n k m : Nat} (h : Alike l l')
    (hl : l.WellFormed n) (hm : m < n) (hne : k ≠ m) (x : Nat) (grow : Bool) :
    Alike (Ledger.extended l k m x grow) (Ledger.extended l' k m x grow) := by
  have hcopy := h.copy hl hm hne
  unfold Ledger.extended
  split
  · exact hcopy.push (hl.copy hm hne) hm x
  · exact hcopy

namespace Workspace

variable {α : Type}

/-- The two workspaces differ only where no search looks: in slots and rows that are not in
use, and in what was counted. -/
structure Alike (w w' : Workspace α) : Prop where
  dist : w'.dist = w.dist
  pred : w'.pred = w.pred
  queue : NodeQueue.Alike w.queue w'.queue
  visited : w'.visited = w.visited
  claimed : w'.claimed = w.claimed
  touched : w'.touched = w.touched
  credited : TraceLists.Alike w.credited w'.credited
  creditedOther : TraceLists.Alike w.creditedOther w'.creditedOther
  traversed : TraceLists.Alike w.traversed w'.traversed

namespace Alike

variable {w w' : Workspace α}

theorem refl (w : Workspace α) : Alike w w :=
  ⟨rfl, rfl, .refl _, rfl, rfl, rfl, .refl _, .refl _, .refl _⟩

theorem symm (h : Alike w w') : Alike w' w :=
  ⟨h.dist.symm, h.pred.symm, h.queue.symm, h.visited.symm, h.claimed.symm, h.touched.symm,
    h.credited.symm, h.creditedOther.symm, h.traversed.symm⟩

/-! ### Reading -/

theorem capacity (h : Alike w w') : w'.capacity = w.capacity := congrArg Array.size h.dist

theorem predOf (h : Alike w w') : w'.predOf = w.predOf := by
  funext v
  rw [Workspace.predOf, h.pred, Workspace.predOf]

theorem isVisited (h : Alike w w') : w'.isVisited = w.isVisited := by
  funext v
  rw [Workspace.isVisited, h.visited, Workspace.isVisited]

theorem isClaimed (h : Alike w w') : w'.isClaimed = w.isClaimed := by
  funext v
  rw [Workspace.isClaimed, h.claimed, Workspace.isClaimed]

theorem isSettled (h : Alike w w') : w'.isSettled = w.isSettled := by
  funext v
  exact h.queue.isSettled v

theorem distOf [Weight α] (h : Alike w w') : w'.distOf = w.distOf := by
  funext v
  rw [Workspace.distOf, h.dist, Workspace.distOf]

section Ledger

variable {g : Network α} {l : Ledger} {k m a : Nat}

theorem refuses (h : Alike w w') : l.refuses g w' k m a = l.refuses g w k m a := by
  cases l with
  | firstVisit => simp only [Ledger.refuses, h.isClaimed]
  | combined => simp only [Ledger.refuses, h.isVisited, h.credited.mayContain]
  | split =>
    simp only [Ledger.refuses, h.isVisited, h.credited.mayContain, h.traversed.surelyContains]

theorem mayCredit (h : Alike w w') : l.mayCredit g w' k m = l.mayCredit g w k m := by
  cases l with
  | firstVisit => simp only [Ledger.mayCredit, h.isVisited]
  | combined => simp only [Ledger.mayCredit, h.credited.mayContain]
  | split => simp only [Ledger.mayCredit, h.credited.mayContain, h.creditedOther.mayContain]

end Ledger

/-! ### Resets -/

theorem reset [Weight α] (h : Alike w w') : Alike w.reset w'.reset where
  dist := by rw [dist_reset, dist_reset, h.touched, h.dist]
  pred := by rw [pred_reset, pred_reset, h.touched, h.pred]
  queue := by
    rw [queue_reset, queue_reset, h.touched]
    exact h.queue.clear.setStates _
  visited := by rw [visited_reset, visited_reset, h.touched, h.visited]
  claimed := by rw [claimed_reset, claimed_reset, h.touched, h.claimed]
  touched := by rw [touched_reset, touched_reset]
  credited := by
    rw [credited_reset, credited_reset, h.touched]
    exact h.credited.clears _
  creditedOther := by
    rw [creditedOther_reset, creditedOther_reset, h.touched]
    exact h.creditedOther.clears _
  traversed := by
    rw [traversed_reset, traversed_reset, h.touched]
    exact h.traversed.clears _

end Alike

variable [Weight α]

/-- The two workspaces are alike, and searches among the first `n` nodes wrote to touched
nodes only. -/
structure Lockstep (far : α → Prop) (n : Nat) (w₀ w w' : Workspace α) : Prop where
  tracked : Tracked far n w₀ w
  alike : Alike w w'

variable {far : α → Prop} {n : Nat} {w₀ w w' : Workspace α} {v : Nat}

namespace Lockstep

theorem refl (h : Tracked far n w₀ w) : Lockstep far n w₀ w w := ⟨h, .refl w⟩

theorem setLabel (h : Lockstep far n w₀ w w') (hv : v < n) (d : α) (p : Option Nat) :
    Lockstep far n w₀ (w.setLabel v d p) (w'.setLabel v d p) where
  tracked := h.tracked.setLabel hv d p
  alike :=
    { dist := by rw [dist_setLabel, dist_setLabel, h.alike.dist]
      pred := by rw [pred_setLabel, pred_setLabel, h.alike.pred]
      queue := by
        rw [queue_setLabel, queue_setLabel]
        exact h.alike.queue
      visited := by
        rw [visited_setLabel, visited_setLabel, h.alike.isVisited, h.alike.visited]
      claimed := by rw [claimed_setLabel, claimed_setLabel, h.alike.claimed]
      touched := by
        rw [touched_setLabel, touched_setLabel, h.alike.isVisited, h.alike.touched]
      credited := by
        rw [credited_setLabel, credited_setLabel]
        exact h.alike.credited
      creditedOther := by
        rw [creditedOther_setLabel, creditedOther_setLabel]
        exact h.alike.creditedOther
      traversed := by
        rw [traversed_setLabel, traversed_setLabel]
        exact h.alike.traversed }

theorem setDist (h : Lockstep far n w₀ w w') (hv : w.isVisited v = true) (d : α) :
    Lockstep far n w₀ (w.setDist v d) (w'.setDist v d) where
  tracked := h.tracked.setDist hv d
  alike := { h.alike with dist := congrArg (fun ds => Array.setIfInBounds ds v d) h.alike.dist }

/-! ### The queue -/

theorem enqueue (h : Lockstep far n w₀ w w') (hv : w.isVisited v = true) :
    Lockstep far n w₀ (w.enqueue v) (w'.enqueue v) where
  tracked := h.tracked.enqueue hv
  alike :=
    { h.alike with
      queue := by
        rw [queue_enqueue, queue_enqueue, h.alike.distOf]
        exact h.alike.queue.insert _ h.tracked.consistent v }

theorem reopen (h : Lockstep far n w₀ w w') (hv : w.isVisited v = true) :
    Lockstep far n w₀ (w.reopen v) (w'.reopen v) where
  tracked := h.tracked.reopen hv
  alike :=
    { h.alike with
      queue := by
        change NodeQueue.Alike (w.queue.reopen w.distOf v) (w'.queue.reopen w'.distOf v)
        rw [h.alike.distOf]
        exact h.alike.queue.reopen _ h.tracked.consistent v }

/-- A node gets a label and waits. -/
theorem label (h : Lockstep far n w₀ w w') (hv : v < n) (d : α) (p : Option Nat) :
    Lockstep far n w₀ ((w.setLabel v d p).enqueue v) ((w'.setLabel v d p).enqueue v) :=
  (h.setLabel hv d p).enqueue (isVisited_setLabel_self h.tracked.sized (h.tracked.lt_capacity hv))

/-- Both extractions find nothing, or the same node. -/
theorem popMin? (h : Lockstep far n w₀ w w') :
    (w.popMin? = none ∧ w'.popMin? = none) ∨
      ∃ k u u', w.popMin? = some (k, u) ∧ w'.popMin? = some (k, u') ∧
        Lockstep far n w₀ u u' ∧ u.isVisited k = true ∧ ¬ u.queue.Waits k := by
  rcases h.alike.queue.popMin? w.distOf with ⟨hnone, hnone'⟩ | ⟨k, q, q', hpop, hpop', hq⟩
  · left
    have hempty := NodeQueue.popMin?_eq_none_iff.mp hnone
    exact ⟨popMin?_eq_none_iff.mpr hempty,
      popMin?_eq_none_iff.mpr (h.alike.queue.size.trans hempty)⟩
  · right
    have hw : w.popMin? = some (k, { w with queue := q }) := by
      change (w.queue.popMin? w.distOf).map _ = _
      rw [hpop]
      rfl
    have hw' : w'.popMin? = some (k, { w' with queue := q' }) := by
      change (w'.queue.popMin? w'.distOf).map _ = _
      rw [h.alike.distOf, hpop']
      rfl
    obtain ⟨htracked, hvisited, hwaits⟩ := h.tracked.popMin? hw
    exact ⟨k, _, _, hw, hw', ⟨htracked, { h.alike with queue := hq }⟩, hvisited, hwaits⟩

theorem unsettle (h : Lockstep far n w₀ w w') (hv : ¬ w.queue.Waits v) :
    Lockstep far n w₀ (w.unsettle v) (w'.unsettle v) where
  tracked := h.tracked.unsettle hv
  alike := { h.alike with queue := h.alike.queue.setState v .unknown }

/-! ### Ledgers -/

section Ledger

variable {g : Network α} {l : Ledger} {k m a : Nat} {credit : Bool}

theorem claim (h : Lockstep far n w₀ w w') (hv : w.isVisited v = true) :
    Lockstep far n w₀ (w.claim v) (w'.claim v) where
  tracked := h.tracked.claim hv
  alike :=
    { h.alike with
      claimed := congrArg (fun cs => Array.setIfInBounds cs v true) h.alike.claimed }

theorem record (h : Lockstep far n w₀ w w') (hm : w.isVisited m = true) (hne : k ≠ m) :
    Lockstep far n w₀ (l.record g w k m a credit) (l.record g w' k m a credit) := by
  have htraced := h.tracked.traced
  have hmc := h.tracked.lt_capacity (h.tracked.within m hm)
  cases l with
  | firstVisit =>
    cases credit with
    | false => exact h
    | true => exact h.claim hm
  | combined =>
    exact ⟨h.tracked.record hm hne,
      { h.alike with credited := h.alike.credited.extended htraced.credited hmc hne m credit }⟩
  | split =>
    exact ⟨h.tracked.record hm hne,
      { h.alike with
        credited := h.alike.credited.extended htraced.credited hmc hne m _
        creditedOther := h.alike.creditedOther.extended htraced.creditedOther hmc hne m _
        traversed := h.alike.traversed.extended htraced.traversed hmc hne (Arc.edge a) true }⟩

end Ledger

end Lockstep

/-! ### Clean workspaces -/

omit [Weight α] in
theorem alike_of_empty {l l' : TraceLists} {c : Nat} (hl : l.Sized c) (hl' : l'.Sized c)
    (hcap : l'.capacity = l.capacity) (h : ∀ v, l.fillOf v = .holding 0)
    (h' : ∀ v, l'.fillOf v = .holding 0) : TraceLists.Alike l l' := by
  refine .of_wellFormed (hl.wellFormed_of_empty h) (hl'.wellFormed_of_empty h') hcap fun v => ?_
  rw [TraceLists.get?_of_holding (h v), TraceLists.get?_of_holding (h' v)]
  rfl

/-- Clean workspaces of one size are alike, whatever they were used for. -/
theorem Clean.alike (h : Clean Weight.IsFar w) (h' : Clean Weight.IsFar w')
    (hsize : SameSize w w') : Alike w w' where
  dist := Array.ext_getD hsize.capacity Weight.faraway fun v =>
    (h'.blank v).dist.trans (h.blank v).dist.symm
  pred := Array.ext_getD (by rw [h'.sized.pred, h.sized.pred, hsize.capacity]) none fun v =>
    (h'.blank v).pred.trans (h.blank v).pred.symm
  queue :=
    { size := h'.size_queue.trans h.size_queue.symm
      state := by
        refine Array.ext_getD ?_ .unknown fun v => (h'.blank v).state.trans (h.blank v).state.symm
        exact h'.sized.queue.trans (hsize.capacity.trans h.sized.queue.symm)
      nodeAt := fun i hi his => by
        rw [h.size_queue] at his
        omega }
  visited := Array.ext_getD (by rw [h'.sized.visited, h.sized.visited, hsize.capacity]) false
    fun v => (h'.unvisited v).trans (h.unvisited v).symm
  claimed := Array.ext_getD (by rw [h'.sized.claimed, h.sized.claimed, hsize.capacity]) false
    fun v => (h'.blank v).claimed.trans (h.blank v).claimed.symm
  touched := h'.touched.trans h.touched.symm
  credited := alike_of_empty h.sized.credited (hsize.capacity ▸ h'.sized.credited)
    hsize.credited (fun v => (h.blank v).credited) fun v => (h'.blank v).credited
  creditedOther := alike_of_empty h.sized.creditedOther (hsize.capacity ▸ h'.sized.creditedOther)
    hsize.creditedOther (fun v => (h.blank v).creditedOther) fun v => (h'.blank v).creditedOther
  traversed := alike_of_empty h.sized.traversed (hsize.capacity ▸ h'.sized.traversed)
    hsize.traversed (fun v => (h.blank v).traversed) fun v => (h'.blank v).traversed

/-- The two workspaces are alike, and ready for the next search. -/
structure Rested (far : α → Prop) (w₀ w w' : Workspace α) : Prop where
  clean : Clean far w
  sameSize : SameSize w₀ w
  alike : Alike w w'

theorem Rested.lockstep (h : Rested far w₀ w w') (hroom : n ≤ w₀.capacity) :
    Lockstep far n w₀ w w' :=
  ⟨h.clean.tracked h.sameSize (by rwa [h.sameSize.capacity]), h.alike⟩

/-- Among rationals only one number looks like the distance of an unreached node. -/
theorem Ready.clean_isFar {w : Workspace ℚ} (hw : w.Ready) : Clean Weight.IsFar w :=
  { hw.clean Weight.looksFar_faraway with
    blank := fun v =>
      { (hw.clean Weight.looksFar_faraway).blank v with dist := hw.distOf_eq v } }

/-- Ready workspaces of one size cannot be told apart. -/
theorem Ready.rested {w₀ w : Workspace ℚ} (hw : w.Ready) (hw₀ : w₀.Ready)
    (hsize : SameSize w₀ w) : Rested Weight.LooksFar w₀ w w₀ :=
  ⟨hw.clean Weight.looksFar_faraway, hsize, hw.clean_isFar.alike hw₀.clean_isFar hsize.symm⟩

/-- A reset after a search makes both workspaces ready for the next one. -/
theorem Lockstep.reset (h : Lockstep far n w₀ w w') (hfar : far Weight.faraway) :
    Rested far w₀ w.reset w'.reset :=
  ⟨h.tracked.clean_reset hfar, h.tracked.sameSize.trans sameSize_reset, h.alike.reset⟩

end Workspace

end SteinerSearch
