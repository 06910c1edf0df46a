import SteinerSearch.Proofs.Layers.Invariant
import SteinerSearch.Proofs.Layers.Spreading

/-!
# Labels that measure the way to their terminal

Where every label measures the way from its node to its terminal, a label that is passed
over an arc is a candidate for the other end, and a nearest open layer is a nearest one of
all.  So labels stay valid while they spread.

## Main definitions

* `TerminalLayers.Proper g` — labels measure the way to the goal.
* `TerminalLayers.Searching g due s` — the labels are valid and all offers but the due
  ones were made.

## Main results

* `TerminalLayers.closed_valid` — labels that spread stay valid.
-/

namespace SteinerSearch

namespace TerminalLayers

/-- The network is built, its costs are whole, and labels measure the way to the goal. -/
structure Proper (g : Network ℚ) : Prop where
  wellFormed : g.WellFormed
  whole : ∀ a, a < g.arcCount → Weight.IsWhole (g.costOf a)
  toGoal : ∀ a b, a < g.arcCount → g.IsGoal b → stepCost g a b = g.costOf (Arc.rev a)

/-- All labels were offered over all arcs, but for those that are due. -/
structure Searching (g : Network ℚ) (due : Nat → Nat → Prop) (s : State ℚ) : Prop where
  valid : Valid g s.labels
  queues : Queues s
  offered : ∀ a l, a < g.arcCount → l < s.labels.filledOf (g.headOf a) → ¬ due a l →
    Offered g s.labels a l

variable {g : Network ℚ} {s : State ℚ} {t : TerminalLayers ℚ} {a b l : Nat}

/-- What arrives over an arc is as far away as over the arc back. -/
theorem Proper.arrivalDist_eq (hg : Proper g) (ha : a < g.arcCount) (hgoal : g.IsGoal b) :
    arrivalDist g t a l b =
      t.distIn (t.slot l (g.headOf (Arc.rev a))) + g.costOf (Arc.rev a) := by
  rw [arrivalDist, hg.toGoal a b ha hgoal, hg.wellFormed.head_rev a ha]

/-- A label that arrives is a candidate. -/
theorem Arrival.candidate (h : Arrival g t a l b) (hg : Proper g) (hs : Sound g t) :
    Candidate g t (g.headOf a) b (arrivalDist g t a l b) := by
  have hrev := hg.wellFormed.rev_lt h.lt
  have htail := hg.wellFormed.tail_rev h.lt
  have hhead := hg.wellFormed.head_rev a h.lt
  have hlt := hs.sized.lt_nodeCount h.filled
  have hgoal : g.IsGoal b := (hs.path _ l b hlt h.base).2.1
  rw [hg.arrivalDist_eq h.lt hgoal, ← htail]
  refine hs.candidate hg.wellFormed.toLinked hrev ?_ ?_ ?_ ?_
  · rw [htail]
    exact h.marked
  · rw [htail]
    exact h.vacant.notFull
  · rw [hhead]
    exact h.base
  · rw [htail]
    exact h.vacant.new

/-- What was passed over the arc back was offered. -/
theorem Passed.offered (h : Passed g t (Arc.rev a) l) (hg : Proper g) (hs : Sound g t)
    (ha : a < g.arcCount) : Offered g t a l := by
  have hhead : g.headOf (Arc.rev a) = g.tailOf a := hg.wellFormed.head_rev a ha
  have htail : g.tailOf (Arc.rev a) = g.headOf a := hg.wellFormed.tail_rev ha
  have hlt : ∀ u, u < g.nodeCount → u < t.nodeCount := fun u hu => hs.nodeCount ▸ hu
  have hheadLt := hlt _ (hg.wellFormed.head_lt a ha)
  intro hmark hfull b hb hnew
  have hgoal : g.IsGoal b := (hs.path _ l b hheadLt hb).2.1
  have hle := h (hhead ▸ hmark) b (by rwa [htail]) <| by
    rw [hhead]
    exact ⟨hlt _ (hg.wellFormed.tail_lt a ha), hfull, hnew⟩
  rwa [hg.arrivalDist_eq (hg.wellFormed.rev_lt ha) hgoal, Arc.rev_rev, hhead] at hle

/-- Valid labels were offered if they were passed on. -/
theorem Valid.offered (h : Valid g t) (hg : Proper g)
    (hpassed : ∀ a l, a < g.arcCount → l < t.filledOf (g.tailOf a) → Passed g t a l) :
    ∀ a l, a < g.arcCount → l < t.filledOf (g.headOf a) → Offered g t a l := by
  intro a l ha hl
  refine Passed.offered (hpassed _ l (hg.wellFormed.rev_lt ha) ?_) hg h.sound ha
  rwa [hg.wellFormed.tail_rev ha]

/-- Labels that spread stay valid. -/
theorem closed_valid (hg : Proper g) : Closed g (Valid g) where
  layered h := h.sound.layered
  nodeCount h := h.sound.nodeCount
  marked h hv hb := (h.sound.path _ _ _ hv hb).1
  setLabel h harr hlt := h.setLabel hg.whole (harr.candidate hg h.sound) _ hlt
  fill {t v b} h hpassed hv hfull hb hmin := by
    refine h.fill hv hfull hb fun c hgoal hnew as has => ?_
    refine h.le_pathLength hg.whole (h.offered hg hpassed) (fun u hmark hopen => ?_)
      (h.sound.path v _ b hv hb).1 hfull hgoal hnew has
    refine hmin u ?_ hopen
    rw [h.sound.nodeCount]
    exact Network.lt_nodeCount_of_isMarked hmark

theorem Spreading.searching (h : Spreading g (Valid g) (fun _ _ => False) s) (hg : Proper g) :
    Searching g (fun _ _ => False) s where
  valid := h.holds
  queues := h.queues
  offered a l ha hl _ :=
    h.holds.offered hg (fun a l ha hl => h.passed a l ha hl not_false) a l ha hl

end TerminalLayers

end SteinerSearch
