import SteinerSearch.Proofs.Lockstep
import SteinerSearch.Proofs.Reuse.Workspaces
import SteinerSearch.Proofs.Walk.Credits

/-!
# Walk searches in used workspaces

Of two walk searches in lockstep each scan, each credit and each answer is the same, for
all three ledgers.  At every moment of a search the workspace is tracked, and the network
that a search gives back is the one that it was given.

## Main definitions

* `Walk.Moment t w u` — the workspace is `u` at a moment of the search that starts in `w`.
* `Walk.Together far n w₀ s s'` — two states that differ where no search looks.
* `Walk.Found far g w₀ x x'` — two results with the same answer and the network `g`.

## Main results

* `Walk.runOn_together` — two searches in lockstep answer the same.
* `Walk.Moment.tracked` — at every moment the workspace is tracked.
-/

namespace SteinerSearch

namespace Walk

variable {α : Type} [Weight α]

/-- The state after the start was labeled. -/
def initial (t : Walk α) (w : Workspace α) : State α :=
  ⟨(w.setLabel t.query.start 0 none).enqueue t.query.start, 0⟩

/-- The workspace is `u` at a moment of the search that starts in `w`. -/
inductive Moment (t : Walk α) (w : Workspace α) : Workspace α → Prop
  /-- The next node is to be extracted. -/
  | between {s : State α} (hs : Progress.Reached t.settleNext (t.initial w) s) :
      Moment t w s.space
  /-- A node was extracted. -/
  | extracted {s : State α} {k : Nat} {v : Workspace α}
      (hs : Progress.Reached t.settleNext (t.initial w) s)
      (hpop : s.space.popMin? = some (k, v)) : Moment t w v
  /-- Some arcs of an extracted node are scanned. -/
  | scanning {s s' : State α} {k : Nat} {v : Workspace α} {done : List Nat}
      (hs : Progress.Reached t.settleNext (t.initial w) s)
      (hpop : s.space.popMin? = some (k, v)) (hdone : done <+: t.network.outArcs k)
      (hscan : done.foldlM (t.scan k (v.distOf k))
        ⟨if t.network.isRequired k then v else v.unsettle k, s.scanned⟩ = .ok s') :
      Moment t w s'.space

/-- The workspaces are in lockstep, and what was counted is the same. -/
structure Together (far : α → Prop) (n : Nat) (w₀ : Workspace α) (s s' : State α) : Prop where
  space : Workspace.Lockstep far n w₀ s.space s'.space
  scanned : s'.scanned = s.scanned

variable {far : α → Prop} {n : Nat} {w₀ w w' : Workspace α} {t : Walk α}

/-! ### One label -/

theorem credits_eq (h : Workspace.Alike w w') (k m : Nat) : t.credits w' k m = t.credits w k m := by
  unfold credits
  rw [h.mayCredit]

theorem take_together (h : Workspace.Lockstep far n w₀ w w') {k m : Nat} (hm : m < n)
    (hne : k ≠ m) (a : Nat) (base cost : α) :
    Workspace.Lockstep far n w₀ (t.take k m a base cost w) (t.take k m a base cost w') := by
  unfold take
  rw [credits_eq h.alike, h.alike.distOf]
  dsimp only
  split
  · exact h
  · split
    · have hvisited := Workspace.isVisited_setLabel_self
        (d := t.labelOf base cost m (t.credits w k m)) (p := some a) h.tracked.sized
        (h.tracked.lt_capacity hm)
      refine ((h.setLabel hm _ (some a)).record hvisited hne).enqueue ?_
      rwa [Ledger.isVisited_record]
    · exact h

/-- Taking an arc changes nothing, or gives its head a label that is better than the last. -/
theorem take_cases (h : Workspace.Tracked far n w₀ w) {k m : Nat} (hm : m < n) (hne : k ≠ m)
    (hopen : w.isSettled m = false) (a : Nat) (base cost : α) :
    t.take k m a base cost w = w ∨
      ∃ credit, Weight.below (t.labelOf base cost m credit) (w.distOf m) = true ∧
        w.Relabeled m (t.labelOf base cost m credit) (some a) (t.take k m a base cost w) := by
  unfold take
  dsimp only
  split
  · exact Or.inl rfl
  · split
    · next hd =>
      exact Or.inr ⟨_, hd,
        relabeled_relabeled h.sized h.traced h.consistent hne (h.lt_capacity hm) hopen⟩
    · exact Or.inl rfl

/-! ### Scans -/

section Steps

variable (hg : t.network.Linked) (hcost : ∀ a, a < t.network.arcCount → ∃ c, t.costs a = some c)
  {s s' : State α}

include hg hcost

theorem scan_together (h : Together far t.network.nodeCount w₀ s s') (base : α) {k a : Nat}
    (ha : a < t.network.arcCount) (htail : t.network.tailOf a = k) :
    Halt.Together (Together far t.network.nodeCount w₀) (t.scan k base s a)
      (t.scan k base s' a) := by
  have hne : k ≠ t.network.headOf a := htail ▸ (hg.head_ne_tail a ha).symm
  unfold scan
  dsimp only
  rw [h.space.alike.isSettled, h.scanned, h.space.alike.refuses]
  split
  · exact .through h
  · split
    · exact .through h
    · split
      · exact .overBudget ⟨h.space, rfl⟩
      · split
        · exact .through ⟨h.space, rfl⟩
        · obtain ⟨c, hc⟩ := hcost a ha
          rw [hc]
          exact .through ⟨take_together h.space (hg.head_lt a ha) hne a base c, rfl⟩

theorem scans_together (base : α) {k : Nat} {done : List Nat}
    (hdone : done <+: t.network.outArcs k) (h : Together far t.network.nodeCount w₀ s s') :
    Halt.Together (Together far t.network.nodeCount w₀) (done.foldlM (t.scan k base) s)
      (done.foldlM (t.scan k base) s') := by
  refine Halt.foldlM_together done (fun a ha s s' hs => ?_) s s' h
  obtain ⟨harc, htail⟩ := hg.mem_outArcs.mp (hdone.subset ha)
  exact scan_together hg hcost hs base harc htail

omit hg hcost in
/-- A node that is no required terminal may be extracted again. -/
theorem unsettle_together (h : Workspace.Lockstep far n w₀ w w') {k : Nat}
    (hk : ¬ w.queue.Waits k) (keep : Bool) :
    Workspace.Lockstep far n w₀ (if keep then w else w.unsettle k)
      (if keep then w' else w'.unsettle k) := by
  cases keep with
  | false => exact h.unsettle hk
  | true => exact h

theorem settleNext_together (h : Together far t.network.nodeCount w₀ s s') :
    Progress.Together (Together far t.network.nodeCount w₀) (t.settleNext s)
      (t.settleNext s') := by
  unfold settleNext
  rcases h.space.popMin? with ⟨hpop, hpop'⟩ | ⟨k, u, u', hpop, hpop', hu, -, hwaits⟩
  · rw [hpop, hpop']
    exact .done h
  · rw [hpop, hpop']
    dsimp only
    rw [hu.alike.distOf]
    split
    · exact .done ⟨hu, h.scanned⟩
    · refine Progress.ofScan_together (scans_together hg hcost _ (List.prefix_refl _) ?_)
      have hnext := unsettle_together hu hwaits (t.network.isRequired k)
      cases hk : t.network.isRequired k with
      | false => exact ⟨by simpa [hk] using hnext, h.scanned⟩
      | true => exact ⟨hu, h.scanned⟩

end Steps

/-! ### Runs -/

theorem initial_together (h : Workspace.Lockstep far n w₀ w w') (hstart : t.query.start < n) :
    Together far n w₀ (t.initial w) (t.initial w') :=
  ⟨h.label hstart 0 none, rfl⟩

theorem search_together (hg : t.network.Linked)
    (hcost : ∀ a, a < t.network.arcCount → ∃ c, t.costs a = some c)
    (hstart : t.query.start < t.network.nodeCount)
    (h : Workspace.Lockstep far t.network.nodeCount w₀ w w') (fuel : Nat) :
    BothOk (SameAnswer (Together far t.network.nodeCount w₀))
      (Progress.run t.settleNext .notFound fuel (t.initial w))
      (Progress.run t.settleNext .notFound fuel (t.initial w')) :=
  Progress.run_together (fun _ _ => settleNext_together hg hcost) fuel _ _
    (initial_together h hstart)

/-- At every moment of a search the workspace is tracked. -/
theorem Moment.tracked (hg : t.network.Linked)
    (hcost : ∀ a, a < t.network.arcCount → ∃ c, t.costs a = some c)
    (hstart : t.query.start < t.network.nodeCount)
    (h : Workspace.Tracked far t.network.nodeCount w₀ w) {u : Workspace α}
    (hu : t.Moment w u) : Workspace.Tracked far t.network.nodeCount w₀ u := by
  have hreached : ∀ {s}, Progress.Reached t.settleNext (t.initial w) s →
      Together far t.network.nodeCount w₀ s s := fun hs =>
    hs.together (fun s s' => settleNext_together hg hcost) (initial_together (.refl h) hstart)
  cases hu with
  | between hs => exact (hreached hs).space.tracked
  | extracted hs hpop => exact ((hreached hs).space.tracked.popMin? hpop).1
  | scanning hs hpop hdone hscan =>
    obtain ⟨hv, -, hwaits⟩ := (hreached hs).space.tracked.popMin? hpop
    refine (Halt.Together.of_eq_ok (scans_together hg hcost _ hdone ?_) hscan).space.tracked
    exact ⟨unsettle_together (.refl hv) hwaits _, rfl⟩

/-- Two answers are the same, with the network `g`, and the workspaces are in lockstep. -/
structure Found (far : α → Prop) (g : Network α) (w₀ : Workspace α)
    (x x' : WalkOutcome α × Network α × Workspace α) : Prop where
  answer : x'.1 = x.1
  network : x.2.1 = g
  network' : x'.2.1 = g
  space : Workspace.Lockstep far g.nodeCount w₀ x.2.2 x'.2.2

/-- Two searches in lockstep answer the same, leave their workspaces in lockstep, and give
back the network that they were given. -/
theorem runOn_together {g : Network α} {costs : CostView α} {ledger : Ledger}
    {query : WalkQuery α} (hg : g.Built) (hcost : ∀ a, a < g.arcCount → ∃ c, costs a = some c)
    (hstart : query.start < g.nodeCount) (hgoal : query.goal < g.nodeCount)
    (h : Workspace.Lockstep far g.nodeCount w₀ w w') :
    BothOk (Found far g w₀) (runOn g costs ledger query w) (runOn g costs ledger query w') := by
  by_cases hdeg : g.degreeOf query.start = 0 ∨ g.degreeOf query.goal = 0
  · rw [runOn_of_isolated hstart hgoal hdeg, runOn_of_isolated hstart hgoal hdeg]
    exact .ok ⟨rfl, rfl, rfl, h⟩
  · let t : Walk α := ⟨g.masked query.start query.goal, costs, ledger, query⟩
    have hcount : t.network.nodeCount = g.nodeCount := Network.nodeCount_masked
    have hlinked : t.network.Linked := (hg.masked query.start query.goal).wellFormed.toLinked
    obtain ⟨⟨o, s⟩, ⟨o', s'⟩, hrun, hrun', ho, hs⟩ := search_together (t := t) hlinked hcost
      (by rwa [hcount]) (by rwa [hcount]) (fuel t.network)
    obtain rfl : o = o' := ho
    have hspace := hs.space
    rw [hcount] at hspace
    rw [runOn_of_search hstart hgoal hdeg hrun, runOn_of_search hstart hgoal hdeg hrun']
    exact .ok ⟨rfl, rfl, rfl, hspace⟩

end Walk

end SteinerSearch
