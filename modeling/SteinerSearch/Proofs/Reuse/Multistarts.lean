import SteinerSearch.Proofs.Reuse.Trees
import SteinerSearch.Tree.Multistart

/-!
# Trees from several starts in a used workspace

All starts share one workspace, and each growth leaves it ready for the next one.  What is
done with a grown tree does not look at the workspace, and cannot fail: the nodes of the
tree are entered over arcs of the network, which have costs.

## Main definitions

* `Multistart.Moment` — the workspace at a moment of the growths from some starts.

## Main results

* `Tree.prune_ok`, `Tree.objective_ok` — what is done with a grown tree cannot fail.
* `Multistart.best_together` — two searches in lockstep find the same tree.
* `Multistart.Moment.tracked` — at every moment the workspace is tracked.
-/

namespace SteinerSearch

/-- A list whose every entry has a result has a list of results. -/
theorem mapM_ok {β γ ε : Type} {f : β → Except ε γ} {bs : List β}
    (h : ∀ b ∈ bs, ∃ c, f b = .ok c) : ∃ cs, bs.mapM f = .ok cs := by
  induction bs with
  | nil => exact ⟨[], rfl⟩
  | cons b bs ih =>
    obtain ⟨c, hc⟩ := h b List.mem_cons_self
    obtain ⟨cs, hcs⟩ := ih fun x hx => h x (List.mem_cons_of_mem _ hx)
    exact ⟨c :: cs, by rw [List.mapM_cons, hc, hcs]; rfl⟩

/-! ### What is done with a grown tree -/

namespace Tree

variable {α : Type} [Weight α] {g : Network α} {costs : CostView α} {t : Tree}

theorem Over.disconnect {known : Nat → Prop} (h : t.Over known) (v : Nat) :
    (t.disconnect v).Over known := by
  intro u a hu
  rw [predOf_disconnect] at hu
  split at hu
  · cases hu
  · exact h u a hu

variable (hcost : ∀ a, a < g.arcCount → ∃ c, costs a = some c)

omit [Weight α] in
theorem countChild_ok (ht : t.Over (· < g.arcCount)) (children : Array Nat) (v : Nat) :
    ∃ cs, Pruning.countChild g t children v = .ok cs := by
  unfold Pruning.countChild
  cases hpred : t.predOf v with
  | none => exact ⟨_, rfl⟩
  | some a =>
    dsimp only
    rw [checkArc, if_pos (ht v a hpred)]
    exact ⟨_, rfl⟩

include hcost

theorem isUseless_ok {a : Nat} (ha : a < g.arcCount) (v : Nat) :
    ∃ b, isUseless g costs v a = .ok b := by
  obtain ⟨c, hc⟩ := hcost a ha
  unfold isUseless
  rw [hc]
  split
  · exact ⟨_, rfl⟩
  · split
    · exact ⟨_, rfl⟩
    · exact ⟨_, rfl⟩

/-- A leaf that is looked at is kept, or removed from the tree. -/
theorem step_ok {s : Pruning} (hs : s.tree.Over (· < g.arcCount)) :
    (∃ s', Pruning.step g costs s = .more s' ∧ s'.tree.Over (· < g.arcCount)) ∨
      ∃ s', Pruning.step g costs s = .done () s' ∧ s'.tree.Over (· < g.arcCount) := by
  unfold Pruning.step
  split
  · exact Or.inr ⟨s, rfl, hs⟩
  · next v leaves _ =>
    left
    dsimp only
    cases hpred : s.tree.predOf v with
    | none => exact ⟨_, rfl, hs⟩
    | some a =>
      have ha : a < g.arcCount := hs v a hpred
      obtain ⟨useless, huseless⟩ := isUseless_ok hcost ha v
      dsimp only
      rw [huseless]
      cases useless with
      | false => exact ⟨_, rfl, hs⟩
      | true =>
        dsimp only
        rw [if_neg (Nat.not_le_of_lt ha)]
        exact ⟨_, rfl, hs.disconnect v⟩

theorem prune_ok (ht : t.Over (· < g.arcCount)) :
    ∃ removed t', t.prune g costs = .ok (removed, t') ∧ t'.Over (· < g.arcCount) := by
  -- neither the counts of children nor any number of steps can fail
  have hcounts : ∀ cs, ∃ cs', t.nodes.foldlM (Pruning.countChild g t) cs = .ok cs' := by
    intro cs
    obtain ⟨cs', hcs', -⟩ := foldlM_ok (f := Pruning.countChild g t) (J := fun _ _ => True)
      (s := cs) t.nodes (fun _ v cs _ _ => by simpa using countChild_ok ht cs v) trivial
    exact ⟨cs', hcs'⟩
  have hsteps : ∀ fuel (s : Pruning), s.tree.Over (· < g.arcCount) →
      ∃ a s', Progress.run (Pruning.step g costs) () fuel s = .ok (a, s') ∧
        s'.tree.Over (· < g.arcCount) := by
    refine Progress.run_ensures (I := fun _ (s : Pruning) => s.tree.Over _)
      (Q := fun _ (s : Pruning) => s.tree.Over _) (fun s hs => hs) fun _ s hs => ?_
    rcases step_ok hcost hs with h | ⟨s', h, hs'⟩
    · exact Or.inl h
    · exact Or.inr ⟨(), s', h, hs'⟩
  obtain ⟨children, hchildren⟩ := hcounts (Array.replicate g.nodeCount 0)
  obtain ⟨_, s, hrun, hs⟩ := hsteps (2 * g.nodeCount + 1)
    ⟨t, children, (t.nodes.filter fun v => children.getD v 0 == 0).reverse, 0⟩ ht
  unfold prune
  dsimp only
  rw [hchildren, ok_bind, hrun]
  exact ⟨_, _, rfl, hs⟩

theorem cost_ok (ht : t.Over (· < g.arcCount)) : ∃ c, t.cost costs = .ok c := by
  have harcs : ∀ a ∈ t.treeArcs, ∃ c, arcCost costs a = .ok c := by
    intro a ha
    obtain ⟨v, -, hv⟩ := List.mem_filterMap.mp ha
    obtain ⟨c, hc⟩ := hcost a (ht v a hv)
    exact ⟨c, by rw [arcCost, hc]⟩
  obtain ⟨cs, hcs⟩ := mapM_ok harcs
  unfold cost
  rw [hcs]
  exact ⟨_, rfl⟩

theorem objective_ok (ht : t.Over (· < g.arcCount)) : ∃ c, t.objective g costs = .ok c := by
  obtain ⟨c, hc⟩ := cost_ok hcost ht
  unfold objective
  rw [hc]
  exact ⟨_, rfl⟩

end Tree

namespace Multistart

variable {α : Type}

/-! ### Starts -/

theorem candidates_lt {g : Network α} {v : Nat} (hv : v ∈ candidates g) : v < g.nodeCount := by
  cases hrequired : g.markedRequired with
  | nil =>
    simp only [candidates, hrequired] at hv
    exact List.mem_range.mp (List.mem_of_mem_filter (List.mem_of_mem_filter hv))
  | cons u required =>
    simp only [candidates, hrequired] at hv
    rw [← hrequired] at hv
    exact List.mem_range.mp (List.mem_of_mem_filter hv)

variable [Weight α] {g : Network α} {costs : CostView α} {settings : Settings}

theorem starts_lt (hg : g.Built) {v : Nat} (hv : v ∈ starts g settings) : v < g.nodeCount := by
  unfold starts at hv
  split at hv
  · cases hv
  · split at hv
    · next root hroot =>
      rw [List.mem_singleton.mp hv]
      exact hg.root_lt hroot
    · exact candidates_lt ((Generator.shuffle_perm ..).mem_iff.mp (List.mem_of_mem_take hv))

/-! ### Growths -/

/-- The workspace is `u` at a moment of the growths from some starts, the first of which
starts in `w`. -/
inductive Moment (g : Network α) (costs : CostView α) (settings : Settings) :
    List Nat → Workspace α → Workspace α → Prop
  /-- A tree grows to span the required terminals. -/
  | spanning {start : Nat} {starts : List Nat} {w u : Workspace α}
      (hrule : isPrizeCollecting g = false)
      (h : Growth.StartMoment ⟨g, costs, .required⟩ start w u) :
      Moment g costs settings (start :: starts) w u
  /-- A tree grows for profit. -/
  | growing {start : Nat} {starts : List Nat} {w u : Workspace α}
      (hrule : isPrizeCollecting g = true)
      (h : Growth.StartMoment ⟨g, costs, .profitable .targetOnly⟩ start w u) :
      Moment g costs settings (start :: starts) w u
  /-- A tree that grew for profit is extended. -/
  | extending {start : Nat} {starts : List Nat} {w v u : Workspace α} {o : GrowthOutcome}
      {t : Tree} (hrule : isPrizeCollecting g = true)
      (hgrow : Growth.growFrom ⟨g, costs, .profitable .targetOnly⟩ start w = .ok (o, t, v))
      (h : Growth.ExtendMoment ⟨g, costs, .profitable .alongPath⟩
        (Nat.min settings.extensionRounds.toNat Growth.maxRounds) t v u) :
      Moment g costs settings (start :: starts) w u
  /-- The tree from the first start is done. -/
  | next {start : Nat} {starts : List Nat} {w v u : Workspace α} {new? : Option (RootedTree α)}
      (htree : treeFrom g costs settings start w = .ok (new?, v))
      (h : Moment g costs settings starts v u) : Moment g costs settings (start :: starts) w u

section Runs

variable {far : α → Prop} {w₀ w w' : Workspace α} (hg : g.Built)
  (hcost : ∀ a, a < g.arcCount → ∃ c, costs a = some c) (hfar : far Weight.faraway)
  (hroom : g.nodeCount ≤ w₀.capacity)

include hg hcost hfar hroom

theorem growFrom_together (h : Workspace.Rested far w₀ w w') {start : Nat}
    (hstart : start < g.nodeCount) :
    BothOk (Growth.Grown ⟨g, costs, .required⟩ far (· < g.arcCount) w₀)
      (growFrom g costs settings start w) (growFrom g costs settings start w') := by
  have hlinked := hg.wellFormed.toLinked
  unfold growFrom
  split
  · refine (Growth.growFrom_together (c := ⟨g, costs, .profitable .targetOnly⟩) hlinked
      (fun _ ha => ha) hcost hfar hroom h hstart).bind ?_
    rintro ⟨o, t, u⟩ ⟨o', t', u'⟩ hx
    obtain rfl : t' = t := hx.tree
    refine (Growth.extend_together (c := ⟨g, costs, .profitable .alongPath⟩) hlinked
      (fun _ ha => ha) hcost hfar hroom hx.space hx.entered hx.capacity _).bind ?_
    rintro ⟨n, t, v⟩ ⟨n', t', v'⟩ hy
    exact .ok ⟨hx.answer, hy.tree, hy.space, hy.entered, hy.capacity⟩
  · exact Growth.growFrom_together (c := ⟨g, costs, .required⟩) hlinked (fun _ ha => ha) hcost
      hfar hroom h hstart

theorem treeFrom_together (h : Workspace.Rested far w₀ w w') {start : Nat}
    (hstart : start < g.nodeCount) :
    BothOk (SameAnswer (Workspace.Rested far w₀)) (treeFrom g costs settings start w)
      (treeFrom g costs settings start w') := by
  unfold treeFrom
  refine (growFrom_together hg hcost hfar hroom h hstart).bind ?_
  rintro ⟨o, t, u⟩ ⟨o', t', u'⟩ hx
  obtain rfl : o' = o := hx.answer
  obtain rfl : t' = t := hx.tree
  dsimp only
  split
  · obtain ⟨removed, t, hprune, ht⟩ := Tree.prune_ok hcost hx.entered
    obtain ⟨c, hc⟩ := Tree.cost_ok hcost ht
    obtain ⟨d, hd⟩ := Tree.objective_ok hcost ht
    simp only [hprune, hc, hd, ok_bind]
    exact .ok ⟨rfl, hx.space⟩
  · exact .ok ⟨rfl, hx.space⟩

theorem bestOf_together {starts : List Nat} (hstarts : ∀ v ∈ starts, v < g.nodeCount) :
    ∀ {best? : Option (RootedTree α)} {w w' : Workspace α}, Workspace.Rested far w₀ w w' →
      BothOk (SameAnswer (Workspace.Rested far w₀)) (bestOf g costs settings starts best? w)
        (bestOf g costs settings starts best? w') := by
  induction starts with
  | nil => exact fun h => .ok ⟨rfl, h⟩
  | cons start starts ih =>
    intro best? w w' h
    refine (treeFrom_together hg hcost hfar hroom h (hstarts start List.mem_cons_self)).bind ?_
    rintro ⟨new?, u⟩ ⟨new?', u'⟩ ⟨hnew, hu⟩
    obtain rfl : new? = new?' := hnew
    exact ih (fun v hv => hstarts v (List.mem_cons_of_mem _ hv)) hu

/-- Two searches in lockstep find the same tree. -/
theorem best_together (h : Workspace.Rested far w₀ w w') :
    BothOk (SameAnswer (Workspace.Rested far w₀)) (best g costs settings w)
      (best g costs settings w') :=
  bestOf_together hg hcost hfar hroom (fun _ hv => starts_lt hg hv) h

/-- At every moment of the growths from some starts the workspace is tracked. -/
theorem Moment.tracked {starts : List Nat} (hstarts : ∀ v ∈ starts, v < g.nodeCount)
    (h : Workspace.Rested far w₀ w w) {u : Workspace α}
    (hu : Moment g costs settings starts w u) :
    Workspace.Tracked far g.nodeCount w₀ u := by
  have hlinked := hg.wellFormed.toLinked
  induction hu with
  | spanning _ hu =>
    exact hu.tracked hlinked (fun _ ha => ha) hcost hroom h (hstarts _ List.mem_cons_self)
  | growing _ hu =>
    exact hu.tracked hlinked (fun _ ha => ha) hcost hroom h (hstarts _ List.mem_cons_self)
  | extending _ hgrow hu =>
    have hx : Growth.Grown _ far (· < g.arcCount) w₀ _ _ :=
      (Growth.growFrom_together (c := ⟨g, costs, .profitable .targetOnly⟩) hlinked
        (fun _ ha => ha) hcost hfar hroom h (hstarts _ List.mem_cons_self)).of_eq_ok hgrow
    exact hu.tracked hlinked (fun _ ha => ha) hcost hfar hroom hx.space hx.entered hx.capacity
  | next htree _ ih =>
    have hv := (treeFrom_together hg hcost hfar hroom h
      (hstarts _ List.mem_cons_self)).of_eq_ok htree
    exact ih (fun v hv => hstarts v (List.mem_cons_of_mem _ hv)) hv.2

end Runs

end Multistart

end SteinerSearch
