import SteinerSearch.Proofs.Reuse.Multistarts
import SteinerSearch.Proofs.Tree.Extended
import SteinerSearch.Proofs.Tree.Pruned

/-!
# The tree from one start

From a start a tree is grown, extended and pruned.  Each stage hands on a tree with the root and
the required terminals of the one before, and a value that is no larger.  So the tree in the
end is judged by the first stage: there is one if every required terminal can be reached, and
it is no worse than the tree that was grown.

## Main definitions

* `RootedTree.Spans g costs r` — what the tree from a start is to be.
* `Multistart.Measured g costs` — whole costs and prizes, and distances in reach.
* `Multistart.growthRule g` — the rule by which trees are grown.

## Main results

* `Growth.growFrom_closed` — what a growth from a start comes to, under any rule.
* `Multistart.treeFrom_spec` — the tree from a start, and when there is one.
-/

namespace SteinerSearch

/-- The tree of `r` is rooted at its start.  It has every marked required terminal, its cost and
its objective are as stated, and every other leaf is worth the arc that enters it. -/
structure RootedTree.Spans (g : Network ℚ) (costs : CostView ℚ) (r : RootedTree ℚ) : Prop where
  rooted : r.tree.RootedAt g r.start
  required : ∀ v ∈ g.markedRequired, r.tree.contains v = true
  cost : r.tree.cost costs = .ok r.cost
  objective : r.tree.objective g costs = .ok r.objective
  leaves : ∀ v, r.tree.IsLeaf g v → v ≠ r.start →
    ∃ a, r.tree.predOf v = some a ∧ Tree.Pays g (fun a => (costs a).getD 0) v a

namespace Growth

variable {c : Growth ℚ} {start : Nat} {w : Workspace ℚ} {s : State ℚ}

/-- No required terminal is open if all of them are in the tree. -/
theorem Closed.openRequired_eq_zero_iff {due : Nat → Prop} (h : Closed c start due s) :
    s.openRequired = 0 ↔ ∀ v ∈ c.network.markedRequired, s.tree.contains v = true := by
  rw [h.count, openRequired, List.length_eq_zero_iff, List.filter_eq_nil_iff]
  simp

/-- A growth from a start ends with a rooted tree, in a workspace that is ready again.  It is
complete if every required terminal can be reached. -/
theorem growFrom_closed (hc : Measured c) (hreach : c.network.DistancesInReach c.arcCost)
    (hstart : start < c.network.nodeCount) (hw : w.Ready)
    (hroom : c.network.nodeCount ≤ w.capacity) :
    ∃ s, c.growFrom start w = .ok (.ofMissing s.openRequired, s.tree, s.space.reset) ∧
      Closed c start (fun _ => False) s ∧
      (s.openRequired = 0 ↔ ∀ v ∈ c.network.markedRequired, c.network.IsReachable start v) ∧
      s.space.reset.Ready ∧ c.network.nodeCount ≤ s.space.reset.capacity := by
  obtain ⟨w₀, hseed, hclosed₀⟩ := closed_start hw hroom hstart
  obtain ⟨s, -, hrun, hclosed, hend⟩ := hclosed₀.run_ends hc
  have hgrow := growFrom_eq hstart hseed hrun
  have hgrown : Grown c Weight.LooksFar (fun _ => True) w _ _ :=
    (growFrom_together hc.linked (fun _ _ => trivial)
      (fun a ha => (hc.cost a ha).imp' _ fun _ => id) Weight.looksFar_faraway hroom
      (hw.rested hw (.refl w)) hstart).of_eq_ok hgrow
  refine ⟨s, hgrow, hclosed, ?_, hgrown.space.clean.ready, ?_⟩
  · rw [hclosed.openRequired_eq_zero_iff]
    exact forall₂_congr fun v hv => hclosed.contains_iff hc hreach hend hv
  · exact hroom.trans_eq hgrown.space.sameSize.capacity.symm

end Growth

namespace Multistart

/-- Costs and prizes are natural numbers, and distances are in reach. -/
structure Measured (g : Network ℚ) (costs : CostView ℚ) : Prop where
  built : g.Built
  cost : ∀ a, a < g.arcCount → ∃ n : ℕ, costs a = some (n : ℚ)
  prize : ∀ v, v < g.nodeCount → ∃ n : ℕ, g.prizeOf v = n
  reach : g.DistancesInReach fun a => (costs a).getD 0

/-- The rule by which trees are grown: for profit if there are optional terminals. -/
def growthRule (g : Network ℚ) : GrowthRule :=
  if isPrizeCollecting g then .profitable .targetOnly else .required

variable {g : Network ℚ} {costs : CostView ℚ} {settings : Settings} {start : Nat}
  {w : Workspace ℚ}

theorem Measured.growth (h : Measured g costs) (rule : GrowthRule) :
    Growth.Measured ⟨g, costs, rule⟩ :=
  ⟨h.built.wellFormed.toLinked, h.cost⟩

/-- The tree from a start is the one that is grown, or an extension of it. -/
theorem eq_or_extended {outcome outcome' : GrowthOutcome} {t₀ t : Tree} {u w' : Workspace ℚ}
    (hgrow : Growth.growFrom ⟨g, costs, growthRule g⟩ start w = .ok (outcome, t₀, u))
    (hrun : growFrom g costs settings start w = .ok (outcome', t, w')) :
    outcome' = outcome ∧ (t = t₀ ∨ ∃ rounds added,
      Growth.extend ⟨g, costs, .profitable .alongPath⟩ rounds t₀ u = .ok (added, t, w')) := by
  unfold growFrom at hrun
  unfold growthRule at hgrow
  by_cases hrule : isPrizeCollecting g = true
  · rw [if_pos hrule] at hrun hgrow
    rw [hgrow, ok_bind] at hrun
    dsimp only at hrun
    generalize hextend : Growth.extend _ _ t₀ u = x at hrun
    cases x with
    | error e => cases hrun
    | ok x =>
      cases hrun
      exact ⟨rfl, Or.inr ⟨_, x.1, hextend⟩⟩
  · rw [if_neg hrule] at hrun hgrow
    rw [hgrow] at hrun
    cases hrun
    exact ⟨rfl, Or.inl rfl⟩

section OneStart

variable (settings : Settings) (h : Measured g costs) (hstart : start < g.nodeCount)
  (hw : w.Ready) (hroom : g.nodeCount ≤ w.capacity)

include h hstart hw hroom

/-- The tree that is grown, and what the extension makes of it. -/
theorem growFrom_spec :
    ∃ outcome t₀ u t w', Growth.growFrom ⟨g, costs, growthRule g⟩ start w = .ok (outcome, t₀, u) ∧
      growFrom g costs settings start w = .ok (outcome, t, w') ∧ t₀.RootedAt g start ∧
      (outcome = .complete ↔ ∀ v ∈ g.markedRequired, g.IsReachable start v) ∧
      (outcome = .complete → (∀ v ∈ g.markedRequired, t₀.contains v = true) ∧
        Tree.NoWorse g (fun a => (costs a).getD 0) start t₀ t) := by
  obtain ⟨s, hgrow, hclosed, hiff, hready, hcap⟩ := Growth.growFrom_closed
    (h.growth (growthRule g)) h.reach hstart hw hroom
  have hboth : BothOk _ (growFrom g costs settings start w) (growFrom g costs settings start w) :=
    growFrom_together h.built (fun a ha => (h.cost a ha).imp' _ fun _ => id)
      Weight.looksFar_faraway hroom (hw.rested hw (.refl w)) hstart
  obtain ⟨⟨outcome, t, w'⟩, -, hrun, -⟩ := hboth
  obtain ⟨rfl, hextended⟩ := eq_or_extended hgrow hrun
  refine ⟨_, _, _, t, w', hgrow, hrun, hclosed.rooted, ?_, fun hcomplete => ?_⟩
  · rw [Growth.ofMissing_eq_complete_iff, hiff]
  · rw [Growth.ofMissing_eq_complete_iff, hclosed.openRequired_eq_zero_iff] at hcomplete
    refine ⟨hcomplete, ?_⟩
    rcases hextended with rfl | ⟨rounds, added, hextend⟩
    · exact .refl hclosed.treeSized hclosed.rooted
    · obtain ⟨added', t', u', hextend', hless⟩ := Growth.extend_noWorse
        (h.growth (.profitable .alongPath)) h.prize rounds hcomplete hclosed.treeSized
        hclosed.rooted hready hcap
      cases hextend.symm.trans hextend'
      exact hless

/-- There is a tree from a start if every required terminal can be reached.  It spans them, and
its objective is no larger than that of the tree that is grown. -/
theorem treeFrom_spec :
    ∃ new? w' outcome t₀ u x, treeFrom g costs settings start w = .ok (new?, w') ∧
      Growth.growFrom ⟨g, costs, growthRule g⟩ start w = .ok (outcome, t₀, u) ∧
      t₀.objective g costs = .ok x ∧
      (new?.isSome = true ↔ ∀ v ∈ g.markedRequired, g.IsReachable start v) ∧
      ∀ r, new? = some r → r.start = start ∧ r.Spans g costs ∧ Weight.IsWhole r.objective ∧
        r.objective ≤ x := by
  have hc := h.growth .required
  obtain ⟨outcome, t₀, u, t, w', hgrow, hrun, hrooted, hiff, hcomplete⟩ :=
    growFrom_spec settings h hstart hw hroom
  have hvalue := Tree.objective_eq hc hrooted.entering
  unfold treeFrom
  rw [hrun, ok_bind]
  dsimp only
  by_cases hdone : outcome = .complete
  · obtain ⟨hall, hless⟩ := hcomplete hdone
    obtain ⟨removed, t', hprune, hpruned, hpaying⟩ :=
      Tree.prune_spec hc h.prize hless.sized hless.rooted
    have hbetter := hless.trans hpruned
    have hentering := hbetter.rooted.entering
    have hcost := Tree.cost_eq hc hentering
    have hobjective := Tree.objective_eq hc hentering
    rw [if_pos hdone, hprune, ok_bind, hcost, ok_bind, hobjective, ok_bind]
    refine ⟨_, w', outcome, t₀, u, _, rfl, hgrow, hvalue, ?_, ?_⟩
    · simpa [hdone] using hiff
    · rintro r ⟨⟩
      refine ⟨rfl, ⟨hbetter.rooted, fun v hv => ?_, hcost, hobjective, fun v hleaf hne => ?_⟩,
        Tree.isWhole_value hc hentering h.prize, hbetter.value_le⟩
      · exact hbetter.required v (Growth.mem_markedRequired.mp hv).2.1 (hall v hv)
      · obtain ⟨-, a, hpred, -⟩ := hbetter.rooted.entered v hleaf.1 hne
        exact ⟨a, hpred, hpaying v a hleaf hpred⟩
  · rw [if_neg hdone]
    refine ⟨none, w', outcome, t₀, u, _, rfl, hgrow, hvalue, ?_, fun r hr => by cases hr⟩
    rw [← hiff]
    simp [hdone]

end OneStart

end Multistart

end SteinerSearch
