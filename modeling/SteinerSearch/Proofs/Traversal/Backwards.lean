import SteinerSearch.Proofs.Network.Inward
import SteinerSearch.Proofs.Traversal.Unlimited

/-!
# Distances to the root

A traversal to the root starts in the root and walks arcs backwards: it follows the arcs that
leave a node, and prices each of them as its opposite.  What it labels is therefore the distance
to the root along arc directions.  The prices can also be laid out in advance, with the same
result.

## Main results

* `CostView.reversed_eq_ofArray` — the prices can be laid out in advance.
* `Traversal.toRoot_exact` — labels are the distances to the root.
-/

namespace SteinerSearch

section Costs

variable {α : Type} [Weight α] {g : Network α}

/-- The arcs of an edge are both in the network or both outside of it. -/
theorem Network.WellFormed.rev_lt_iff (hg : g.WellFormed) {a : Nat} :
    Arc.rev a < g.arcCount ↔ a < g.arcCount :=
  ⟨fun h => Arc.rev_rev a ▸ hg.rev_lt h, hg.rev_lt⟩

theorem Network.Linked.getElem?_cost (hg : g.Linked) (a : Nat) :
    g.cost[a]? = if a < g.arcCount then some (g.costOf a) else none := by
  rw [← hg.cost_size, Network.costOf, Array.getD_eq_getD_getElem?]
  split
  · next h => rw [Array.getElem?_eq_getElem h, Option.getD_some]
  · next h => rw [Array.getElem?_eq_none (not_lt.mp h)]

theorem Network.getElem?_reversedCosts (g : Network α) (a : Nat) :
    g.reversedCosts[a]? = if a < g.arcCount then some (g.costOf (Arc.rev a)) else none := by
  simp only [reversedCosts, List.getElem?_toArray, List.getElem?_map]
  split
  · next h => rw [List.getElem?_range h, Option.map_some]
  · next h => rw [List.getElem?_eq_none (by simpa using h), Option.map_none]

/-- Reading the cost of the opposite arc is reading the list of these costs. -/
theorem CostView.reversed_eq_ofArray (hg : g.WellFormed) :
    CostView.reversed g.cost = CostView.ofArray g.reversedCosts := by
  funext a
  rw [CostView.reversed, CostView.ofArray, hg.toLinked.getElem?_cost, g.getElem?_reversedCosts]
  simp only [hg.rev_lt_iff]

end Costs

namespace Traversal

variable {g : Network ℚ} {r : Nat} {w : Workspace ℚ}

theorem arcCost_reversed (g : Network ℚ) (l : Labeling) (limits : Limits ℚ) :
    arcCost ⟨g, .reversed g.cost, l, limits⟩ = fun a => g.costOf (Arc.rev a) := by
  funext a
  exact (Array.getD_eq_getD_getElem? ..).symm

/-- **A traversal to the root labels every node with its distance to the root.**  Costs are whole
numbers, and the two arcs of an edge may differ in cost.  Without limits the traversal ends by
itself, when the queue runs empty.  Every node from which some path leads to the root has the
length of a shortest one, where the nodes of a path other than the root are marked; its labels
spell out the opposites of the arcs of such a path, last arc first.  All other nodes stay far away.
A traversal from the root over the list of opposite costs leaves the same workspace. -/
theorem toRoot_exact (hg : g.Built)
    (hcost : ∀ a, a < g.arcCount → ∃ n : ℕ, g.costOf a = (n : ℚ)) (hr : g.root = some r)
    (hnear : ∀ v d, g.IsDistanceTo g.costOf r v d → d < Weight.faraway) (hw : w.Ready)
    (hroom : g.nodeCount ≤ w.capacity) :
    ∃ w', Ends ⟨g, .reversed g.cost, .pathLength, {}⟩ [r] w .exhausted w' ∧
      toRoot g g.cost {} w = .ok (.exhausted, w') ∧
      (∀ v, (∃ as, g.IsInwardPath r v as) → g.IsDistanceTo g.costOf r v (w'.distOf v) ∧
        ∃ as, pathArcs g w' v = .ok as ∧ as.length < g.nodeCount ∧
          g.IsInwardPath r v (as.reverse.map Arc.rev) ∧
          Network.pathLength g.costOf (as.reverse.map Arc.rev) = w'.distOf v) ∧
      (∀ v, (¬ ∃ as, g.IsInwardPath r v as) → w'.distOf v = Weight.faraway) ∧
      run ⟨g, .ofArray g.reversedCosts, .pathLength, {}⟩ [r] w = .ok (.exhausted, w') := by
  have hwf := hg.wellFormed
  have hnonneg : ∀ a, a < g.arcCount → 0 ≤ g.costOf a := fun a ha =>
    Weight.IsWhole.nonneg (hcost a ha)
  let t : Traversal ℚ := ⟨g, .reversed g.cost, .pathLength, {}⟩
  have hprice : t.arcCost = fun a => g.costOf (Arc.rev a) := arcCost_reversed g _ _
  have ht : MeasuresWhole t := by
    refine ⟨hwf.toLinked, rfl, fun a ha => ?_⟩
    obtain ⟨n, hn⟩ := hcost _ (hwf.rev_lt ha)
    refine ⟨n, ?_⟩
    rw [← hn]
    exact (hwf.toLinked.getElem?_cost _).trans (if_pos (hwf.rev_lt ha))
  -- the distances that are measured from the root
  have hdist : ∀ v d, g.IsDistanceTo g.costOf r v d ↔ g.IsDistance t.arcCost [r] v d := by
    rw [hprice]
    exact fun v d => Network.isDistanceTo_iff hwf hnonneg
  obtain ⟨w', hends, hrun, hreached, hunreached⟩ := run_unlimited ht rfl
    (fun v d hd => hnear v d ((hdist v d).mpr hd))
    (fun s hs => List.mem_singleton.mp hs ▸ hg.root_lt hr) hw hroom
  refine ⟨w', hends, ?_, fun v hv => ?_, fun v hv => ?_, ?_⟩
  · rw [toRoot, hr]
    exact hrun
  · obtain ⟨as, has⟩ := hv
    obtain ⟨bs, hbs, -⟩ := has.exists_isMarkedPath hwf hnonneg
    obtain ⟨d, hd⟩ := Network.exists_isDistance (fun a ha => ht.isWhole ha) hbs
    obtain ⟨rfl, ps, hps, hlt, ⟨s, hs, hpath⟩, hlen⟩ := hreached v d hd
    rw [List.mem_singleton.mp hs] at hpath
    refine ⟨(hdist v _).mpr hd, ps, hps, hlt, hpath.isInwardPath hwf, ?_⟩
    rw [Network.pathLength_map_rev, ← hprice, hlen]
  · refine hunreached v fun d hd => hv ?_
    obtain ⟨as, has, -⟩ := ((hdist v d).mpr hd).attained
    exact ⟨as, has⟩
  · rw [← CostView.reversed_eq_ofArray hwf]
    exact hrun

/-- To node 0 over an edge of length 3 from there and 5 to there. -/
theorem toRoot_exact_on_edge :
    let g := { ((Network.empty 2).pushArc 0 1 (3 : ℚ)).pushArc 1 0 5 with root := some 0 }
    ∃ w', Ends ⟨g, .reversed g.cost, .pathLength, {}⟩ [0] (.fresh 2 0) .exhausted w' ∧
      toRoot g g.cost {} (.fresh 2 0) = .ok (.exhausted, w') ∧
      g.IsDistanceTo g.costOf 0 1 (w'.distOf 1) := by
  intro g
  have hadd : (Network.empty 2).addArcPair 0 1 (3 : ℚ) 5 =
      .ok (0, ((Network.empty 2).pushArc 0 1 (3 : ℚ)).pushArc 1 0 5) := rfl
  have hbuilt : g.Built := ((Network.Built.empty 2).addArcPair hadd).setRoot (v := 0) rfl
  have hcost : ∀ a, a < g.arcCount → ∃ n : ℕ, g.costOf a = (n : ℚ) := by
    intro a ha
    change a < 2 at ha
    obtain rfl | rfl : a = 0 ∨ a = 1 := by omega
    · exact ⟨3, rfl⟩
    · exact ⟨5, rfl⟩
  have hnonneg : ∀ a, a < g.arcCount → 0 ≤ g.costOf a := fun a ha =>
    Weight.IsWhole.nonneg (hcost a ha)
  have hnear : ∀ v d, g.IsDistanceTo g.costOf 0 v d → d < Weight.faraway := by
    intro v d hd
    have hreach : g.DistancesInReach fun a => g.costOf (Arc.rev a) := by
      refine Network.distancesInReach_of_sum
        (fun a ha => hnonneg _ (hbuilt.wellFormed.rev_lt ha)) ?_
      change (5 : ℚ) + (3 + 0) < 1000000000000000
      norm_num
    exact hreach.lt_faraway ((Network.isDistanceTo_iff hbuilt.wellFormed hnonneg).mp hd)
  obtain ⟨w', hends, hrun, hreached, -⟩ :=
    toRoot_exact hbuilt hcost rfl hnear (Workspace.fresh_ready 2 0) (by decide)
  have hpath : g.IsInwardPath 0 1 [1] := ⟨⟨by decide, rfl, rfl⟩, by decide⟩
  exact ⟨w', hends, hrun, (hreached 1 ⟨[1], hpath⟩).1⟩

end Traversal

end SteinerSearch
