import SteinerSearch.Proofs.Tree.Values

/-!
# Pruned trees

What pruning makes of a forest can be told from the forest alone: a node stays if it is a root or
something in its subtree is of worth.  What goes does not pay for the arcs that lead to it, so the
value of the tree does not rise; and since the leaves that stay are of worth, there is nothing left
to prune.

## Main definitions

* `Tree.IsLeaf g t v` — no arc of the tree leaves the node.
* `Tree.Pays g cost v a` — a leaf is worth the arc that enters it.
* `Tree.Paying g cost t` — every leaf that is entered is worth its arc.
* `Tree.Pruned g costs t removed t'` — what `t'` is if it is left after `removed` nodes of `t`
  were removed.
* `Tree.CountersHold g costs t` — a counter is positive whenever it may have to be lowered.

## Main results

* `Tree.Remnant.value_le` — removals do not raise the value.
* `Tree.prune_spec` — a pruned tree is no worse, and its leaves pay for themselves.
* `Tree.prune_exact` — which nodes a pruning removes.
-/

namespace SteinerSearch

namespace Tree

/-- The node is in the tree, and no arc of the tree leaves it. -/
def IsLeaf (g : Network ℚ) (t : Tree) (v : Nat) : Prop :=
  t.contains v = true ∧ ∀ u b, t.predOf u = some b → g.tailOf b ≠ v

/-- A leaf is worth the arc that enters it: it is required, or its prize pays for the arc. -/
def Pays (g : Network ℚ) (cost : Nat → ℚ) (v a : Nat) : Prop :=
  g.isRequired v = true ∨ g.isPseudo v = true ∧ cost a ≤ g.prizeOf v

/-- Every leaf that is entered is worth its arc. -/
def Paying (g : Network ℚ) (cost : Nat → ℚ) (t : Tree) : Prop :=
  ∀ v a, t.IsLeaf g v → t.predOf v = some a → Pays g cost v a

/-- What pruning makes of a forest `t`: it removes `removed` nodes and leaves `t'`. -/
structure Pruned {α : Type} [Weight α] (g : Network α) (costs : CostView α) (t : Tree)
    (removed : Nat) (t' : Tree) : Prop where
  /-- What is left is a forest again. -/
  forest : t'.IsForest g
  /-- A node stays if it is a root, or if something in its subtree is of worth. -/
  contains : ∀ v, t'.contains v = true ↔ t.contains v = true ∧
    (t.predOf v = none ∨ ∃ w, t.Under g w v ∧ t.Worth g costs w)
  /-- A node that stays keeps its arc, and no arc enters any other. -/
  predOf : ∀ v, t'.predOf v = if t'.contains v = true then t.predOf v else none
  /-- The nodes that go are counted. -/
  removed : removed = g.nodes.countP fun v => t.contains v && !t'.contains v
  /-- There is nothing left to prune. -/
  again : t'.prune g costs = .ok (0, t')

/-- Whenever a leaf is looked at that an arc enters, the counter of its parent is positive. -/
def CountersHold {α : Type} [Weight α] (g : Network α) (costs : CostView α) (t : Tree) : Prop :=
  ∃ children, t.nodes.foldlM (Pruning.countChild g t) (Array.replicate g.nodeCount 0) =
      .ok children ∧
    ∀ s, Progress.Reached (Pruning.step g costs) (Pruning.start t children) s →
      ∀ v a leaves, s.leaves = v :: leaves → s.tree.predOf v = some a →
        0 < s.children.getD (g.tailOf a) 0

/-! ### Which nodes go -/

section Exact

variable {α : Type} [Weight α] {g : Network α} {costs : CostView α} {t : Tree}

/-- When a pruning has ended, its tree is as it is to be. -/
theorem Pruning.Sound.pruned {s : Pruning} (h : t.IsForest g) (hs : Pruning.Sound g costs t s)
    (hleaves : s.leaves = []) : Pruned g costs t s.removed s.tree := by
  have hentering := hs.remnant.entering
  have hworth : ∀ v a, s.tree.predOf v = some a → s.tree.childCount g v = 0 →
      t.Worth g costs v := by
    intro v a hpred hbare
    refine hs.judged v a hpred hbare ?_
    rw [hleaves]
    exact List.not_mem_nil
  refine ⟨hs.remnant.isForest h, fun v => hs.remnant.contains_iff h hworth, fun v => ?_,
    hs.removed, prune_eq_self_of_worth hentering (fun v a hpred => ?_) fun v a hpred hbare => ?_⟩
  · split
    · next hv => exact hs.remnant.kept v hv
    · next hv => exact hentering.predOf_of_not_contains (Bool.eq_false_iff.mpr hv)
  · exact hs.remnant.sized.lt_of_contains (hentering v a hpred).2.2.2
  · rw [hs.worth_iff (hentering v a hpred).2.2.1]
    exact hworth v a hpred hbare

end Exact

/-! ### Values -/

variable {c : Growth ℚ} {g : Network ℚ} {costs : CostView ℚ} {cost : Nat → ℚ} {t t₀ : Tree}
  {start v a : Nat}

theorem isLeaf_iff (h : t.Entering g) :
    t.IsLeaf g v ↔ t.contains v = true ∧ t.childCount g v = 0 := by
  rw [IsLeaf, childCount_eq_zero_iff h]

/-- What goes costs at least as much as it brings. -/
theorem Remnant.value_le (h : Remnant g costs t₀ t) (h₀ : t₀.IsForest g)
    (hcosts : ∀ a, a < g.arcCount → costs a = some (cost a))
    (hnonneg : ∀ a, a < g.arcCount → 0 ≤ cost a) : t.value g cost ≤ t₀.value g cost := by
  refine value_le_of_share_le h₀.sized h₀.entering h.sized h.entering fun v => ?_
  unfold share
  by_cases hv : t.contains v = true
  · rw [h.kept v hv, hv, h.within v hv]
  · rw [Bool.not_eq_true] at hv
    rw [h.entering.predOf_of_not_contains hv]
    by_cases hv₀ : t₀.contains v = true
    · obtain ⟨hsome, hworth⟩ := h.gone v hv₀ hv
      obtain ⟨a, hpred⟩ := Option.ne_none_iff_exists'.mp hsome
      obtain ⟨ha, -⟩ := h₀.entering v a hpred
      have hcost := hnonneg a ha
      have hgone : (if g.isPseudo v = true ∧ t.contains v = false then g.prizeOf v else 0) ≤
          cost a := by
        split
        · next hmissed =>
          have hbelow : Weight.below (g.prizeOf v) (cost a) = true := by
            by_contra hnot
            exact hworth v .refl
              (Or.inr ⟨hmissed.1, a, cost a, hpred, hcosts a ha, Bool.eq_false_iff.mpr hnot⟩)
          have htol := Weight.tolerance_pos
          have hless := Weight.below_rat.mp hbelow
          linarith
        · exact hcost
      rw [hpred, hv₀]
      simpa using hgone
    · rw [Bool.not_eq_true] at hv₀
      rw [h₀.entering.predOf_of_not_contains hv₀, hv, hv₀]

/-- The root stays, and what stays is rooted there. -/
theorem Remnant.rootedAt (h : Remnant g costs t₀ t) (hsized : t₀.Sized g.nodeCount)
    (h₀ : t₀.RootedAt g start) : t.RootedAt g start := by
  have hstart : t.contains start = true := by
    by_contra hout
    exact (h.gone start h₀.root.1 (Bool.eq_false_iff.mpr hout)).1 h₀.root.2
  refine (h.isForest (h₀.isForest hsized)).rootedAt hstart (fun v hv => ?_) fun v hv hne => ?_
  · rw [h.kept v hv]
    exact h₀.predOf_eq_none_iff (h.within v hv)
  · exact (h₀.entered v (h.within v hv) hne).1

/-- A node is of worth if it pays for the arc that enters it. -/
theorem pays_of_worth (hc : Growth.Measured c)
    (hprize : ∀ v, v < c.network.nodeCount → Weight.IsWhole (c.network.prizeOf v))
    (ha : a < c.network.arcCount) (hv : v < c.network.nodeCount) (hpred : t.predOf v = some a)
    (hworth : t.Worth c.network c.costs v) : Pays c.network c.arcCost v a := by
  rcases hworth with hreq | ⟨hpseudo, b, x, hb, hx, hpays⟩
  · exact Or.inl hreq
  · obtain rfl := Option.some.inj (hpred.symm.trans hb)
    obtain rfl := Option.some.inj ((hc.costs_eq ha).symm.trans hx)
    rw [Bool.eq_false_iff, Ne, Weight.below_iff ((hprize v hv).apart (hc.isWhole ha)), not_lt]
      at hpays
    exact Or.inr ⟨hpseudo, hpays⟩

/-- A pruned tree is no worse, and its leaves are worth their arcs. -/
theorem prune_spec (hc : Growth.Measured c)
    (hprize : ∀ v, v < c.network.nodeCount → Weight.IsWhole (c.network.prizeOf v))
    (hsized : t.Sized c.network.nodeCount) (hrooted : t.RootedAt c.network start) :
    ∃ removed t', t.prune c.network c.costs = .ok (removed, t') ∧
      NoWorse c.network c.arcCost start t t' ∧ t'.Paying c.network c.arcCost := by
  have hforest := hrooted.isForest hsized
  have hdefined : ∀ a, a < c.network.arcCount → (c.costs a).isSome = true := by
    intro a ha
    rw [hc.costs_eq ha, Option.isSome_some]
  obtain ⟨-, s, -, -, hprune, hs, hleaves⟩ := exists_prune_eq hdefined hforest
  refine ⟨s.removed, s.tree, hprune, ⟨hs.remnant.sized, hs.remnant.rootedAt hsized hrooted,
    fun v hreq hv => ?_, ?_⟩, fun v a hleaf hpred => ?_⟩
  · by_contra hout
    exact (hs.remnant.gone v hv (Bool.eq_false_iff.mpr hout)).2 v .refl (Or.inl hreq)
  · exact hs.remnant.value_le hforest (fun _ => hc.costs_eq) fun _ => hc.nonneg
  · obtain ⟨ha, rfl, hv, -⟩ := hs.remnant.entering v a hpred
    have hbare := ((isLeaf_iff hs.remnant.entering).mp hleaf).2
    refine pays_of_worth hc hprize ha (hs.remnant.sized.lt_of_contains hv)
      (hs.remnant.predOf_eq hpred) (hs.judged _ a hpred hbare ?_)
    rw [hleaves]
    exact List.not_mem_nil

/-- **What pruning removes.**  A pruning removes the nodes with an arc below which nothing is of
worth, whatever the weights are and in whatever order the leaves are looked at.  In exact
arithmetic, and with costs that are not negative, it does not raise the objective. -/
theorem prune_exact :
    (∀ (α : Type) [Weight α] (g : Network α) (costs : CostView α) (t : Tree), t.IsForest g →
      (∀ a, a < g.arcCount → (costs a).isSome = true) →
      CountersHold g costs t ∧
        ∃ removed t', t.prune g costs = .ok (removed, t') ∧ Pruned g costs t removed t') ∧
    ∀ (g : Network ℚ) (costs : CostView ℚ) (t : Tree), t.IsForest g →
      (∀ a, a < g.arcCount → ∃ x, costs a = some x ∧ 0 ≤ x) →
      ∃ removed t' x x', t.prune g costs = .ok (removed, t') ∧ t.objective g costs = .ok x ∧
        t'.objective g costs = .ok x' ∧ x' ≤ x := by
  refine ⟨fun α _ g costs t h hcosts => ?_, fun g costs t h hcosts => ?_⟩
  · obtain ⟨children, s, hchildren, hreached, hprune, hs, hleaves⟩ := exists_prune_eq hcosts h
    exact ⟨⟨children, hchildren, fun s' hs' v a leaves hcons hpred =>
      (hreached s' hs').counter_pos hcons hpred⟩, s.removed, s.tree, hprune, hs.pruned h hleaves⟩
  · have hcost : ∀ a, a < g.arcCount → costs a = some ((costs a).getD 0) ∧
        0 ≤ (costs a).getD 0 := by
      intro a ha
      obtain ⟨x, hx, hnonneg⟩ := hcosts a ha
      rw [hx]
      exact ⟨rfl, hnonneg⟩
    have hdefined : ∀ a, a < g.arcCount → (costs a).isSome = true := by
      intro a ha
      rw [(hcost a ha).1, Option.isSome_some]
    obtain ⟨-, s, -, -, hprune, hs, -⟩ := exists_prune_eq hdefined h
    exact ⟨s.removed, s.tree, _, _, hprune,
      objective_eq_of_costs (fun a ha => (hcost a ha).1) h.entering,
      objective_eq_of_costs (fun a ha => (hcost a ha).1) hs.remnant.entering,
      hs.remnant.value_le h (fun a ha => (hcost a ha).1) fun a ha => (hcost a ha).2⟩

/-- A path from node 0 over node 1, which has a prize of 3, to node 2, which has one of 1. -/
def twig : Network ℚ :=
  { ((Network.empty 3).pushArc 0 1 (2 : ℚ)).pushArc 1 2 4 with
    kind := #[.steiner, .pseudo, .pseudo], prize := #[0, 3, 1] }

/-- The tree of the whole path. -/
def wholeTwig : Tree := ⟨#[true, true, true], #[none, some 0, some 1]⟩

theorem isForest_wholeTwig : wholeTwig.IsForest twig := by
  refine isForest_of_chains ⟨rfl, rfl⟩ (fun v a hpred => ?_) fun v hv => ?_
  · have hv : v < 3 := by
      by_contra hv
      rw [predOf, Array.getD_of_size_le (Nat.le_of_not_lt hv)] at hpred
      cases hpred
    obtain rfl | rfl | rfl : v = 0 ∨ v = 1 ∨ v = 2 := by omega
    · cases hpred
    · cases hpred
      decide
    · cases hpred
      decide
  · have hv : v < 3 := lt_size_of_contains hv
    obtain rfl | rfl | rfl : v = 0 ∨ v = 1 ∨ v = 2 := by omega
    · exact ⟨_, .stop rfl⟩
    · exact ⟨_, .cons (by decide) rfl (.stop rfl)⟩
    · exact ⟨_, .cons (by decide) rfl (.cons (by decide) rfl (.stop rfl))⟩

/-- The prize of node 2 does not pay for its arc, and that of node 1 does. -/
theorem prune_exact_on_twig :
    CountersHold twig (.ofArray twig.cost) wholeTwig ∧
      Pruned twig (.ofArray twig.cost) wholeTwig 1 (wholeTwig.disconnect 2) ∧
      ∃ x x', wholeTwig.objective twig (.ofArray twig.cost) = .ok x ∧
        (wholeTwig.disconnect 2).objective twig (.ofArray twig.cost) = .ok x' ∧ x' ≤ x := by
  have hrun : wholeTwig.prune twig (.ofArray twig.cost) = .ok (1, wholeTwig.disconnect 2) := by
    decide +kernel
  have hcosts : ∀ a, a < twig.arcCount →
      ∃ x, CostView.ofArray twig.cost a = some x ∧ 0 ≤ x := by
    intro a ha
    change a < 2 at ha
    obtain rfl | rfl : a = 0 ∨ a = 1 := by omega
    · exact ⟨2, rfl, by norm_num⟩
    · exact ⟨4, rfl, by norm_num⟩
  obtain ⟨hcounters, removed, t', hprune, hpruned⟩ := prune_exact.1 ℚ twig (.ofArray twig.cost)
    wholeTwig isForest_wholeTwig fun a ha => by
      obtain ⟨x, hx, -⟩ := hcosts a ha
      rw [hx]
      rfl
  obtain ⟨removed', t'', x, x', hprune', hx, hx', hle⟩ :=
    prune_exact.2 twig (.ofArray twig.cost) wholeTwig isForest_wholeTwig hcosts
  cases hrun.symm.trans hprune
  cases hrun.symm.trans hprune'
  exact ⟨hcounters, hpruned, x, x', hx, hx', hle⟩

end Tree

end SteinerSearch
