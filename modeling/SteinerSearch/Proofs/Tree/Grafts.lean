import SteinerSearch.Proofs.Tree.Remnants

/-!
# Trees with one more branch

A branch that joins a tree is a path of new nodes.  The arcs of the larger tree are those of
the tree and those of the path, so that costs add up, and a leaf of the larger tree is a leaf
of the tree or the end of the path.

## Main definitions

* `Tree.Grafted g t as k t'` — `t'` is `t` with the path `as` to `k`.
* `Tree.Useful g t` — whatever is entered is required, or has a child.

## Main results

* `Tree.Grafted.perm_treeArcs` — the arcs of a tree with one more branch.
* `Tree.cost_eq` — the cost of a tree is the length of the list of its arcs.
* `Tree.prune_eq_self` — pruning leaves a tree without useless leaves as it is.
-/

namespace SteinerSearch

theorem Weight.sum_rat (as : List ℚ) : Weight.sum as = as.sum := by
  have hfold : ∀ (as : List ℚ) (b : ℚ), as.foldl (· + ·) b = b + as.sum := by
    intro as
    induction as with
    | nil => exact fun b => (add_zero b).symm
    | cons a as ih =>
      intro b
      rw [List.foldl_cons, ih, List.sum_cons, add_assoc]
  exact (hfold as 0).trans (zero_add _)

namespace Tree

variable {g : Network ℚ} {t t' : Tree} {as : List Nat} {k v a : Nat}

/-! ### Arcs and costs -/

/-- The cost of a tree is the length of the list of its arcs. -/
theorem cost_eq_of_costs {costs : CostView ℚ} {cost : Nat → ℚ}
    (hcosts : ∀ a, a < g.arcCount → costs a = some (cost a)) (h : t.Entering g) :
    t.cost costs = .ok (Network.pathLength cost t.treeArcs) := by
  have hmap : ∀ as : List Nat, (∀ a ∈ as, a < g.arcCount) →
      as.mapM (arcCost costs) = .ok (as.map cost) := by
    intro as
    induction as with
    | nil => exact fun _ => rfl
    | cons a as ih =>
      intro has
      rw [List.mapM_cons, arcCost, hcosts a (has a List.mem_cons_self),
        ih fun b hb => has b (List.mem_cons_of_mem a hb)]
      rfl
  have harcs : ∀ a ∈ t.treeArcs, a < g.arcCount := fun a ha =>
    (h _ a ((mem_treeArcs h).mp ha)).1
  rw [Tree.cost, hmap _ harcs, ok_bind, Weight.sum_rat]
  rfl

theorem cost_eq {c : Growth ℚ} (hc : Growth.Measured c) (h : t.Entering c.network) :
    t.cost c.costs = .ok (Network.pathLength c.arcCost t.treeArcs) :=
  cost_eq_of_costs (fun _ => hc.costs_eq) h

/-! ### A branch -/

/-- `t'` is `t` with the path `as` to `k`, which starts in the tree and leads over new
nodes. -/
structure Grafted (g : Network ℚ) (t : Tree) (as : List Nat) (k : Nat) (t' : Tree) : Prop where
  /-- The path enters marked nodes only. -/
  path : ∃ u, t.contains u = true ∧ g.IsMarkedPath u as k
  /-- Its arcs lead to new nodes, each to another one. -/
  fresh : ∀ a ∈ as, t.contains (g.headOf a) = false
  nodup : (as.map g.headOf).Nodup
  /-- These nodes join the tree, over the arcs of the path. -/
  contains : ∀ v, t'.contains v = true ↔ v ∈ as.map g.headOf ∨ t.contains v = true
  entered : ∀ a ∈ as, t'.predOf (g.headOf a) = some a
  /-- All others keep their arcs. -/
  kept : ∀ v, v ∉ as.map g.headOf → t'.predOf v = t.predOf v

theorem Grafted.contains_end (h : t.Grafted g as k t') : t'.contains k = true := by
  obtain ⟨u, hu, hpath⟩ := h.path
  rw [h.contains]
  rcases List.eq_nil_or_concat' as with rfl | ⟨xs, a, rfl⟩
  · obtain rfl := Network.isMarkedPath_nil.mp hpath
    exact Or.inr hu
  · obtain ⟨-, -, rfl, -⟩ := Network.isMarkedPath_concat.mp hpath
    exact Or.inl (List.mem_map_of_mem (by simp))

theorem Grafted.predOf_eq_some_iff (h : t.Grafted g as k t') (ht : t.Entering g) {v a : Nat} :
    t'.predOf v = some a ↔ a ∈ as ∧ g.headOf a = v ∨ t.predOf v = some a := by
  by_cases hv : v ∈ as.map g.headOf
  · obtain ⟨b, hb, rfl⟩ := List.mem_map.mp hv
    have hold : t.predOf (g.headOf b) ≠ some a := by
      intro hpred
      have hin := (ht _ a hpred).2.2.1
      rw [h.fresh b hb] at hin
      cases hin
    rw [h.entered b hb, or_iff_left hold, Option.some.injEq]
    refine ⟨fun hba => ⟨hba ▸ hb, congrArg g.headOf hba.symm⟩, fun ⟨ha, hhead⟩ => ?_⟩
    exact (List.inj_on_of_nodup_map h.nodup ha hb hhead).symm
  · rw [h.kept v hv]
    refine ⟨Or.inr, fun hpred => hpred.resolve_left ?_⟩
    rintro ⟨ha, rfl⟩
    exact hv (List.mem_map_of_mem ha)

/-- The arcs of the larger tree are those of the tree and those of the path. -/
theorem Grafted.perm_treeArcs (h : t.Grafted g as k t') (ht : t.Entering g)
    (ht' : t'.Entering g) : t'.treeArcs.Perm (t.treeArcs ++ as) := by
  have hdisjoint : ∀ a ∈ t.treeArcs, a ∉ as := by
    intro a ha hmem
    have hin := (ht _ a ((mem_treeArcs ht).mp ha)).2.2.1
    rw [h.fresh a hmem] at hin
    cases hin
  refine (List.perm_ext_iff_of_nodup (nodup_treeArcs ht') ?_).mpr fun a => ?_
  · refine List.nodup_append.mpr ⟨nodup_treeArcs ht, List.Nodup.of_map _ h.nodup, ?_⟩
    rintro a ha b hb rfl
    exact hdisjoint a ha hb
  · rw [List.mem_append, mem_treeArcs ht', mem_treeArcs ht, h.predOf_eq_some_iff ht, or_comm]
    simp

/-! ### Pruning -/

/-- Whatever is entered is required, or has a child. -/
def Useful (g : Network ℚ) (t : Tree) : Prop :=
  ∀ v a, t.predOf v = some a →
    g.isRequired v = true ∨ ∃ u b, t.predOf u = some b ∧ g.tailOf b = v

/-- On the path every node but its end has a child, and nothing loses one. -/
theorem Grafted.useful (h : t.Grafted g as k t') (ht : t.Entering g) (huseful : t.Useful g)
    (hk : g.isRequired k = true) : t'.Useful g := by
  intro v a hpred
  rcases (h.predOf_eq_some_iff ht).mp hpred with ⟨ha, rfl⟩ | hpred
  · obtain ⟨u, -, hpath⟩ := h.path
    -- the arc after `a` on the path leaves its head
    obtain ⟨xs, ys, rfl⟩ := List.append_of_mem ha
    cases ys with
    | nil =>
      obtain ⟨-, -, hhead, -⟩ := Network.isMarkedPath_concat.mp hpath
      rw [hhead]
      exact Or.inl hk
    | cons b ys =>
      obtain ⟨-, -, hrest⟩ := Network.isMarkedPath_cons.mp hpath.suffix
      obtain ⟨⟨-, htail⟩, -⟩ := Network.isMarkedPath_cons.mp hrest
      exact Or.inr ⟨g.headOf b, b, h.entered b (by simp), htail⟩
  · rcases huseful v a hpred with hreq | ⟨u, b, hb, htail⟩
    · exact Or.inl hreq
    · exact Or.inr ⟨u, b, (h.predOf_eq_some_iff ht).mpr (Or.inr hb), htail⟩

/-- Pruning leaves a tree without useless leaves as it is. -/
theorem prune_eq_self {costs : CostView ℚ} (hg : g.Linked) (ht : t.Entering g)
    (huseful : t.Useful g) : t.prune g costs = .ok (0, t) := by
  refine prune_eq_self_of_worth ht (fun v a hpred => hg.tail_lt a (ht v a hpred).1)
    fun v a hpred hbare => Or.inl ((huseful v a hpred).resolve_right ?_)
  rintro ⟨u, b, hb, htail⟩
  exact (childCount_eq_zero_iff ht).mp hbare u b hb htail

end Tree

end SteinerSearch
