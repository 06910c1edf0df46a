import SteinerSearch.Proofs.Tree.Grafts

/-!
# The value of a tree

What a tree is judged by is its cost and the prizes it misses.  A branch that joins moves both:
its length is paid, and the prizes of the optional terminals on it are no longer missed.  The
same account is read the other way when a leaf is removed.

## Main definitions

* `Network.optionalPrizes g vs` — the prizes of the optional terminals among some nodes.
* `Tree.value g cost t` — the cost of a tree and the prizes it misses.
* `Tree.share g cost t v` — the part that a node has in it.
* `Tree.NoWorse g cost start t t'` — `t'` has the root and the required terminals of `t`, and
  its value is no larger.

## Main results

* `Tree.objective_eq` — the objective of a tree is its value.
* `Tree.value_eq_sum` — the value is the sum of the parts of the nodes.
* `Tree.value_start` — the value of a start alone.
* `Tree.Grafted.value_eq` — what a branch does to the value.
-/

namespace SteinerSearch

namespace Network

variable {g : Network ℚ} {us vs : List Nat} {v : Nat}

/-- The prizes of the optional terminals among some nodes. -/
def optionalPrizes (g : Network ℚ) (vs : List Nat) : ℚ :=
  ((vs.filter g.isPseudo).map g.prizeOf).sum

@[simp] theorem optionalPrizes_nil : g.optionalPrizes [] = 0 := rfl

theorem optionalPrizes_cons (g : Network ℚ) (v : Nat) (vs : List Nat) :
    g.optionalPrizes (v :: vs) =
      (if g.isPseudo v = true then g.prizeOf v else 0) + g.optionalPrizes vs := by
  unfold optionalPrizes
  rw [List.filter_cons]
  split
  · rw [List.map_cons, List.sum_cons]
  · rw [zero_add]

theorem optionalPrizes_append (g : Network ℚ) (us vs : List Nat) :
    g.optionalPrizes (us ++ vs) = g.optionalPrizes us + g.optionalPrizes vs := by
  unfold optionalPrizes
  rw [List.filter_append, List.map_append, List.sum_append]

theorem optionalPrizes_perm (h : us.Perm vs) : g.optionalPrizes us = g.optionalPrizes vs :=
  ((h.filter g.isPseudo).map g.prizeOf).sum_eq

theorem isWhole_optionalPrizes (h : ∀ v ∈ vs, Weight.IsWhole (g.prizeOf v)) :
    Weight.IsWhole (g.optionalPrizes vs) := by
  -- a sum of prizes is summed like a length
  show Weight.IsWhole (pathLength g.prizeOf (vs.filter g.isPseudo))
  apply isWhole_pathLength
  intro v hv
  exact h v (List.mem_of_mem_filter hv)

end Network

namespace Tree

variable {c : Growth ℚ} {g : Network ℚ} {cost : Nat → ℚ} {t t' t'' : Tree} {as : List Nat}
  {start k : Nat}

/-! ### Costs and missed prizes -/

/-- The nodes that a tree leaves out. -/
def omitted (g : Network ℚ) (t : Tree) : List Nat := g.nodes.filter fun v => !t.contains v

theorem mem_omitted {v : Nat} : v ∈ t.omitted g ↔ v < g.nodeCount ∧ t.contains v = false := by
  simp [omitted, Network.nodes]

theorem nodup_omitted : (t.omitted g).Nodup := List.nodup_range.filter _

theorem missedPrizes_eq : t.missedPrizes g = g.optionalPrizes (t.omitted g) := by
  unfold missedPrizes Network.optionalPrizes omitted
  rw [Weight.sum_rat, List.filter_filter]

/-- The cost of a tree and the prizes it misses. -/
def value (g : Network ℚ) (cost : Nat → ℚ) (t : Tree) : ℚ :=
  Network.pathLength cost t.treeArcs + g.optionalPrizes (t.omitted g)

/-- The objective of a tree is its value. -/
theorem objective_eq_of_costs {costs : CostView ℚ}
    (hcosts : ∀ a, a < g.arcCount → costs a = some (cost a)) (h : t.Entering g) :
    t.objective g costs = .ok (t.value g cost) := by
  unfold objective
  rw [cost_eq_of_costs hcosts h, ok_bind, missedPrizes_eq]
  rfl

theorem objective_eq (hc : Growth.Measured c) (h : t.Entering c.network) :
    t.objective c.network c.costs = .ok (t.value c.network c.arcCost) :=
  objective_eq_of_costs (fun _ => hc.costs_eq) h

theorem isWhole_value (hc : Growth.Measured c) (h : t.Entering c.network)
    (hprize : ∀ v, v < c.network.nodeCount → Weight.IsWhole (c.network.prizeOf v)) :
    Weight.IsWhole (t.value c.network c.arcCost) := by
  apply Weight.IsWhole.add
  · apply Network.isWhole_pathLength
    intro a ha
    exact hc.isWhole (h _ a ((mem_treeArcs h).mp ha)).1
  · apply Network.isWhole_optionalPrizes
    intro v hv
    exact hprize v (mem_omitted.mp hv).1

/-- The tree of a start alone costs nothing, and misses all prizes but the one of its start. -/
theorem value_start (cost : Nat → ℚ) (hstart : start < g.nodeCount) :
    ((empty g.nodeCount).connect start none).value g cost +
      (if g.isPseudo start = true then g.prizeOf start else 0) = g.optionalPrizes g.nodes := by
  have hperm : g.nodes.Perm (start :: ((empty g.nodeCount).connect start none).omitted g) := by
    have hout : start ∉ ((empty g.nodeCount).connect start none).omitted g := by
      rw [mem_omitted, (contains_start hstart).mpr rfl]
      simp
    refine (List.perm_ext_iff_of_nodup List.nodup_range
      (List.nodup_cons.mpr ⟨hout, nodup_omitted⟩)).mpr fun v => ?_
    rw [List.mem_cons, mem_omitted, ← Bool.not_eq_true, contains_start hstart, List.mem_range]
    by_cases hv : v = start
    · exact iff_of_true (hv ▸ hstart) (Or.inl hv)
    · rw [or_iff_right hv, and_iff_left hv]
  rw [Network.optionalPrizes_perm hperm, Network.optionalPrizes_cons, value,
    treeArcs_start hstart, Network.pathLength_nil, zero_add, add_comm]

/-! ### Node by node -/

/-- The part of `v` in the value of a tree: the cost of the arc that enters it, and its prize if
the tree misses it. -/
def share (g : Network ℚ) (cost : Nat → ℚ) (t : Tree) (v : Nat) : ℚ :=
  ((t.predOf v).map cost).getD 0 +
    if g.isPseudo v = true ∧ t.contains v = false then g.prizeOf v else 0

theorem sum_filterMap (f : Nat → Option ℚ) (vs : List Nat) :
    (vs.filterMap f).sum = (vs.map fun v => (f v).getD 0).sum := by
  induction vs with
  | nil => rfl
  | cons v vs ih =>
    rw [List.filterMap_cons, List.map_cons, List.sum_cons, ← ih]
    cases f v with
    | none => exact (zero_add _).symm
    | some x => exact List.sum_cons

/-- The arcs of a tree, node by node. -/
theorem treeArcs_eq (hsized : t.Sized g.nodeCount) (h : t.Entering g) :
    t.treeArcs = g.nodes.filterMap t.predOf := by
  unfold treeArcs nodes
  rw [List.filterMap_filter, capacity, hsized.connected]
  refine List.filterMap_congr fun v _ => ?_
  by_cases hv : t.contains v = true
  · rw [if_pos hv]
  · rw [if_neg hv, h.predOf_of_not_contains (Bool.eq_false_iff.mpr hv)]

/-- The value of a tree is the sum of the parts of the nodes. -/
theorem value_eq_sum (cost : Nat → ℚ) (hsized : t.Sized g.nodeCount) (h : t.Entering g) :
    t.value g cost = (g.nodes.map (t.share g cost)).sum := by
  have hpaid : Network.pathLength cost t.treeArcs =
      (g.nodes.map fun v => ((t.predOf v).map cost).getD 0).sum := by
    rw [treeArcs_eq hsized h, Network.pathLength, List.map_filterMap, sum_filterMap]
  have hmissed : g.optionalPrizes (t.omitted g) =
      (g.nodes.map fun v =>
        if g.isPseudo v = true ∧ t.contains v = false then g.prizeOf v else 0).sum := by
    have hsum := sum_filterMap
      (fun v => if g.isPseudo v && !t.contains v then some (g.prizeOf v) else none) g.nodes
    unfold Network.optionalPrizes omitted
    rw [List.filter_filter, ← List.filterMap_eq_map, List.filterMap_filter]
    refine hsum.trans (congrArg List.sum (List.map_congr_left fun v _ => ?_))
    by_cases hv : g.isPseudo v = true ∧ t.contains v = false
    · simp [hv]
    · rw [if_neg hv, if_neg (by simpa using hv), Option.getD_none]
  unfold value share
  rw [hpaid, hmissed, ← List.sum_map_add]

/-- A tree in which no node has a larger part is worth no more. -/
theorem value_le_of_share_le (hsized : t.Sized g.nodeCount) (h : t.Entering g)
    (hsized' : t'.Sized g.nodeCount) (h' : t'.Entering g)
    (hle : ∀ v, t'.share g cost v ≤ t.share g cost v) : t'.value g cost ≤ t.value g cost := by
  rw [value_eq_sum cost hsized h, value_eq_sum cost hsized' h']
  exact List.sum_le_sum fun v _ => hle v

/-! ### A branch -/

/-- What the tree left out is on the branch, or still left out. -/
theorem Grafted.perm_omitted (hg : g.Linked) (h : t.Grafted g as k t') :
    (t.omitted g).Perm (as.map g.headOf ++ t'.omitted g) := by
  obtain ⟨u, -, hpath⟩ := h.path
  have hnodup : (as.map g.headOf ++ t'.omitted g).Nodup := by
    refine List.nodup_append.mpr ⟨h.nodup, nodup_omitted, ?_⟩
    rintro v hv x hx rfl
    have hin := (h.contains v).mpr (Or.inl hv)
    rw [(mem_omitted.mp hx).2] at hin
    cases hin
  refine (List.perm_ext_iff_of_nodup nodup_omitted hnodup).mpr fun v => ?_
  rw [List.mem_append, mem_omitted]
  by_cases hv : v ∈ as.map g.headOf
  · refine iff_of_true ?_ (Or.inl hv)
    obtain ⟨a, ha, rfl⟩ := List.mem_map.mp hv
    exact ⟨hg.head_lt a (hpath.path.lt_arcCount a ha), h.fresh a ha⟩
  · have hsame : t'.contains v = t.contains v := by
      rw [Bool.eq_iff_iff, h.contains, or_iff_right hv]
    rw [or_iff_right hv, mem_omitted, hsame]

/-- The length of a branch is paid, and the prizes on it are no longer missed. -/
theorem Grafted.value_eq (cost : Nat → ℚ) (hg : g.Linked) (h : t.Grafted g as k t')
    (ht : t.Entering g) (ht' : t'.Entering g) :
    t'.value g cost + g.optionalPrizes (as.map g.headOf) =
      t.value g cost + Network.pathLength cost as := by
  have harcs : Network.pathLength cost t'.treeArcs =
      Network.pathLength cost t.treeArcs + Network.pathLength cost as := by
    rw [← Network.pathLength_append]
    exact ((h.perm_treeArcs ht ht').map cost).sum_eq
  have hmissed : g.optionalPrizes (t.omitted g) =
      g.optionalPrizes (as.map g.headOf) + g.optionalPrizes (t'.omitted g) := by
    rw [← Network.optionalPrizes_append]
    exact Network.optionalPrizes_perm (h.perm_omitted hg)
  unfold value
  rw [harcs, hmissed]
  linarith

/-! ### Trees that are no worse -/

/-- `t'` is a tree with the root of `t`.  It has the required terminals of `t`, and its value is
no larger. -/
structure NoWorse (g : Network ℚ) (cost : Nat → ℚ) (start : Nat) (t t' : Tree) : Prop where
  sized : t'.Sized g.nodeCount
  rooted : t'.RootedAt g start
  required : ∀ v, g.isRequired v = true → t.contains v = true → t'.contains v = true
  value_le : t'.value g cost ≤ t.value g cost

theorem NoWorse.refl (hsized : t.Sized g.nodeCount) (hrooted : t.RootedAt g start) :
    NoWorse g cost start t t :=
  ⟨hsized, hrooted, fun _ _ hv => hv, le_rfl⟩

theorem NoWorse.trans (h : NoWorse g cost start t t') (h' : NoWorse g cost start t' t'') :
    NoWorse g cost start t t'' where
  sized := h'.sized
  rooted := h'.rooted
  required v hreq hv := h'.required v hreq (h.required v hreq hv)
  value_le := h'.value_le.trans h.value_le

end Tree

end SteinerSearch
