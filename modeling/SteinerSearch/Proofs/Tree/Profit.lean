import SteinerSearch.Proofs.Tree.Selection

/-!
# Nothing is lost by collecting prizes

A start with all marked required terminals is a tree already: it costs nothing, and misses all
prizes but its own.  Whatever is joined to it is paid for by prizes that are newly collected, and
whatever is pruned was not worth its arc.  So no tree that is found is worse than its start alone.

## Main definitions

* `Multistart.Profits g costs r` — the tree `r` is no worse than its start alone.

## Main results

* `Multistart.Alone.profits` — what holds of every tree that a start leads to.
* `Multistart.best_profits` — so it holds of the best of the trees.
-/

namespace SteinerSearch

namespace Multistart

variable {g : Network ℚ} {costs : CostView ℚ} {settings : Settings} {start : Nat}
  {starts : List Nat} {w : Workspace ℚ} {r : RootedTree ℚ}

/-- The objective of `r` is at most the sum of all prizes of optional terminals, and at most that
sum without the prize of the start if this is one of them. -/
structure Profits (g : Network ℚ) (costs : CostView ℚ) (r : RootedTree ℚ) : Prop where
  objective : r.tree.objective g costs = .ok r.objective
  le_prizes : r.objective ≤ g.optionalPrizes g.nodes
  le_without_start : g.isPseudo r.start = true →
    r.objective ≤ g.optionalPrizes g.nodes - g.prizeOf r.start

/-- The tree that a start leads to is no worse than the start alone, if no required terminal has to
be joined. -/
theorem Alone.objective_le (hr : Alone g costs settings w start r) (h : Measured g costs)
    (hstart : start < g.nodeCount) (hw : w.Ready) (hroom : g.nodeCount ≤ w.capacity)
    (hall : ∀ v ∈ g.markedRequired, v = start) :
    r.objective + (if g.isPseudo start = true then g.prizeOf start else 0) ≤
      g.optionalPrizes g.nodes := by
  have hc := h.growth (growthRule g)
  obtain ⟨-, outcome, t, u, x, hgrow, hx, hspec⟩ := alone_spec settings h hw hroom hstart
  obtain ⟨-, -, -, hle⟩ := hspec r hr
  obtain ⟨outcome', t', u', hgrow', hless⟩ :=
    Growth.growFrom_noWorse hc h.prize hall hstart hw hroom
  cases hgrow.symm.trans hgrow'
  have hvalue := Tree.objective_eq hc hless.rooted.entering
  obtain rfl : x = t.value g fun a => (costs a).getD 0 := Except.ok.inj (hx.symm.trans hvalue)
  have hstay := Tree.value_start (fun a => (costs a).getD 0) hstart
  have hgrown := hless.value_le
  calc r.objective + (if g.isPseudo start = true then g.prizeOf start else 0)
      ≤ ((Tree.empty g.nodeCount).connect start none).value g (fun a => (costs a).getD 0) +
          (if g.isPseudo start = true then g.prizeOf start else 0) :=
        add_le_add_left (hle.trans hgrown) _
    _ = g.optionalPrizes g.nodes := hstay

theorem Alone.profits (hr : Alone g costs settings w start r) (h : Measured g costs)
    (hstart : start < g.nodeCount) (hw : w.Ready) (hroom : g.nodeCount ≤ w.capacity)
    (hall : ∀ v ∈ g.markedRequired, v = r.start) : Profits g costs r := by
  obtain ⟨-, _, _, _, _, -, -, hspec⟩ := alone_spec settings h hw hroom hstart
  obtain ⟨rfl, hspans, -⟩ := hspec r hr
  have hle := hr.objective_le h hstart hw hroom hall
  refine ⟨hspans.objective, ?_, fun hpseudo => ?_⟩
  · split at hle
    · have hprize : Weight.IsWhole (g.prizeOf r.start) := h.prize _ hstart
      have hnonneg := hprize.nonneg
      linarith
    · linarith
  · rw [if_pos hpseudo] at hle
    linarith

/-- The loop over the starts returns one of their trees, whichever they are. -/
theorem bestOf_profits (settings : Settings) (h : Measured g costs) (hw : w.Ready)
    (hroom : g.nodeCount ≤ w.capacity) (hstarts : ∀ v ∈ starts, v < g.nodeCount) :
    ∃ best? u, bestOf g costs settings starts none w = .ok (best?, u) ∧
      ∀ r, best? = some r → (∀ v ∈ g.markedRequired, v = r.start) → Profits g costs r := by
  obtain ⟨best?, u, hrun, -, hbest⟩ := bestOf_spec settings h hw hroom hstarts hw (.refl w)
  refine ⟨best?, u, hrun, fun r hr hall => ?_⟩
  obtain ⟨start, hmem, htree⟩ := (hbest r hr).exists_start
  exact (aloneTree_eq_some_iff.mp htree).profits h (hstarts start hmem) hw hroom hall

/-- **Nothing is lost by collecting prizes.**  If no marked node but the start of the best tree is a
required terminal, its objective is at most the sum of all prizes of optional terminals, and at
most that sum without the prize of the start if this is one of them.  This is so with a root, and,
without one, whatever the candidates are shuffled into. -/
theorem best_profits (settings : Settings) (h : Measured g costs) (hw : w.Ready)
    (hroom : g.nodeCount ≤ w.capacity) :
    (∃ best? u, best g costs settings w = .ok (best?, u) ∧
      ∀ r, best? = some r → (∀ v ∈ g.markedRequired, v = r.start) → Profits g costs r) ∧
    ∀ order, order.Perm (candidates g) →
      ∃ best? u, bestIn g costs settings order w = .ok (best?, u) ∧
        ∀ r, best? = some r → (∀ v ∈ g.markedRequired, v = r.start) → Profits g costs r :=
  ⟨bestOf_profits settings h hw hroom fun _ hv => starts_lt h.built hv,
    fun _ horder => bestOf_profits settings h hw hroom fun _ hv => lt_of_mem_drawn horder hv⟩

/-- A root, and a prize of 3 at distance 2. -/
def errand : Network ℚ :=
  { ((Network.empty 2).pushArc 0 1 (2 : ℚ)).pushArc 1 0 2 with
    kind := #[.proper, .pseudo], prize := #[0, 3], root := some 0 }

theorem measured_errand : Measured errand (.ofArray errand.cost) := by
  have hedge := (Network.Built.empty 2).addArcPair
    (show Network.addArcPair _ 0 1 (2 : ℚ) 2 = .ok (0, _) from rfl)
  have hroot := hedge.setTerminal (show Network.setTerminal _ 0 .proper = .ok _ from rfl)
  have hkind := hroot.setTerminal (show Network.setTerminal _ 1 .pseudo = .ok _ from rfl)
  have hprize := hkind.setPrize (show Network.setPrize _ 1 3 = .ok _ from rfl)
  have hbuilt : errand.Built := hprize.setRoot (show Network.setRoot _ 0 = .ok _ from rfl)
  have hcost : ∀ a, a < errand.arcCount → CostView.ofArray errand.cost a = some 2 := by
    intro a ha
    change a < 2 at ha
    obtain rfl | rfl : a = 0 ∨ a = 1 := by omega
    · rfl
    · rfl
  refine ⟨hbuilt, fun a ha => ⟨2, hcost a ha⟩, fun v hv => ?_, ?_⟩
  · change v < 2 at hv
    obtain rfl | rfl : v = 0 ∨ v = 1 := by omega
    · exact ⟨0, rfl⟩
    · exact ⟨3, rfl⟩
  · refine Network.distancesInReach_of_sum (fun a ha => ?_) ?_
    · rw [hcost a ha, Option.getD_some]
      norm_num
    · change (2 : ℚ) + (2 + 0) < 1000000000000000
      norm_num

/-- The errand does not cost more than the prize, from the root or from the one candidate. -/
theorem best_profits_on_errand :
    ∃ r u, best errand (.ofArray errand.cost) {} (.fresh 2 0) = .ok (some r, u) ∧
      bestIn errand (.ofArray errand.cost) {} [0] (.fresh 2 0) = .ok (some r, u) ∧
      r.tree.objective errand (.ofArray errand.cost) = .ok r.objective ∧ r.objective ≤ 3 := by
  have hw : (Workspace.fresh 2 0 : Workspace ℚ).Ready := Workspace.fresh_ready 2 0
  have horder : [0].Perm (candidates errand) := by decide
  have hrequired : ∀ v ∈ errand.markedRequired, v = 0 := fun v hv => List.mem_singleton.mp hv
  have hreach : ∀ u ∈ errand.markedRequired, ∀ v ∈ errand.markedRequired,
      errand.IsReachable u v := by
    intro u hu v hv
    rw [hrequired u hu, hrequired v hv]
    exact Network.isReachable_refl errand 0
  -- the root is drawn, and so is the only candidate
  have hsame : best errand (.ofArray errand.cost) {} (.fresh 2 0) =
      bestIn errand (.ofArray errand.cost) {} [0] (.fresh 2 0) := rfl
  obtain ⟨best?, u, hrun, hiff, hbest⟩ :=
    bestIn_spec {} measured_errand hw (by decide) horder hw (.refl _)
  obtain ⟨r, rfl⟩ := Option.isSome_iff_exists.mp (hiff.mpr ⟨⟨0, by decide, by decide⟩, hreach⟩)
  obtain ⟨start, hmem, htree⟩ := (hbest r rfl).exists_start
  obtain ⟨-, _, _, _, _, -, -, hspec⟩ :=
    alone_spec {} measured_errand hw (by decide) (lt_of_mem_drawn horder hmem)
  obtain ⟨rfl, -⟩ := hspec r (aloneTree_eq_some_iff.mp htree)
  obtain ⟨best?', u', hrun', hprofits⟩ :=
    (best_profits {} measured_errand hw (by decide)).2 [0] horder
  cases hrun.symm.trans hrun'
  have hstart : r.start = 0 := List.mem_singleton.mp hmem
  obtain ⟨hobjective, hsum, -⟩ := hprofits r rfl fun v hv => by rw [hstart, hrequired v hv]
  exact ⟨r, u, hsame.trans hrun, hrun, hobjective, hsum.trans (by decide +kernel)⟩

end Multistart

end SteinerSearch
