import SteinerSearch.Proofs.Reuse.Walks
import SteinerSearch.Proofs.Walk.Runs

/-!
# Walk searches end by themselves

A node that is no required terminal is unknown again once it was extracted, and credits make
labels shorter than those they come from, so no order of extraction bounds how often a node
waits.  What does is its label.  A new label is shorter by more than the tolerance, and with
costs that are not negative no label is: the base is not, and a credit stops at zero.

A node is worth its label, in units of the tolerance, and one more while it waits.  A new label
pays for the wait, and an extraction takes it back.

## Main definitions

* `Walk.potential w v` — what the node `v` is worth.
* `Walk.Spending t w₀ fuel s` — all nodes together are worth less than `fuel`.

## Main results

* `Walk.Spending.settleNext` — a step costs one unit.
* `Walk.run_terminates` — **without a scan limit every search ends by itself.**
-/

namespace SteinerSearch

namespace Walk

variable {t : Walk ℚ} {w w' w₀ : Workspace ℚ} {s : State ℚ} {k m fuel : Nat} {d base cost : ℚ}

/-! ### What nodes are worth -/

/-- The label of `v` in units of the tolerance, and one more if `v` waits. -/
def potential (w : Workspace ℚ) (v : Nat) : ℚ :=
  w.distOf v / Weight.tolerance + if v ∈ w.queue.waiting then 1 else 0

theorem potential_nonneg {v : Nat} (h : 0 ≤ w.distOf v) : 0 ≤ potential w v :=
  add_nonneg (div_nonneg h Weight.tolerance_pos.le) (NodeQueue.waiting_load_nonneg w.queue v)

/-- A better label is shorter by one unit, which pays for the wait. -/
theorem potential_relabeled_le {p : Option Nat} (hr : w.Relabeled m d p w')
    (hd : Weight.below d (w.distOf m) = true) (v : Nat) : potential w' v ≤ potential w v := by
  unfold potential
  by_cases hv : v = m
  · subst hv
    have hfall : d / Weight.tolerance + 1 ≤ w.distOf v / Weight.tolerance := by
      have htol := Weight.tolerance_pos
      rw [Weight.below_rat] at hd
      rw [← div_self htol.ne', ← add_div]
      exact div_le_div_of_nonneg_right (by linarith) htol.le
    have hwait := NodeQueue.waiting_load_le w'.queue v
    have hold := NodeQueue.waiting_load_nonneg w.queue v
    rw [hr.dist_self]
    linarith
  · have hwaits : w'.queue.Waits v ↔ w.queue.Waits v := by
      rw [hr.queued.waits, or_iff_left hv]
    rw [hr.dist_ne v hv, NodeQueue.waiting_load_congr hwaits]

/-- An extraction takes back what its node was worth for waiting. -/
theorem burden_popMin?_add_one_le {n : Nat} (hw : Workspace.Tracked Weight.LooksFar n w₀ w)
    (hpop : w.popMin? = some (k, w')) :
    burden (List.range n) (potential w') + 1 ≤ burden (List.range n) (potential w) := by
  obtain ⟨q, hq, rfl⟩ := Workspace.popMin?_eq_some hpop
  have hx := NodeQueue.extracted_popMin? hw.consistent hq
  have hk : k < n := hw.within k (hw.isVisited_of_waits hx.waited)
  have hself : potential { w with queue := q } k + 1 ≤ potential w k := by
    have hleft : ¬ k ∈ q.waiting := by
      rw [NodeQueue.mem_waiting, hx.waits]
      exact fun h => h.2 rfl
    have hwaited : k ∈ w.queue.waiting := NodeQueue.mem_waiting.mpr hx.waited
    simp only [potential, if_neg hleft, if_pos hwaited, add_zero]
    exact le_rfl
  have hother : ∀ v, v ≠ k → potential { w with queue := q } v ≤ potential w v := by
    intro v hv
    have hwaits : q.Waits v ↔ w.queue.Waits v := by
      rw [hx.waits, and_iff_left hv]
    simp only [potential, NodeQueue.waiting_load_congr hwaits]
    exact le_rfl
  have hle := burden_add_count_le (List.range n) hself hother
  have hcount : 1 ≤ (List.range n).count k := List.count_pos_iff.mpr (List.mem_range.mpr hk)
  have hcount : (1 : ℚ) ≤ (List.range n).count k := by exact_mod_cast hcount
  linarith

/-! ### Steps -/

/-- No label is negative, and all nodes together are worth less than the fuel. -/
structure Spending (t : Walk ℚ) (w₀ : Workspace ℚ) (fuel : Nat) (s : State ℚ) : Prop where
  tracked : Workspace.Tracked Weight.LooksFar t.network.nodeCount w₀ s.space
  nonneg : ∀ v, 0 ≤ s.space.distOf v
  fuel_lt : burden (List.range t.network.nodeCount) (potential s.space) < fuel

/-- With a cost that is not negative a label is not negative, whatever is credited. -/
theorem labelOf_nonneg (hbase : 0 ≤ base) (hcost : 0 ≤ cost) (m : Nat) (credit : Bool) :
    0 ≤ t.labelOf base cost m credit := by
  unfold labelOf
  split
  · rw [Weight.max_rat]
    exact le_max_right _ _
  · exact add_nonneg hbase hcost

theorem Spending.take (h : Spending t w₀ fuel s) (hm : m < t.network.nodeCount) (hne : k ≠ m)
    (hopen : s.space.isSettled m = false) (hbase : 0 ≤ base) (hcost : 0 ≤ cost) (a i : Nat) :
    Spending t w₀ fuel ⟨t.take k m a base cost s.space, i⟩ := by
  have htracked := (take_together (t := t) (.refl h.tracked) hm hne a base cost).tracked
  rcases take_cases (t := t) h.tracked hm hne hopen a base cost with heq | ⟨credit, hd, hr⟩
  · rw [heq]
    exact ⟨h.tracked, h.nonneg, h.fuel_lt⟩
  · refine ⟨htracked, fun v => ?_, ?_⟩
    · by_cases hv : v = m
      · rw [hv, hr.dist_self]
        exact labelOf_nonneg hbase hcost m credit
      · rw [hr.dist_ne v hv]
        exact h.nonneg v
    · exact (burden_le _ (potential_relabeled_le hr hd)).trans_lt h.fuel_lt

section Steps

variable (hg : t.network.Linked)
  (hcost : ∀ a, a < t.network.arcCount → ∃ c, t.costs a = some c ∧ 0 ≤ c)
  (hlimit : t.query.isLimited = false)

include hg hcost hlimit

/-- A scan without a limit goes through, and costs nothing. -/
theorem Spending.scan (h : Spending t w₀ fuel s) {a : Nat} (ha : a < t.network.arcCount)
    (htail : t.network.tailOf a = k) (hbase : 0 ≤ base) :
    ∃ s', t.scan k base s a = .ok s' ∧ Spending t w₀ fuel s' := by
  have hne : k ≠ t.network.headOf a := htail ▸ (hg.head_ne_tail a ha).symm
  obtain ⟨c, hc, hc0⟩ := hcost a ha
  simp only [Walk.scan, hc, hlimit, Bool.false_eq_true, false_and, if_false]
  split
  · exact ⟨s, rfl, h⟩
  · split
    · exact ⟨s, rfl, h⟩
    · next hopen =>
      rw [Bool.not_eq_true] at hopen
      split
      · exact ⟨_, rfl, h.tracked, h.nonneg, h.fuel_lt⟩
      · exact ⟨_, rfl, h.take (hg.head_lt a ha) hne hopen hbase hc0 a _⟩

/-- A step costs one unit, unless it is the last one. -/
theorem Spending.settleNext (h : Spending t w₀ (fuel + 1) s) :
    (∃ s', t.settleNext s = .more s' ∧ Spending t w₀ fuel s') ∨
      ∃ o s', t.settleNext s = .done o s' ∧ ((∃ d, o = .reached d) ∨ o = .notFound) := by
  unfold Walk.settleNext
  cases hpop : s.space.popMin? with
  | none => exact Or.inr ⟨_, s, rfl, Or.inr rfl⟩
  | some x =>
    obtain ⟨k, v⟩ := x
    obtain ⟨hv, -, hwaits⟩ := h.tracked.popMin? hpop
    have hfuel : burden (List.range t.network.nodeCount) (potential v) < fuel := by
      have hburden := burden_popMin?_add_one_le h.tracked hpop
      have hfuel := h.fuel_lt
      push_cast at hfuel
      linarith
    have hnonneg : ∀ m, 0 ≤ v.distOf m := by
      obtain ⟨q, -, rfl⟩ := Workspace.popMin?_eq_some hpop
      exact h.nonneg
    dsimp only
    split
    · exact Or.inr ⟨_, _, rfl, Or.inl ⟨_, rfl⟩⟩
    · left
      have hstart : Spending t w₀ fuel (if t.network.isRequired k then ⟨v, s.scanned⟩
          else ⟨v.unsettle k, s.scanned⟩) := by
        split
        · exact ⟨hv, hnonneg, hfuel⟩
        · exact ⟨hv.unsettle hwaits, hnonneg, hfuel⟩
      obtain ⟨s', hs', hspending⟩ := foldlM_ok (J := fun _ => Spending t w₀ fuel)
        (f := t.scan k (v.distOf k)) (t.network.outArcs k) (fun done a s₁ hdone hs₁ => by
          obtain ⟨ha, htail⟩ := hg.mem_outArcs.mp (mem_of_appended hdone)
          exact hs₁.scan hg hcost hlimit ha htail (hnonneg k)) hstart
      exact ⟨s', congrArg (Progress.ofScan WalkOutcome.overBudget) hs', hspending⟩

end Steps

/-! ### Runs -/

/-- At the start all nodes together are worth less than a search has fuel. -/
theorem spending_initial (hw : w.Ready) (hroom : t.network.nodeCount ≤ w.capacity)
    (hstart : t.query.start < t.network.nodeCount) :
    Spending t w (Walk.fuel t.network) (t.initial w) := by
  have hr := hw.relabeled (d := 0) (p := none) (lt_of_lt_of_le hstart hroom)
  have htracked : Workspace.Tracked Weight.LooksFar t.network.nodeCount w w :=
    (hw.clean Weight.looksFar_faraway).tracked (.refl w) hroom
  have hunit : (Weight.faraway : ℚ) / Weight.tolerance = 1000000000000000000000000 := by
    rw [Weight.faraway_rat, Weight.tolerance_rat]
    norm_num
  have hdist : ∀ v, 0 ≤ (t.initial w).space.distOf v ∧
      potential (t.initial w).space v ≤ 1000000000000000000000000 := by
    intro v
    unfold potential
    by_cases hv : v = t.query.start
    · have hzero : (t.initial w).space.distOf v = 0 := by
        rw [hv]
        exact hr.dist_self
      have hwait := NodeQueue.waiting_load_le (t.initial w).space.queue v
      rw [hzero, zero_div, zero_add]
      exact ⟨le_rfl, hwait.trans (by norm_num)⟩
    · have hfar : (t.initial w).space.distOf v = Weight.faraway :=
        (hr.dist_ne v hv).trans (hw.distOf_eq v)
      have hnot : ¬ v ∈ (t.initial w).space.queue.waiting := by
        rw [NodeQueue.mem_waiting]
        exact fun h => hv ((hr.waits_iff hw).mp h)
      rw [if_neg hnot, hfar, hunit, add_zero, Weight.faraway_rat]
      exact ⟨by norm_num, le_rfl⟩
  refine ⟨(initial_together (.refl htracked) hstart).space.tracked, fun v => (hdist v).1, ?_⟩
  have hle := burden_le_mul (List.range t.network.nodeCount) fun v => (hdist v).2
  have hcount : (0 : ℚ) ≤ t.network.nodeCount := Nat.cast_nonneg _
  rw [List.length_range] at hle
  unfold Walk.fuel
  push_cast
  norm_num
  linarith

/-- **Without a scan limit every search ends by itself.**  No cost is negative, but prizes may
lower labels around cycles, and nodes may be extracted again and again.  A search between nodes
with arcs ends after some steps, each of which extracts a node, because the goal was extracted
or nothing waits any more. -/
theorem run_terminates {g : Network ℚ} {costs : CostView ℚ} (ledger : Ledger)
    (query : WalkQuery ℚ) (hg : g.Built)
    (hcosts : ∀ a, a < g.arcCount → ∃ c, costs a = some c ∧ 0 ≤ c)
    (hstart : query.start < g.nodeCount) (hgoal : query.goal < g.nodeCount)
    (hlimit : query.isLimited = false) (hw : w.Ready) (hroom : g.nodeCount ≤ w.capacity) :
    ∃ outcome w', run g costs ledger query w = .ok (outcome, w') ∧
      ((∃ d, outcome = .reached d) ∨ outcome = .notFound) ∧
      (g.degreeOf query.start ≠ 0 → g.degreeOf query.goal ≠ 0 →
        ∃ s, Progress.Ends
          (settleNext ⟨g.masked query.start query.goal, costs, ledger, query⟩)
          (initial ⟨g.masked query.start query.goal, costs, ledger, query⟩ w) outcome s ∧
            s.space = w') := by
  by_cases hdeg : g.degreeOf query.start = 0 ∨ g.degreeOf query.goal = 0
  · refine ⟨_, _, run_of_runOn (runOn_of_isolated hstart hgoal hdeg), Or.inr rfl, ?_⟩
    exact fun hs hg => absurd hdeg (not_or.mpr ⟨hs, hg⟩)
  · let t : Walk ℚ := ⟨g.masked query.start query.goal, costs, ledger, query⟩
    have hcount : t.network.nodeCount = g.nodeCount := Network.nodeCount_masked
    have hlinked : t.network.Linked := (hg.masked query.start query.goal).wellFormed.toLinked
    obtain ⟨o, s, hends, hrun, hout⟩ := Progress.run_ends (e := WalkOutcome.notFound)
      (I := fun fuel => Spending t w fuel)
      (Q := fun o _ => (∃ d, o = WalkOutcome.reached d) ∨ o = .notFound)
      (fun s hs => by
        have hfuel := hs.fuel_lt
        have hnonneg := burden_nonneg (List.range t.network.nodeCount)
          fun v => potential_nonneg (hs.nonneg v)
        rw [Nat.cast_zero] at hfuel
        linarith)
      (fun n s hs => hs.settleNext hlinked hcosts hlimit) _ _
      (spending_initial hw (by rwa [hcount]) (by rwa [hcount]))
    exact ⟨o, s.space, run_of_runOn (runOn_of_search hstart hgoal hdeg hrun), hout,
      fun _ _ => ⟨s, hends, rfl⟩⟩

/-- A search along a row of four nodes, where going to and fro between the two in the middle
costs less than the prize of one of them. -/
theorem run_terminates_on_row :
    let edges :=
      ((((Network.empty 4).pushArc 0 1 (5 : ℚ)).pushArc 1 0 5).pushArc 1 2 1).pushArc 2 1 1
    let row := (edges.pushArc 2 3 3).pushArc 3 2 3
    let g := { row with kind := #[.steiner, .pseudo, .steiner, .steiner], prize := #[0, 4, 0, 0] }
    let query : WalkQuery ℚ := ⟨0, 3, 100, 18446744073709551615⟩
    let t : Walk ℚ := ⟨g.masked 0 3, .ofArray g.cost, .firstVisit, query⟩
    ∃ outcome w', run g (.ofArray g.cost) .firstVisit query (.fresh 4 2) = .ok (outcome, w') ∧
      ((∃ d, outcome = .reached d) ∨ outcome = .notFound) ∧
        ∃ s, Progress.Ends t.settleNext (t.initial (.fresh 4 2)) outcome s := by
  intro edges row g query t
  have hone : (Network.empty 4).addArcPair 0 1 (5 : ℚ) 5 =
      .ok (0, ((Network.empty 4).pushArc 0 1 5).pushArc 1 0 5) := rfl
  have htwo : (((Network.empty 4).pushArc 0 1 (5 : ℚ)).pushArc 1 0 5).addArcPair 1 2 1 1 =
      .ok (1, edges) := rfl
  have hthree : edges.addArcPair 2 3 3 3 = .ok (2, row) := by
    simp only [edges, row]
    rfl
  have hkind : row.setTerminal 1 .pseudo =
      .ok { row with kind := #[.steiner, .pseudo, .steiner, .steiner] } := rfl
  have hprize : { row with kind := #[.steiner, .pseudo, .steiner, .steiner] }.setPrize 1 4 =
      .ok g := by
    simp only [g, row, edges]
    rfl
  have hedges : edges.Built := ((Network.Built.empty 4).addArcPair hone).addArcPair htwo
  have hrow : row.Built := hedges.addArcPair hthree
  have hg : g.Built := (hrow.setTerminal hkind).setPrize hprize
  have hcosts : ∀ a, a < g.arcCount → ∃ c, CostView.ofArray g.cost a = some c ∧ 0 ≤ c := by
    intro a ha
    have ha : a < 6 := ha
    obtain rfl | rfl | rfl | rfl | rfl | rfl :
        a = 0 ∨ a = 1 ∨ a = 2 ∨ a = 3 ∨ a = 4 ∨ a = 5 := by omega
    · exact ⟨5, rfl, by norm_num⟩
    · exact ⟨5, rfl, by norm_num⟩
    · exact ⟨1, rfl, by norm_num⟩
    · exact ⟨1, rfl, by norm_num⟩
    · exact ⟨3, rfl, by norm_num⟩
    · exact ⟨3, rfl, by norm_num⟩
  obtain ⟨o, w', hrun, hout, hends⟩ := run_terminates .firstVisit query hg hcosts
    (by decide) (by decide) (by decide) (Workspace.fresh_ready 4 2) (by decide)
  obtain ⟨s, hs, -⟩ := hends (by decide) (by decide)
  exact ⟨o, w', hrun, hout, s, hs⟩

end Walk

end SteinerSearch
