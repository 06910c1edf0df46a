import Mathlib
import SteinerSearch.Proofs.Star.Settling

/-!
# Arcs that a star search must report

A star search that keeps its arc limit reports every arc that is longer than some other way
to its head.  The search may end before all nodes are taken out: once every arc of the
center is decided.  By then the head of an arc that is not reported is taken out at the
length of its arc, and all nodes that are nearer were taken out and scanned before.

## Main definitions

* `StarSearch.Complete t s` — every arc that is longer than some other way is reported.

## Main results

* `StarSearch.Searching.distOf_le` — distances along a path of settled nodes.
* `StarSearch.Searching.complete` — when all nodes that are nearer are settled, an arc that is
  longer than some path is reported.
* `StarSearch.run_misses_no_longer` — a search that keeps its limit misses none.
-/

namespace SteinerSearch

namespace StarSearch

variable {t : StarSearch ℚ} {s : State ℚ} {due : Nat → RowEntry ℚ → Prop} {x : ℚ} {n : Nat}

/-- An arc of the center is no longer than the radius. -/
theorem cost_le_radius {i : Nat} {e : RowEntry ℚ} (he : t.centerRow[i]? = some e) :
    e.cost ≤ t.radius :=
  Weight.le_largest (List.mem_map.mpr ⟨e, List.mem_of_getElem? he, rfl⟩)

theorem Integral.pathCost_nonneg (ht : t.Integral) {v u : Nat} {es : List (RowEntry ℚ)}
    (hpath : t.rows.IsPath v es u) : 0 ≤ Rows.pathCost es := by
  refine Rows.pathCost_nonneg fun e he => ?_
  obtain ⟨w, hw⟩ := hpath.mem_row e he
  exact (ht.cost w e hw).nonneg

/-- A path that is shorter than `y`, while all nodes nearer than `y` are settled: its end is no
farther away than the path is long. -/
theorem Searching.distOf_le (h : Searching t due x n s) (ht : t.Integral) {y : ℚ}
    (hy : y ≤ t.radius)
    (hnear : ∀ v, s.space.distOf v < y → s.space.Removed v ∧ ∀ e ∈ t.rows.row v, ¬ due v e)
    {v u : Nat} {es : List (RowEntry ℚ)} (hpath : t.rows.IsPath v es u)
    (haway : ∀ e ∈ es, e.head ≠ t.center) (hlt : s.space.distOf v + Rows.pathCost es < y) :
    s.space.distOf u ≤ s.space.distOf v + Rows.pathCost es := by
  induction es generalizing v with
  | nil =>
    rw [show v = u from hpath, Rows.pathCost_nil, add_zero]
  | cons e es ih =>
    rw [Rows.pathCost_cons] at hlt ⊢
    have hcost := (ht.cost v e hpath.1).nonneg
    have hrest := ht.pathCost_nonneg hpath.2
    obtain ⟨hsettled, hdue⟩ := hnear v (by linarith)
    have hhead : s.space.distOf e.head ≤ s.space.distOf v + e.cost :=
      (h.closed v hsettled e hpath.1 (haway e List.mem_cons_self) (hdue e hpath.1)).resolve_right
        (by linarith)
    have := ih hpath.2 (fun y hy => haway y (List.mem_cons_of_mem _ hy)) (by linarith)
    linarith

/-- When all nodes that are nearer than the arc is long are settled, the arc is reported if it
is longer than some path. -/
theorem Searching.complete (h : Searching t due x n s) (ht : t.Integral) {i : Nat}
    {e : RowEntry ℚ} (he : t.centerRow[i]? = some e)
    (hnear : s.isDeletable i = false → ∀ v, s.space.distOf v < e.cost →
      s.space.Removed v ∧ ∀ y ∈ t.rows.row v, ¬ due v y)
    {es : List (RowEntry ℚ)} (hpath : t.rows.IsPath t.center es e.head)
    (haway : ∀ y ∈ es, y.head ≠ t.center) (hlt : Rows.pathCost es < e.cost) :
    s.isDeletable i = true := by
  by_contra hopen
  rw [Bool.not_eq_true] at hopen
  -- the arc is in the slot of its head, which is as far away as the arc is long
  have hslot : s.space.slotOf e.head = some i := by
    obtain ⟨j, e', hj, -, rfl | ⟨hdel, -⟩⟩ := h.seeded i e he
    · exact hj
    · rw [hopen] at hdel
      cases hdel
  have hge := h.slot_ge _ _ e hslot he hopen
  cases es with
  | nil => exact (head_ok ht.wellFormed he).1 (show t.center = e.head from hpath).symm
  | cons first es =>
    rw [Rows.pathCost_cons] at hlt
    -- the path starts with an arc that is no shorter than its head is far away
    have hfirst : s.space.distOf first.head ≤ first.cost := by
      obtain ⟨k, hk⟩ := List.getElem?_of_mem hpath.1
      obtain ⟨j, e', hj, he', hor⟩ := h.seeded k first hk
      refine (h.slot_le _ _ e' hj he').trans ?_
      rcases hor with rfl | ⟨-, hle⟩
      · exact (Option.some.inj (hk.symm.trans he') ▸ le_rfl)
      · exact hle
    have hle := h.distOf_le ht (cost_le_radius he) (hnear hopen) hpath.2
      (fun y hy => haway y (List.mem_cons_of_mem _ hy)) (by linarith)
    linarith

/-! ### Runs -/

/-- Every arc that is longer than another way to its head is reported. -/
def Complete (t : StarSearch ℚ) (s : State ℚ) : Prop :=
  ∀ i e, t.centerRow[i]? = some e → ∀ es, t.rows.IsPath t.center es e.head →
    (∀ y ∈ es, y.head ≠ t.center) → Rows.pathCost es < e.cost → s.isDeletable i = true

/-- When the queue is empty, all nodes with a distance are settled. -/
theorem Searching.complete_of_empty (h : Searching t (fun _ _ => False) x n s) (ht : t.Integral)
    (hfar : ∀ e ∈ t.centerRow, e.cost ≤ Weight.faraway) (hempty : ∀ v, ¬ s.space.Waits v) :
    Complete t s := by
  intro i e he es hpath haway hlt
  refine h.complete ht he (fun _ v hv => ⟨?_, fun _ _ => id⟩) hpath haway hlt
  have hreached := h.reached v (hv.trans_le (hfar e (List.mem_of_getElem? he)))
  exact hreached.resolve_left (hempty v)

/-- When all arcs are decided, the nodes nearer than the last one are settled. -/
theorem Searching.complete_of_decided {k : Nat} (h : Searching t (fun v _ => v = k) x n s)
    (ht : t.Integral) (hfar : ∀ e ∈ t.centerRow, e.cost ≤ Weight.faraway)
    (hk : s.space.distOf k = x) (hall : t.centerRow.length ≤ s.decided) : Complete t s := by
  intro i e he es hpath haway hlt
  refine h.complete ht he (fun hopen v hv => ?_) hpath haway hlt
  -- the head of the arc was taken out no later than `k`
  have hle : e.cost ≤ x := by
    rcases h.counted.judged hall (lt_length_of_getElem? he) with hdel | ⟨m, hm, hrem⟩
    · rw [hopen] at hdel
      cases hdel
    · exact (h.slot_ge m i e hm he hopen).trans (h.settled_le m hrem)
  have hnear := hv.trans_le hle
  have hreached := h.reached v (hv.trans_le (hfar e (List.mem_of_getElem? he)))
  refine ⟨hreached.resolve_left fun hw => ?_, fun _ _ hvk => ?_⟩
  · exact absurd (h.le_waiting v hw) (not_le.mpr hnear)
  · rw [hvk, hk] at hnear
    exact lt_irrefl _ hnear

/-- One step of a run. -/
theorem Searching.settleNext (h : Searching t (fun _ _ => False) x n s) (ht : t.Integral)
    (hfar : ∀ e ∈ t.centerRow, e.cost ≤ Weight.faraway) :
    (∃ s', t.settleNext s = .more s' ∧ ∃ y, Searching t (fun _ _ => False) y (n + 1) s') ∨
      ∃ s', t.settleNext s = .done () s' ∧ (s'.scanned ≤ t.arcLimit → Complete t s') := by
  have hstep := settleNext_cases t s
  generalize t.settleNext s = p at hstep ⊢
  cases hstep with
  | ends hnone =>
    refine Or.inr ⟨s, rfl, fun _ => h.complete_of_empty ht hfar ?_⟩
    exact NodeQueue.not_waits_of_size (KeyedQueue.popMin?_eq_none_iff.mp hnone)
  | stops hpop hall =>
    obtain ⟨htaken, -, hdist⟩ := h.take hpop
    exact Or.inr ⟨_, rfl, fun _ => htaken.complete_of_decided ht hfar hdist hall⟩
  | @scans top r hpop =>
    obtain ⟨htaken, hsettled, hdist⟩ := h.take hpop
    have hbase : (StarSearch.take top r s).space.baseOf top.node = s.space.baseOf top.node := by
      rw [space_take]
      rfl
    rcases Progress.ofScan_ensures_of_appended
      (J := Spreading t top.node top.key (n + 1) (s.space.baseOf top.node))
      (B := fun s' => t.arcLimit < s'.scanned) () (t.rows.row top.node)
      (f := t.scan top.node top.key (s.space.baseOf top.node) (s.space.prevOf top.node))
      (fun done e s₁ hdone hs₁ => hs₁.scan ht (mem_of_appended hdone)
        (scan_cases t _ _ _ _ s₁ e)) (htaken.spreading hsettled hdist hbase)
      with ⟨s', hs', hJ⟩ | ⟨s', hs', hB⟩
    · exact Or.inl ⟨s', hs', top.key, hJ.searching_of_all⟩
    · exact Or.inr ⟨s', hs', fun hle => absurd hle (not_le.mpr hB)⟩

/-- A search that takes steps ends by itself, since each step takes a node out. -/
theorem run_completes (ht : t.Integral) (hc : t.center < t.rows.nodeCount)
    (hfar : ∀ e ∈ t.centerRow, e.cost ≤ Weight.faraway) {w : StarSpace ℚ} (hw : w.Ready)
    (hroom : t.rows.nodeCount ≤ w.capacity) :
    ∃ answer, t.run w = .ok answer ∧ (answer.space.scanned ≤ t.arcLimit →
      ∀ (i : Nat) (e : RowEntry ℚ), t.centerRow[i]? = some e →
        ∀ es, t.rows.IsPath t.center es e.head → (∀ y ∈ es, y.head ≠ t.center) →
          Rows.pathCost es < e.cost → answer.deletable.getD i false = true) := by
  by_cases hshort : t.centerRow.length ≤ 1
  · refine ⟨_, run_of_short hc hshort w, fun _ i e he es hpath _ hlt => ?_⟩
    exfalso
    -- a path from the center can only start with the one arc there is
    cases es with
    | nil => exact (head_ok ht.wellFormed he).1 (show t.center = e.head from hpath).symm
    | cons first es =>
      obtain ⟨j, hj⟩ := List.getElem?_of_mem hpath.1
      have hij : j = i := by
        have := lt_length_of_getElem? he
        have : j < t.centerRow.length := lt_length_of_getElem? hj
        omega
      obtain rfl := Option.some.inj ((hij ▸ hj).symm.trans he)
      rw [Rows.pathCost_cons] at hlt
      linarith [ht.pathCost_nonneg hpath.2]
  · obtain ⟨_, s, -, hrun, hcomplete⟩ := Progress.run_ends (e := ())
      (I := fun fuel s => ∃ x n, Searching t (fun _ _ => False) x n s ∧
        fuel + n = w.capacity + 1)
      (Q := fun _ s => s.scanned ≤ t.arcLimit → Complete t s)
      (fun s ⟨x, n, hs, hn⟩ => by
        have := hs.removals.le fun v hv => hv.1
        omega)
      (fun fuel s ⟨x, n, hs, hn⟩ => by
        rcases hs.settleNext ht hfar with ⟨s', hs', y, h⟩ | ⟨s', h⟩
        · exact Or.inl ⟨s', hs', y, n + 1, h, by omega⟩
        · exact Or.inr ⟨(), s', h⟩) (w.capacity + 1) _
      ⟨0, 0, searching_seeded ht hw hroom, rfl⟩
    refine ⟨_, run_of_long hc hshort hrun, fun hle => hcomplete ?_⟩
    rwa [StarSpace.scanned_reset] at hle

/-- **A star search misses no longer arc.**  With costs and profits that are natural numbers, with
a bias or without one, a star search answers.  If it keeps its arc limit, it has flagged each
entry of the center's row that costs more than some path to its head which never comes back to
the center.  Such a path starts with another entry of the row, since it costs less than this
one; that the search may stop once it has decided on all entries makes no difference. -/
theorem run_misses_no_longer {r : Rows ℚ} (hr : r.Built)
    (hcost : ∀ v, ∀ e ∈ r.row v, ∃ n : ℕ, e.cost = n) (bias : Option (Bias ℚ))
    (hprofit : ∀ b ∈ bias, ∀ v, ∃ n : ℕ, b.profitOf v = n) {c : Nat} (hc : c < r.nodeCount)
    (hfar : ∀ e ∈ r.row c, e.cost ≤ Weight.faraway) (arcLimit : Nat) {w : StarSpace ℚ}
    (hw : w.Ready) (hroom : r.nodeCount ≤ w.capacity) :
    ∃ answer, run ⟨r, bias, c, arcLimit⟩ w = .ok answer ∧
      (answer.space.scanned ≤ arcLimit → ∀ i e, (r.row c)[i]? = some e →
        ∀ es, r.IsPath c es e.head → (∀ x ∈ es, x.head ≠ c) → Rows.pathCost es < e.cost →
          answer.deletable.getD i false = true) :=
  run_completes (t := ⟨r, bias, c, arcLimit⟩)
    (integral_of_isWhole hr.wellFormed hcost hprofit) hc hfar hw hroom

/-- The way over node 1 is shorter than the arc from node 0 to node 2, even without the profit
of node 1. -/
theorem run_misses_no_longer_on_triangle :
    let edge := ((Network.empty 3).pushArc 0 1 (1 : ℚ)).pushArc 1 0 1
    let path := (edge.pushArc 1 2 1).pushArc 2 1 1
    let g := (path.pushArc 0 2 5).pushArc 2 0 5
    ∃ answer, run ⟨.ofNetwork g, some ((Bias.zero 3).set 1 1 none), 0, 100⟩ (.fresh 3) =
      .ok answer ∧ answer.deletable.getD 1 false = true := by
  intro edge path g
  have hone : (Network.empty 3).addArcPair 0 1 (1 : ℚ) 1 = .ok (0, edge) := rfl
  have htwo : edge.addArcPair 1 2 1 1 = .ok (1, path) := by
    simp only [edge, path]
    rfl
  have hthree : path.addArcPair 0 2 5 5 = .ok (2, g) := by
    simp only [edge, path, g]
    rfl
  have hg : g.Built := (((Network.Built.empty 3).addArcPair hone).addArcPair htwo).addArcPair hthree
  have hcost : ∀ v, ∀ e ∈ (Rows.ofNetwork g).row v, ∃ n : ℕ, e.cost = n := by
    intro v e he
    obtain ⟨a, ha, rfl⟩ := Rows.mem_row_ofNetwork he
    have ha : a < 6 := (hg.wellFormed.mem_outArcs.mp ha).1
    obtain h | h : a < 4 ∨ a = 4 ∨ a = 5 := by omega
    · obtain rfl | rfl | rfl | rfl : a = 0 ∨ a = 1 ∨ a = 2 ∨ a = 3 := by omega
      all_goals exact ⟨1, rfl⟩
    · obtain rfl | rfl := h
      all_goals exact ⟨5, rfl⟩
  have hprofit : ∀ b ∈ some ((Bias.zero 3).set 1 (1 : ℚ) none), ∀ v, ∃ n : ℕ, b.profitOf v = n := by
    intro b hb v
    obtain rfl := Option.some.inj hb
    unfold Bias.profitOf Bias.set
    by_cases hv : v = 1
    · exact ⟨1, by rw [hv]; rfl⟩
    · rw [Array.getD_setIfInBounds_of_ne hv]
      exact ⟨0, Array.getD_replicate _ v 0⟩
  have hrow : (Rows.ofNetwork g).row 0 = [⟨1, 1, 0⟩, ⟨2, 5, 4⟩] := by
    simp only [g, path, edge]
    cbv
  have hstep : (⟨2, 1, 2⟩ : RowEntry ℚ) ∈ (Rows.ofNetwork g).row 1 := by
    rw [show (Rows.ofNetwork g).row 1 = [⟨0, 1, 1⟩, ⟨2, 1, 2⟩] by simp only [g, path, edge]; cbv]
    exact List.mem_cons_of_mem _ List.mem_cons_self
  have hscans : ((run ⟨.ofNetwork g, some ((Bias.zero 3).set 1 (1 : ℚ) none), 0, 100⟩
      (.fresh 3)).map fun answer => Decidable.decide (answer.space.scanned ≤ 100)) = .ok true := by
    simp only [g, path, edge]
    cbv
  obtain ⟨answer, hrun, hflags⟩ := run_misses_no_longer (r := .ofNetwork g) (c := 0)
    (Or.inl ⟨g, hg, rfl⟩) hcost (some ((Bias.zero 3).set 1 1 none)) hprofit
    (by rw [Rows.nodeCount_ofNetwork]; decide)
    (by rw [hrow]; decide) 100
    (StarSpace.fresh_ready 3) (by rw [Rows.nodeCount_ofNetwork]; decide)
  rw [hrun] at hscans
  have hle : answer.space.scanned ≤ 100 := of_decide_eq_true (Except.ok.inj hscans)
  refine ⟨answer, hrun, hflags hle 1 ⟨2, 5, 4⟩ (by rw [hrow]; rfl) [⟨1, 1, 0⟩, ⟨2, 1, 2⟩]
    ⟨by rw [hrow]; exact List.mem_cons_self, hstep, rfl⟩ (by decide) ?_⟩
  norm_num [Rows.pathCost]

end StarSearch

end SteinerSearch
