import SteinerSearch.Proofs.Star.Covering
import SteinerSearch.Proofs.Star.Distances

/-!
# Replaced arcs of a star

The arcs that a star search reports can be left out together.  Each of them is
replaced by a path that starts with an arc that is not reported, never comes back to
the center, and costs no more.  Without a bias distances are lengths of paths, so the
path that covers a node is no longer than its distance.

## Main definitions

* `StarSearch.Bounds x es` — the distance `x` is no less than what the path costs.
* `StarSearch.Replaces r c flags` — the flagged entries are replaced.

## Main results

* `StarSearch.Replaces.exists_path` — no path is longer without the flagged entries.
* `StarSearch.run_replaces` — all reported arcs are replaced.
-/

namespace SteinerSearch

namespace StarSearch

variable {t : StarSearch ℚ}

/-- Costs are whole, entries lead to other nodes, and no node has a profit. -/
structure Proper (t : StarSearch ℚ) : Prop where
  wellFormed : t.rows.WellFormed
  bias : t.bias = none
  whole : ∀ v, ∀ e ∈ t.rows.row v, Weight.IsWhole e.cost

theorem Proper.integral (ht : Proper t) : t.Integral :=
  integral_of_isWhole ht.wellFormed ht.whole fun b hb => by
    rw [ht.bias] at hb
    cases hb

/-- The distance `x` is whole, and no less than what the path costs. -/
def Bounds (x : ℚ) (es : List (RowEntry ℚ)) : Prop :=
  Weight.IsWhole x ∧ Rows.pathCost es ≤ x

theorem Proper.fitting (ht : Proper t) : Fitting t Bounds where
  own e he := ⟨ht.whole _ e he, by rw [Rows.pathCost_cons, Rows.pathCost_nil, add_zero]⟩
  extend k x came? es e he h := by
    have hlength : t.lengthOver k x came? e = x + e.cost := by
      rw [lengthOver, discount, ht.bias]
      exact sub_zero _
    rw [hlength]
    refine ⟨h.1.add (ht.whole k e he), ?_⟩
    rw [Rows.pathCost_append, Rows.pathCost_cons, Rows.pathCost_nil]
    linarith [h.2]
  within x es e he hle h := by
    have hwhole := ht.whole _ e he
    exact ⟨hwhole, h.2.trans ((Weight.atMost_iff (h.1.apart hwhole)).mp hle)⟩
  beyond x hx y hy hlt es h := by
    have hwhole := ht.whole _ x hx
    rw [← Bool.not_eq_true, Weight.atMost_iff (hwhole.apart h.1), not_le] at hlt
    exact ⟨hwhole, h.2.trans hlt.le⟩

/-! ### Answers -/

/-- What the flags of a star search mean: each flagged entry of the row of `c` is
replaced by a path that starts with an entry that is not flagged, never comes back to
`c`, and costs no more. -/
def Replaces (r : Rows ℚ) (c : Nat) (flags : Array Bool) : Prop :=
  ∀ i e, (r.row c)[i]? = some e → flags.getD i false = true →
    ∃ j first es, (r.row c)[j]? = some first ∧ flags.getD j false = false ∧
      r.IsPath c (first :: es) e.head ∧ (∀ x ∈ first :: es, x.head ≠ c) ∧
        Rows.pathCost (first :: es) ≤ e.cost

/-- Leaving out all flagged entries makes no path longer.  Only what a path does after
it last leaves the center counts, and if it leaves over a flagged entry, the entry is
replaced. -/
theorem Replaces.exists_path {r : Rows ℚ} {c : Nat} {flags : Array Bool}
    (h : Replaces r c flags) (hc : c < r.nodeCount)
    (hcost : ∀ v, ∀ e ∈ r.row v, 0 ≤ e.cost) {v : Nat} {es : List (RowEntry ℚ)}
    (hes : r.IsPath c es v) : ∃ es', (r.without c flags).IsPath c es' v ∧
      Rows.pathCost es' ≤ Rows.pathCost es := by
  obtain ⟨pre, post, rfl, hpost, haway⟩ := hes.last_departure
  have hpre : 0 ≤ Rows.pathCost pre := Rows.pathCost_nonneg fun e he => by
    obtain ⟨w, hw⟩ := hes.mem_row e (List.mem_append_left _ he)
    exact hcost w e hw
  suffices hshort : ∃ es', (r.without c flags).IsPath c es' v ∧
      Rows.pathCost es' ≤ Rows.pathCost post by
    obtain ⟨es', hpath, hle⟩ := hshort
    refine ⟨es', hpath, hle.trans ?_⟩
    rw [Rows.pathCost_append]
    linarith
  cases post with
  | nil => exact ⟨[], hpost, le_rfl⟩
  | cons e rest =>
    obtain ⟨i, hi⟩ := List.getElem?_of_mem hpost.1
    cases hflag : flags.getD i false with
    | false => exact ⟨e :: rest, hpost.2.without_cons hc hi hflag haway, le_rfl⟩
    | true =>
      obtain ⟨j, first, mid, hj, hfirst, hmid, hmidaway, hle⟩ := h i e hi hflag
      refine ⟨first :: (mid ++ rest), hmid.without_detour hc hj hfirst hmidaway hpost.2
        (List.forall_mem_cons.mp haway).2, ?_⟩
      rw [Rows.pathCost_cons] at hle ⊢
      rw [Rows.pathCost_append, Rows.pathCost_cons]
      linarith

/-- The flags that a search answers are replaced. -/
theorem run_answers (ht : Proper t) (hc : t.center < t.rows.nodeCount) {w : StarSpace ℚ}
    (hw : w.Ready) (hroom : t.rows.nodeCount ≤ w.capacity) :
    ∃ answer, t.run w = .ok answer ∧ answer.deletable.size = t.centerRow.length ∧
      Replaces t.rows t.center answer.deletable ∧
      (answer.found = true ↔ ∃ i, answer.deletable.getD i false = true) := by
  have hint := ht.integral
  obtain ⟨answer, hrun, hsize, hcovers, hfound⟩ := run_covers ht.fitting ht.wellFormed hc hw hroom
    (K := fun s => s.space.Measured) (hw.setScanned 0).measured
    (fun n s e s' hs he hs' h => measured_seed h hs hint he hs')
    (fun s s' hs h hmore => measured_more h hint hs.room hmore)
    (fun s top r h hpop es => by
      rw [(h.popMin? hpop).2.1]
      exact id)
  refine ⟨answer, hrun, hsize, fun i e he _ => ?_, hfound⟩
  obtain ⟨j, first, es, hfirst, hdel, hpath, haway, -, hle⟩ := hcovers i e he
  exact ⟨j, first, es, hfirst, hdel, hpath, haway, hle⟩

/-- **Reported arcs can be left out together.**  Whatever cuts a star search short, each
flagged entry of the center's row is replaced by a path that starts with an entry that
is not flagged, never comes back to the center, and costs no more.  So leaving out all
flagged entries makes no path from the center longer, some entry of a row that is not
empty is left, and the search says that it found something exactly if it flagged an
entry. -/
theorem run_replaces {r : Rows ℚ} (hr : r.Built)
    (hcost : ∀ v, ∀ e ∈ r.row v, ∃ n : ℕ, e.cost = n) {c : Nat} (hc : c < r.nodeCount)
    (arcLimit : Nat) {w : StarSpace ℚ} (hw : w.Ready) (hroom : r.nodeCount ≤ w.capacity) :
    ∃ answer, run ⟨r, none, c, arcLimit⟩ w = .ok answer ∧
      answer.deletable.size = (r.row c).length ∧
      (∀ i e, (r.row c)[i]? = some e → answer.deletable.getD i false = true →
        ∃ j first es, (r.row c)[j]? = some first ∧ answer.deletable.getD j false = false ∧
          r.IsPath c (first :: es) e.head ∧ (∀ x ∈ first :: es, x.head ≠ c) ∧
            Rows.pathCost (first :: es) ≤ e.cost) ∧
      (∀ v es, r.IsPath c es v → ∃ es', (r.without c answer.deletable).IsPath c es' v ∧
        Rows.pathCost es' ≤ Rows.pathCost es) ∧
      (r.row c ≠ [] → ∃ i, i < (r.row c).length ∧ answer.deletable.getD i false = false) ∧
      (answer.found = true ↔ ∃ i, answer.deletable.getD i false = true) := by
  have ht : Proper ⟨r, none, c, arcLimit⟩ := ⟨hr.wellFormed, rfl, hcost⟩
  obtain ⟨answer, hrun, hsize, hreplaces, hfound⟩ := run_answers ht hc hw hroom
  have hnonneg : ∀ v, ∀ e ∈ r.row v, 0 ≤ e.cost := fun v e he => by
    obtain ⟨n, hn⟩ := hcost v e he
    rw [hn]
    exact Nat.cast_nonneg n
  refine ⟨answer, hrun, hsize, hreplaces, fun v es hes => hreplaces.exists_path hc hnonneg hes,
    fun hne => ?_, hfound⟩
  -- the first entry is not flagged, or replaced by one that is not
  have hpos := List.length_pos_iff.mpr hne
  cases hflag : answer.deletable.getD 0 false with
  | false => exact ⟨0, hpos, hflag⟩
  | true =>
    obtain ⟨j, first, -, hj, hopen, -⟩ := hreplaces 0 _ (List.getElem?_eq_getElem hpos) hflag
    exact ⟨j, lt_length_of_getElem? hj, hopen⟩

/-- The edge between nodes 0 and 2 is no shorter than the way over node 1. -/
theorem run_replaces_on_triangle :
    let path :=
      ((((Network.empty 3).pushArc 0 1 (1 : ℚ)).pushArc 1 0 1).pushArc 1 2 1).pushArc 2 1 1
    let g := (path.pushArc 0 2 2).pushArc 2 0 2
    ∃ answer, run ⟨.ofNetwork g, none, 0, 100⟩ (.fresh 3) = .ok answer ∧
      ∀ v es, (Rows.ofNetwork g).IsPath 0 es v →
        ∃ es', ((Rows.ofNetwork g).without 0 answer.deletable).IsPath 0 es' v ∧
          Rows.pathCost es' ≤ Rows.pathCost es := by
  intro path g
  have hone : (Network.empty 3).addArcPair 0 1 (1 : ℚ) 1 =
      .ok (0, ((Network.empty 3).pushArc 0 1 1).pushArc 1 0 1) := rfl
  have htwo : (((Network.empty 3).pushArc 0 1 (1 : ℚ)).pushArc 1 0 1).addArcPair 1 2 1 1 =
      .ok (1, path) := rfl
  have hthree : path.addArcPair 0 2 2 2 = .ok (2, g) := by
    simp only [path, g]
    rfl
  have hg : g.Built := (((Network.Built.empty 3).addArcPair hone).addArcPair htwo).addArcPair hthree
  have hcost : ∀ v, ∀ e ∈ (Rows.ofNetwork g).row v, ∃ n : ℕ, e.cost = n := by
    intro v e he
    obtain ⟨a, ha, rfl⟩ := Rows.mem_row_ofNetwork he
    have ha : a < 6 := (hg.wellFormed.mem_outArcs.mp ha).1
    obtain h | h : a < 4 ∨ a = 4 ∨ a = 5 := by omega
    · obtain rfl | rfl | rfl | rfl : a = 0 ∨ a = 1 ∨ a = 2 ∨ a = 3 := by omega
      all_goals exact ⟨1, rfl⟩
    · obtain rfl | rfl := h
      all_goals exact ⟨2, rfl⟩
  obtain ⟨answer, hrun, -, -, hpaths, -⟩ := run_replaces (r := .ofNetwork g) (c := 0)
    (Or.inl ⟨g, hg, rfl⟩) hcost (by rw [Rows.nodeCount_ofNetwork]; decide) 100
    (StarSpace.fresh_ready 3) (by rw [Rows.nodeCount_ofNetwork]; decide)
  exact ⟨answer, hrun, hpaths⟩

end StarSearch

end SteinerSearch
