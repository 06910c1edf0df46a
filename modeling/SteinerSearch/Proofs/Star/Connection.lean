import Mathlib
import SteinerSearch.Proofs.Star.Covering

/-!
# Connected neighbours of a star

With a bias the distances of a star search are smaller than the lengths of paths, and an
arc may be reported for a path that costs more.  Still no node is lost when all reported
arcs are left out together.  Nothing about weights enters: what counts is only that an
arc is never reported once its head is taken out, and that every report rests on a node
that was.

## Main results

* `StarSearch.run_connects` — without the reported arcs every node is still reached.
-/

namespace SteinerSearch

namespace StarSearch

variable {α : Type}

/-- What the flags of a star search leave in place: the head of each entry of the row of `c`
is reached over an entry that is not flagged, without coming back to `c`. -/
def Connects (r : Rows α) (c : Nat) (flags : Array Bool) : Prop :=
  ∀ e ∈ r.row c, ∃ j first es, (r.row c)[j]? = some first ∧ flags.getD j false = false ∧
    r.IsPath c (first :: es) e.head ∧ ∀ x ∈ first :: es, x.head ≠ c

/-- Then whatever can be reached from `c` is reached without the flagged entries. -/
theorem Connects.exists_path {r : Rows α} {c : Nat} {flags : Array Bool}
    (h : Connects r c flags) (hc : c < r.nodeCount) {v : Nat} {es : List (RowEntry α)}
    (hes : r.IsPath c es v) : ∃ es', (r.without c flags).IsPath c es' v := by
  obtain ⟨pre, post, -, hpost, haway⟩ := hes.last_departure
  cases post with
  | nil => exact ⟨[], hpost⟩
  | cons e rest =>
    obtain ⟨j, first, mid, hj, hfirst, hmid, hmidaway⟩ := h e hpost.1
    exact ⟨first :: (mid ++ rest), hmid.without_detour hc hj hfirst hmidaway hpost.2
      (List.forall_mem_cons.mp haway).2⟩

/-- A row that is not empty keeps an entry. -/
theorem Connects.exists_unflagged {r : Rows α} {c : Nat} {flags : Array Bool}
    (h : Connects r c flags) (hne : r.row c ≠ []) :
    ∃ i, i < (r.row c).length ∧ flags.getD i false = false := by
  obtain ⟨j, first, -, hj, hopen, -⟩ := h _ (List.head_mem hne)
  exact ⟨j, lt_length_of_getElem? hj, hopen⟩

variable [Weight α]

/-- Any distance fits any path. -/
theorem fitting_any (t : StarSearch α) : Fitting t fun _ _ => True where
  own _ _ := trivial
  extend _ _ _ _ _ _ _ := trivial
  within _ _ _ _ _ _ := trivial
  beyond _ _ _ _ _ _ _ := trivial

/-- **Reported arcs never disconnect.**  Whatever the weights are, whether there is a bias,
and wherever its profits stem from, a star search answers, and the head of each entry of the
center's row is still reached over a path that starts with an entry that is not flagged and
never comes back to the center.  So no node is lost with the flagged entries, and some entry
of a row that is not empty is left. -/
theorem run_connects {r : Rows α} (hr : r.Built) (bias : Option (Bias α)) {c : Nat}
    (hc : c < r.nodeCount) (arcLimit : Nat) {w : StarSpace α} (hw : w.Ready)
    (hroom : r.nodeCount ≤ w.capacity) :
    ∃ answer, run ⟨r, bias, c, arcLimit⟩ w = .ok answer ∧
      answer.deletable.size = (r.row c).length ∧
      (∀ e ∈ r.row c, ∃ j first es, (r.row c)[j]? = some first ∧
        answer.deletable.getD j false = false ∧ r.IsPath c (first :: es) e.head ∧
          ∀ x ∈ first :: es, x.head ≠ c) ∧
      (∀ v es, r.IsPath c es v →
        ∃ es', (r.without c answer.deletable).IsPath c es' v) ∧
      (r.row c ≠ [] → ∃ i, i < (r.row c).length ∧ answer.deletable.getD i false = false) := by
  obtain ⟨answer, hrun, hsize, hcovers, -⟩ := run_covers (t := ⟨r, bias, c, arcLimit⟩)
    (K := fun _ => True) (fitting_any _) hr.wellFormed hc hw hroom trivial
    (fun _ _ _ _ _ _ _ _ => trivial) (fun _ _ _ _ _ => trivial) fun _ _ _ _ _ _ _ => trivial
  have hconnects : Connects r c answer.deletable := fun e he => by
    obtain ⟨i, hi⟩ := List.getElem?_of_mem he
    obtain ⟨j, first, es, hfirst, hopen, hpath, haway, -⟩ := hcovers i e hi
    exact ⟨j, first, es, hfirst, hopen, hpath, haway⟩
  exact ⟨answer, hrun, hsize, hconnects, fun v es hes => hconnects.exists_path hc hes,
    hconnects.exists_unflagged⟩

/-- The profit of node 1 pays for its arc to node 2, so that the arc from node 0 to node 2 is
reported for a way that is longer. -/
theorem run_connects_on_triangle :
    let edge := ((Network.empty 3).pushArc 0 1 (1 : ℚ)).pushArc 1 0 1
    let path := (edge.pushArc 1 2 5).pushArc 2 1 5
    let g := (path.pushArc 0 2 3).pushArc 2 0 3
    ∃ answer, run ⟨.ofNetwork g, some ((Bias.zero 3).set 1 5 none), 0, 100⟩ (.fresh 3) =
        .ok answer ∧ answer.deletable.getD 1 false = true ∧
      ∀ v es, (Rows.ofNetwork g).IsPath 0 es v →
        ∃ es', ((Rows.ofNetwork g).without 0 answer.deletable).IsPath 0 es' v := by
  intro edge path g
  have hone : (Network.empty 3).addArcPair 0 1 (1 : ℚ) 1 = .ok (0, edge) := rfl
  have htwo : edge.addArcPair 1 2 5 5 = .ok (1, path) := by
    simp only [edge, path]
    rfl
  have hthree : path.addArcPair 0 2 3 3 = .ok (2, g) := by
    simp only [edge, path, g]
    rfl
  have hg : g.Built := (((Network.Built.empty 3).addArcPair hone).addArcPair htwo).addArcPair hthree
  obtain ⟨answer, hrun, -, -, hpaths, -⟩ := run_connects (r := .ofNetwork g)
    (Or.inl ⟨g, hg, rfl⟩) (some ((Bias.zero 3).set 1 5 none)) (c := 0)
    (by rw [Rows.nodeCount_ofNetwork]; decide) 100 (StarSpace.fresh_ready 3)
    (by rw [Rows.nodeCount_ofNetwork]; decide)
  have hflag : (run ⟨.ofNetwork g, some ((Bias.zero 3).set 1 (5 : ℚ) none), 0, 100⟩
      (.fresh 3)).map (fun answer => answer.deletable.getD 1 false) = .ok true := by
    simp only [g, path, edge]
    cbv
  rw [hrun] at hflag
  exact ⟨answer, hrun, Except.ok.inj hflag, hpaths⟩

end StarSearch

end SteinerSearch
