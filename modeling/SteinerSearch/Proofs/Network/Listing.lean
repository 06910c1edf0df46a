import Mathlib.Tactic.IntervalCases
import SteinerSearch.Proofs.Network.Rows

/-!
# What rows list

The rows of a network show every arc between marked nodes once, at the node that it leaves.  Rows,
laid out one after the other, are raw arrays that can be read again.

## Main definitions

* `Rows.ListsArcs g r` — `r` lists the arcs between marked nodes of `g`.
* `Rows.offsets`, `Rows.heads`, `Rows.costs` — the layout of rows as raw arrays.
* `Rows.renumbered r` — `r` with positions of the layout for arcs.

## Main results

* `Rows.listsArcs_ofNetwork` — what the rows of a network show.
* `Rows.ofRaw_layout` — rows can be read off their layout.
* `Rows.construction_exact` — rows lose nothing and invent nothing.
-/

namespace SteinerSearch

namespace Rows

variable {α : Type}

/-! ### The rows of a network -/

section OfNetwork

variable [Weight α]

/-- `r` lists the arcs between marked nodes of `g`, each at the node it leaves. -/
structure ListsArcs (g : Network α) (r : Rows α) : Prop where
  /-- Both have the same nodes. -/
  nodeCount : r.nodeCount = g.nodeCount
  /-- The rows fill the positions from zero on. -/
  laidOut : r.LaidOut
  /-- The row of a node has the arcs that leave it, if both ends are marked. -/
  arcs : ∀ v a, a ∈ (r.row v).map RowEntry.arc ↔
    a < g.arcCount ∧ g.tailOf a = v ∧ g.isMarked v = true ∧ g.isMarked (g.headOf a) = true
  /-- It has each of them once. -/
  nodup : ∀ v, ((r.row v).map RowEntry.arc).Nodup
  /-- It is in order. -/
  sorted : ∀ v, (r.row v).Pairwise Before
  /-- Its entries have the heads and costs of the arcs. -/
  entry : ∀ v, ∀ e ∈ r.row v, e.head = g.headOf e.arc ∧ e.cost = g.costOf e.arc

omit [Weight α] in
/-- The arcs in the row of `v`, newest first. -/
def rowArcs (g : Network α) (v : Nat) : List Nat :=
  if g.isMarked v then (g.outArcs v).filter fun a => g.isMarked (g.headOf a) else []

theorem row_ofNetwork (g : Network α) (v : Nat) :
    (ofNetwork g).row v =
      ((rowArcs g v).map fun a => ⟨g.headOf a, g.costOf a, a⟩).mergeSort RowEntry.le := by
  rcases lt_or_ge v g.nodeCount with hv | hv
  · simp only [row, ofNetwork, Network.nodes, Array.getD_eq_getD_getElem?, List.getElem?_toArray,
      List.getElem?_map, List.getElem?_range hv, Option.map_some, Option.getD_some, rowArcs]
    split <;> simp
  · have hmark : g.isMarked v = false := Array.getD_of_size_le hv _
    rw [row, Array.getD_of_size_le (by rw [← nodeCount, nodeCount_ofNetwork]; exact hv)]
    simp [rowArcs, hmark]

omit [Weight α] in
theorem nodup_rowArcs {g : Network α} (hg : g.Linked) (v : Nat) : (rowArcs g v).Nodup := by
  unfold rowArcs
  split
  · rw [hg.outArcs_eq]
    exact ((List.reverse_perm _).nodup_iff.mpr List.nodup_range |>.filter _).filter _
  · exact List.nodup_nil

theorem map_arc_entries (g : Network α) (as : List Nat) :
    (as.map fun a => (⟨g.headOf a, g.costOf a, a⟩ : RowEntry α)).map RowEntry.arc = as := by
  simp [Function.comp_def]

theorem listsArcs_ofNetwork {g : Network α} (hg : g.Linked) : (ofNetwork g).ListsArcs g := by
  have hperm : ∀ v, ((ofNetwork g).row v).Perm
      ((rowArcs g v).map fun a => ⟨g.headOf a, g.costOf a, a⟩) := by
    intro v
    rw [row_ofNetwork]
    exact List.mergeSort_perm _ _
  have harcs : ∀ v, (((ofNetwork g).row v).map RowEntry.arc).Perm (rowArcs g v) := by
    intro v
    have h := (hperm v).map RowEntry.arc
    rwa [map_arc_entries] at h
  refine ⟨nodeCount_ofNetwork g, laidOut _, fun v a => ?_, fun v => ?_, fun v => ?_,
    fun v e he => ?_⟩
  · rw [(harcs v).mem_iff, rowArcs]
    split
    · next h => simp [hg.mem_outArcs, h, and_assoc]
    · next h => simp [h]
  · exact (harcs v).nodup_iff.mpr (nodup_rowArcs hg v)
  · rw [row_ofNetwork]
    apply pairwise_before_mergeSort
    rw [map_arc_entries]
    exact nodup_rowArcs hg v
  · obtain ⟨a, -, rfl⟩ := List.mem_map.mp ((hperm v).mem_iff.mp he)
    exact ⟨rfl, rfl⟩

end OfNetwork

/-! ### Rows as raw arrays -/

/-- Where the rows start when they are laid out in sequence, and the end of the last one. -/
def offsets (r : Rows α) : Array Nat := ((List.range (r.nodeCount + 1)).map r.start).toArray

/-- The heads of all entries in sequence. -/
def heads (r : Rows α) : Array Nat := (r.entries.map RowEntry.head).toArray

/-- The costs of all entries in sequence. -/
def costs (r : Rows α) : Array α := (r.entries.map RowEntry.cost).toArray

/-- The rows with positions of the layout for arcs. -/
def renumbered (r : Rows α) : Rows α :=
  ⟨((List.range r.nodeCount).map fun v =>
    ((r.row v).zipIdx (r.start v)).map fun (e, i) => ⟨e.head, e.cost, i⟩).toArray⟩

theorem getElem?_entries {r : Rows α} {v e : Nat} (hlow : r.start v ≤ e)
    (hhigh : e < r.start (v + 1)) : r.entries[e]? = (r.row v)[e - r.start v]? := by
  rw [← (laidOut r).slice v, List.getElem?_take_of_lt (by omega), List.getElem?_drop]
  congr 1
  omega

theorem getD_offsets {r : Rows α} {v : Nat} (hv : v ≤ r.nodeCount) :
    r.offsets.getD v 0 = r.start v := by
  simp [offsets, Nat.lt_succ_of_le hv]

section Layout

variable [Weight α]

theorem entryOf_layout {r : Rows α} {v i : Nat} {e : RowEntry α} (he : (r.row v)[i]? = some e) :
    entryOf r.heads r.costs (r.start v + i) = ⟨e.head, e.cost, r.start v + i⟩ := by
  obtain ⟨hi, -⟩ := List.getElem?_eq_some_iff.mp he
  have h := getElem?_entries (r := r) (v := v) (e := r.start v + i) (Nat.le_add_right _ _) <| by
    rw [start_succ]
    exact Nat.add_lt_add_left hi _
  rw [Nat.add_sub_cancel_left, he] at h
  simp [entryOf, heads, costs, h]

theorem rowOf_layout {r : Rows α} (hsorted : ∀ v, (r.row v).Pairwise Before) {v : Nat}
    (hv : v < r.nodeCount) : rowOf r.offsets r.heads r.costs v =
      ((r.row v).zipIdx (r.start v)).map fun (e, i) => ⟨e.head, e.cost, i⟩ := by
  have hmap : (List.range' (r.start v) (r.degree v)).map (entryOf r.heads r.costs) =
      ((r.row v).zipIdx (r.start v)).map fun (e, i) => ⟨e.head, e.cost, i⟩ := by
    refine List.ext_getElem (by simp [degree]) fun i h₁ h₂ => ?_
    have hi : i < r.degree v := by simpa using h₁
    rw [List.getElem_map, List.getElem_range', Nat.one_mul,
      entryOf_layout (List.getElem?_eq_getElem hi), List.getElem_map, List.getElem_zipIdx]
    rfl
  rw [rowOf, getD_offsets hv.le, getD_offsets hv, start_succ, Nat.add_sub_cancel_left, hmap]
  apply List.mergeSort_of_pairwise
  rw [List.pairwise_iff_getElem]
  intro i j hi hj hij
  have hbefore := List.pairwise_iff_getElem.mp (hsorted v) i j (by simpa using hi)
    (by simpa using hj) hij
  simp only [List.getElem_map, List.getElem_zipIdx, rowEntry_le_iff]
  unfold Before at hbefore
  omega

/-- Rows can be read off their layout. -/
theorem ofRaw_layout {r : Rows α} (hwell : r.WellFormed)
    (hsorted : ∀ v, (r.row v).Pairwise Before)
    (hcost : ∀ v, ∀ e ∈ r.row v, Weight.admissible e.cost = true) :
    ofRaw r.offsets r.heads r.costs = .ok r.renumbered := by
  have hsize : r.offsets.size = r.nodeCount + 1 := by simp [offsets]
  have hlast : r.offsets.getD (r.offsets.size - 1) 0 = r.entries.length := by
    rw [hsize, Nat.add_sub_cancel, getD_offsets le_rfl, (laidOut r).last]
  rw [ofRaw_eq_ok_iff]
  refine ⟨⟨by omega, ⟨getD_offsets (Nat.zero_le _), fun v hv => ?_⟩, ?_, ?_⟩, ?_, ?_⟩
  · rw [getD_offsets (by omega), getD_offsets (by omega)]
    exact (laidOut r).monotone (Nat.le_succ v)
  · rw [hlast]
    simp [heads]
  · rw [hlast]
    simp [costs]
  · rintro v e ⟨hv, hlow, hhigh⟩
    rw [getD_offsets (by omega)] at hlow hhigh
    rw [start_succ] at hhigh
    obtain ⟨i, rfl⟩ := Nat.exists_eq_add_of_le hlow
    have hi : i < r.degree v := by omega
    have hentry := entryOf_layout (List.getElem?_eq_getElem hi)
    have hmem := List.getElem_mem (l := r.row v) hi
    obtain ⟨hhead, hcosts, -⟩ := RowEntry.mk.inj hentry
    rw [Passes, hhead, hcosts, hsize, Nat.add_sub_cancel]
    exact ⟨hwell.head_lt v _ hmem, hwell.head_ne v _ hmem, hcost v _ hmem⟩
  · rw [renumbered, hsize, Nat.add_sub_cancel]
    congr 2
    refine List.map_congr_left fun v hv => ?_
    rw [rowOf_layout hsorted (List.mem_range.mp hv)]

theorem Built.sorted {r : Rows α} (h : r.Built) (v : Nat) : (r.row v).Pairwise Before := by
  rcases h with ⟨g, hg, rfl⟩ | ⟨offsets, targets, weights, h⟩
  · exact (listsArcs_ofNetwork hg.wellFormed.toLinked).sorted v
  · exact (reads_of_ofRaw h).sorted v

theorem Built.admissible {r : Rows α} (h : r.Built) {v : Nat} {e : RowEntry α}
    (he : e ∈ r.row v) : Weight.admissible e.cost = true := by
  rcases h with ⟨g, hg, rfl⟩ | ⟨offsets, targets, weights, h⟩
  · have hlists := listsArcs_ofNetwork hg.wellFormed.toLinked
    obtain ⟨hlt, -⟩ := (hlists.arcs v e.arc).mp (List.mem_map_of_mem he)
    rw [(hlists.entry v e he).2]
    exact hg.wellFormed.cost_admissible e.arc hlt
  · obtain ⟨⟨-, -, hcost⟩, hentry⟩ := mem_row_of_ofRaw h he
    rw [hentry]
    exact hcost

/-- Rows lose nothing and invent nothing.  The rows of a network list the arcs between its marked
nodes.  Raw arrays are read if and only if their shape is right and every entry passes; otherwise
the first thing wrong with them is reported.  Rows, laid out as raw arrays, are read again as they
are, with positions for arcs. -/
theorem construction_exact :
    (∀ g : Network α, g.Built → (ofNetwork g).ListsArcs g) ∧
      (∀ (offsets targets : Array Nat) (weights : Array α),
        ((∃ r, ofRaw offsets targets weights = .ok r) ↔
          WellShaped offsets targets weights ∧
            ∀ v e, InRow offsets v e → Passes (offsets.size - 1) targets weights v e) ∧
        (∀ r, ofRaw offsets targets weights = .ok r → Reads offsets targets weights r) ∧
        ∀ err, ofRaw offsets targets weights = .error err ↔
          Misshapen offsets targets weights err ∨
            WellShaped offsets targets weights ∧ ∃ v e, InRow offsets v e ∧
              Refused (offsets.size - 1) targets weights v e err ∧
              ∀ v' e', InRow offsets v' e' → e' < e →
                Passes (offsets.size - 1) targets weights v' e') ∧
      ∀ r : Rows α, r.Built → ofRaw r.offsets r.heads r.costs = .ok r.renumbered := by
  refine ⟨fun g hg => listsArcs_ofNetwork hg.wellFormed.toLinked,
    fun offsets targets weights => ⟨?_, fun r => reads_of_ofRaw, fun err => ofRaw_eq_error_iff⟩,
    fun r hr => ofRaw_layout hr.wellFormed hr.sorted fun v e => hr.admissible⟩
  constructor
  · rintro ⟨r, h⟩
    obtain ⟨hshape, hpass, -⟩ := ofRaw_eq_ok_iff.mp h
    exact ⟨hshape, hpass⟩
  · rintro ⟨hshape, hpass⟩
    exact ⟨_, ofRaw_eq_ok_iff.mpr ⟨hshape, hpass, rfl⟩⟩

/-- A path of two edges whose middle node is unmarked, and arrays of which one row is out of order:
they can be read, and so can their layout; an entry that leads from a node to itself cannot. -/
theorem construction_exact_path :
    let edge : Network ℚ := ((Network.empty 3).pushArc 0 1 2).pushArc 1 0 2
    let g := ((edge.pushArc 1 2 3).pushArc 2 1 3).setMark 1 false
    (ofNetwork g).ListsArcs g ∧
      (∃ r, ofRaw #[0, 2, 3, 3] #[2, 1, 0] #[(5 : ℚ), 1, 1] = .ok r ∧
        Reads #[0, 2, 3, 3] #[2, 1, 0] #[5, 1, 1] r ∧
        ofRaw r.offsets r.heads r.costs = .ok r.renumbered) ∧
      ofRaw #[0, 2, 2] #[1, 0] #[(4 : ℚ), 4] = .error (.selfLoop 0) := by
  intro edge g
  have hadd₁ : (Network.empty 3).addArcPair 0 1 (2 : ℚ) 2 = .ok (0, edge) := rfl
  have hadd₂ : edge.addArcPair 1 2 3 3 = .ok (1, (edge.pushArc 1 2 3).pushArc 2 1 3) := by
    simp only [edge]
    rfl
  have hbuilt : g.Built := (((Network.Built.empty 3).addArcPair hadd₁).addArcPair hadd₂).setMark 1
    false
  obtain ⟨hnetwork, hraw, hlayout⟩ := construction_exact (α := ℚ)
  have hshape : WellShaped #[0, 2, 3, 3] #[2, 1, 0] #[(5 : ℚ), 1, 1] := by
    refine ⟨by decide, ⟨rfl, fun v hv => ?_⟩, by decide, by decide⟩
    replace hv : v < 3 := Nat.lt_of_succ_lt_succ hv
    interval_cases v <;> decide
  have hpass : ∀ v e, InRow #[0, 2, 3, 3] v e → Passes 3 #[2, 1, 0] #[(5 : ℚ), 1, 1] v e := by
    rintro v e ⟨hv, hlow, hhigh⟩
    change v < 3 at hv
    interval_cases v
    · change e < 2 at hhigh
      interval_cases e <;> exact ⟨by decide, by decide, by decide⟩
    · change 2 ≤ e at hlow
      change e < 3 at hhigh
      interval_cases e
      exact ⟨by decide, by decide, by decide⟩
    · change 3 ≤ e at hlow
      change e < 3 at hhigh
      omega
  obtain ⟨r, hr⟩ := (hraw _ _ _).1.mpr ⟨hshape, hpass⟩
  refine ⟨hnetwork g hbuilt, ⟨r, hr, (hraw _ _ _).2.1 r hr, hlayout r (.inr ⟨_, _, _, hr⟩)⟩, ?_⟩
  refine ((hraw _ _ _).2.2 _).mpr (.inr ⟨⟨by decide, ⟨rfl, fun v hv => ?_⟩, by decide, by decide⟩,
    0, 1, ⟨by decide, by decide, by decide⟩, .inr (.inl ⟨by decide, by decide, rfl⟩), ?_⟩)
  · replace hv : v < 2 := Nat.lt_of_succ_lt_succ hv
    interval_cases v <;> decide
  · rintro v e ⟨hv, hlow, -⟩ he
    change v < 2 at hv
    obtain rfl : e = 0 := by omega
    interval_cases v
    · exact ⟨by decide, by decide, by decide⟩
    · change 2 ≤ 0 at hlow
      omega

end Layout

end Rows

end SteinerSearch
