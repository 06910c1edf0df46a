import Mathlib.Order.Monotone.Basic
import SteinerSearch.Network.Rows

/-!
# The layout of rows

The entries of a row stand in order.  Laid out one after the other, rows fill the positions from
zero on.

## Main definitions

* `Rows.Before x y` — the order of the entries of a row.
* `Rows.start r v` — where the row of `v` starts when the rows are laid out.
* `Rows.LaidOut r` — the rows fill the positions from zero on.

## Main results

* `Rows.pairwise_before_mergeSort` — sorting puts a row in order.
* `Rows.laidOut` — rows can be laid out.
-/

namespace SteinerSearch

namespace Rows

variable {α : Type}

/-! ### The order of a row -/

/-- `x` stands before `y` in a row: it leads to a smaller node, or to the same one and is the
smaller arc. -/
def Before (x y : RowEntry α) : Prop := x.head < y.head ∨ x.head = y.head ∧ x.arc < y.arc

theorem rowEntry_le_iff {x y : RowEntry α} :
    x.le y = true ↔ x.head < y.head ∨ x.head = y.head ∧ x.arc ≤ y.arc := by
  simp [RowEntry.le]

theorem rowEntry_le_trans (x y z : RowEntry α) (hxy : x.le y = true) (hyz : y.le z = true) :
    x.le z = true := by
  rw [rowEntry_le_iff] at *
  omega

theorem rowEntry_le_total (x y : RowEntry α) : (x.le y || y.le x) = true := by
  rw [Bool.or_eq_true, rowEntry_le_iff, rowEntry_le_iff]
  omega

/-- Sorting puts entries of different arcs in order. -/
theorem pairwise_before_mergeSort {es : List (RowEntry α)} (h : (es.map RowEntry.arc).Nodup) :
    (es.mergeSort RowEntry.le).Pairwise Before := by
  have hne : (es.mergeSort RowEntry.le).Pairwise fun x y => x.arc ≠ y.arc := by
    have hperm := (List.mergeSort_perm es RowEntry.le).map RowEntry.arc
    exact List.pairwise_map.mp (hperm.nodup_iff.mpr h)
  have hle := List.pairwise_mergeSort rowEntry_le_trans rowEntry_le_total es
  refine hle.imp₂ (fun x y hxy hne => ?_) hne
  rw [rowEntry_le_iff] at hxy
  unfold Before
  omega

/-! ### The layout -/

/-- Where the row of `v` starts when the rows are laid out in sequence. -/
def start (r : Rows α) (v : Nat) : Nat := (r.rows.toList.take v).flatten.length

/-- The rows lie one after the other and fill the positions from zero on. -/
structure LaidOut (r : Rows α) : Prop where
  /-- Each row ends where the next one starts. -/
  ranges : r.ranges = (List.range r.nodeCount).map fun v => (r.start v, r.start (v + 1))
  /-- The first row starts at zero. -/
  first : r.start 0 = 0
  /-- No row starts before an earlier one. -/
  monotone : Monotone r.start
  /-- The rows end with the last entry. -/
  last : r.start r.nodeCount = r.entries.length
  /-- What lies between start and end of a row is the row. -/
  slice : ∀ v, (r.entries.drop (r.start v)).take (r.start (v + 1) - r.start v) = r.row v

theorem rangesFrom_eq (s : Nat) (rows : List (List (RowEntry α))) :
    rangesFrom s rows = (List.range rows.length).map fun v =>
      (s + (rows.take v).flatten.length, s + (rows.take (v + 1)).flatten.length) := by
  induction rows generalizing s with
  | nil => rfl
  | cons row rows ih =>
    rw [rangesFrom, ih, List.length_cons, List.range_succ_eq_map, List.map_cons, List.map_map]
    simp [Function.comp_def, Nat.add_assoc]

theorem row_eq (r : Rows α) (v : Nat) : r.row v = r.rows.toList[v]?.getD [] := by
  simp [row]

theorem row_mk {n v : Nat} {f : Nat → List (RowEntry α)} :
    (⟨((List.range n).map f).toArray⟩ : Rows α).row v = if v < n then f v else [] := by
  rw [row_eq]
  split
  · next h => simp [h]
  · next h => simp [Nat.le_of_not_lt h]

theorem start_succ (r : Rows α) (v : Nat) : r.start (v + 1) = r.start v + r.degree v := by
  rw [start, List.take_add_one, List.flatten_append, List.length_append, degree, row_eq, start]
  cases r.rows.toList[v]? <;> simp

theorem laidOut (r : Rows α) : r.LaidOut := by
  have hslice : ∀ (rows : List (List (RowEntry α))) (v : Nat),
      (rows.flatten.drop (rows.take v).flatten.length).take (rows[v]?.getD []).length =
        rows[v]?.getD [] := by
    intro rows
    induction rows with
    | nil => simp
    | cons row rows ih =>
      intro v
      cases v with
      | zero => simp
      | succ v => simpa using ih v
  refine ⟨?_, rfl, monotone_nat_of_le_succ fun v => ?_, ?_, fun v => ?_⟩
  · simp [ranges, rangesFrom_eq, start, nodeCount]
  · rw [start_succ]
    exact Nat.le_add_right _ _
  · rw [start, List.take_of_length_le (by simp [nodeCount]), entries]
  · rw [start_succ, Nat.add_sub_cancel_left, degree, row_eq, entries]
    exact hslice r.rows.toList v

end Rows

end SteinerSearch
