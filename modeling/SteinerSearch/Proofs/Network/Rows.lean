import Mathlib.Algebra.Order.BigOperators.Group.List
import Mathlib.Algebra.Order.Field.Rat
import SteinerSearch.Proofs.Comparison
import SteinerSearch.Proofs.Network.Construction
import SteinerSearch.Proofs.Network.RawRows

/-!
# Rows and their paths

Rows that come from a network or from raw arrays lead from each node to other nodes
only.  A path through rows is a list of entries, each in the row of the node that the
one before it leads to.

## Main definitions

* `Rows.Built r` — `r` comes from a network or from raw arrays.
* `Rows.IsPath r u es v` — the entries `es` lead from `u` to `v`.
* `Rows.pathCost es` — what the entries cost together.
* `Rows.without r c flags` — `r` without the flagged entries of the row of `c`.

## Main results

* `Rows.Built.wellFormed` — entries lead to other nodes of the rows.
-/

namespace SteinerSearch

namespace Rows

variable {α : Type}

/-- The rows come from a network or from raw arrays. -/
def Built [Weight α] (r : Rows α) : Prop :=
  (∃ g : Network α, g.Built ∧ r = ofNetwork g) ∨
    ∃ offsets targets weights, ofRaw offsets targets weights = .ok r

/-- Entries lead to other nodes of the rows. -/
structure WellFormed (r : Rows α) : Prop where
  head_lt : ∀ v, ∀ e ∈ r.row v, e.head < r.nodeCount
  head_ne : ∀ v, ∀ e ∈ r.row v, e.head ≠ v

/-! ### Where rows come from -/

/-- Only nodes of the rows have entries. -/
theorem lt_nodeCount_of_mem {r : Rows α} {v : Nat} {e : RowEntry α} (h : e ∈ r.row v) :
    v < r.nodeCount := by
  by_contra hv
  rw [row, Array.getD_of_size_le (Nat.le_of_not_lt hv)] at h
  cases h

variable [Weight α]

theorem nodeCount_ofNetwork (g : Network α) : (ofNetwork g).nodeCount = g.nodeCount := by
  simp [nodeCount, ofNetwork, Network.nodes]

/-- The entries of a row are arcs that leave its node. -/
theorem mem_row_ofNetwork {g : Network α} {v : Nat} {e : RowEntry α}
    (h : e ∈ (ofNetwork g).row v) : ∃ a ∈ g.outArcs v, e = ⟨g.headOf a, g.costOf a, a⟩ := by
  have hv := lt_nodeCount_of_mem h
  rw [nodeCount_ofNetwork] at hv
  simp only [row, ofNetwork, Network.nodes, Array.getD_eq_getD_getElem?, List.getElem?_toArray,
    List.getElem?_map, List.getElem?_range hv, Option.map_some, Option.getD_some] at h
  split at h
  · obtain ⟨a, ha, rfl⟩ := List.mem_map.mp (List.mem_mergeSort.mp h)
    exact ⟨a, (List.mem_filter.mp ha).1, rfl⟩
  · cases h

theorem wellFormed_ofNetwork {g : Network α} (hg : g.Linked) : (ofNetwork g).WellFormed := by
  refine ⟨fun v e he => ?_, fun v e he => ?_⟩
  · obtain ⟨a, ha, rfl⟩ := mem_row_ofNetwork he
    rw [nodeCount_ofNetwork]
    exact hg.head_lt a (hg.mem_outArcs.mp ha).1
  · obtain ⟨a, ha, rfl⟩ := mem_row_ofNetwork he
    obtain ⟨harc, rfl⟩ := hg.mem_outArcs.mp ha
    exact hg.head_ne_tail a harc

theorem wellFormed_ofRaw {offsets targets : Array Nat} {weights : Array α} {r : Rows α}
    (h : ofRaw offsets targets weights = .ok r) : r.WellFormed := by
  have hcount := (reads_of_ofRaw h).nodeCount
  refine ⟨fun v e he => ?_, fun v e he => ?_⟩
  · obtain ⟨⟨hlt, -, -⟩, hentry⟩ := mem_row_of_ofRaw h he
    rw [hcount, hentry]
    exact hlt
  · obtain ⟨⟨-, hne, -⟩, hentry⟩ := mem_row_of_ofRaw h he
    rw [hentry]
    exact hne

theorem Built.wellFormed {r : Rows α} (hr : r.Built) : r.WellFormed := by
  rcases hr with ⟨g, hg, rfl⟩ | ⟨offsets, targets, weights, h⟩
  · exact wellFormed_ofNetwork hg.wellFormed.toLinked
  · exact wellFormed_ofRaw h

/-! ### Paths -/

section Paths

variable {β : Type} {r : Rows β}

/-- The entries lead from `u` to `v`, each in the row of the node that the one before it
leads to. -/
def IsPath (r : Rows β) : Nat → List (RowEntry β) → Nat → Prop
  | u, [], v => u = v
  | u, e :: es, v => e ∈ r.row u ∧ r.IsPath e.head es v

theorem isPath_concat {u v : Nat} {es : List (RowEntry β)} {e : RowEntry β} :
    r.IsPath u (es ++ [e]) v ↔ ∃ w, r.IsPath u es w ∧ e ∈ r.row w ∧ e.head = v := by
  induction es generalizing u with
  | nil => exact ⟨fun ⟨he, hv⟩ => ⟨u, rfl, he, hv⟩, fun ⟨w, hw, he, hv⟩ => ⟨hw ▸ he, hv⟩⟩
  | cons x es ih =>
    rw [List.cons_append, IsPath, ih]
    constructor
    · rintro ⟨hx, w, h, he, hv⟩
      exact ⟨w, ⟨hx, h⟩, he, hv⟩
    · rintro ⟨w, ⟨hx, h⟩, he, hv⟩
      exact ⟨hx, w, h, he, hv⟩

theorem IsPath.append {u v w : Nat} {es fs : List (RowEntry β)} (h : r.IsPath u es v)
    (h' : r.IsPath v fs w) : r.IsPath u (es ++ fs) w := by
  induction es generalizing u with
  | nil => exact (show u = v from h) ▸ h'
  | cons e es ih => exact ⟨h.1, ih h.2⟩

theorem IsPath.mem_row {u v : Nat} {es : List (RowEntry β)} (h : r.IsPath u es v) :
    ∀ e ∈ es, ∃ w, e ∈ r.row w := by
  induction es generalizing u with
  | nil => simp
  | cons x es ih =>
    intro e he
    rcases List.mem_cons.mp he with rfl | he
    · exact ⟨u, h.1⟩
    · exact ih h.2 e he

/-- A path either never leads to `c`, or some rest of it starts there and does so no
more. -/
theorem IsPath.last_visit {c u v : Nat} {es : List (RowEntry β)} (h : r.IsPath u es v) :
    (∀ e ∈ es, e.head ≠ c) ∨ ∃ pre post, es = pre ++ post ∧ r.IsPath c post v ∧
      ∀ e ∈ post, e.head ≠ c := by
  induction es generalizing u with
  | nil =>
    left
    simp
  | cons x es ih =>
    rcases ih h.2 with haway | ⟨pre, post, rfl, hpost, haway⟩
    · by_cases hx : x.head = c
      · exact Or.inr ⟨[x], es, rfl, hx ▸ h.2, haway⟩
      · left
        intro e he
        rcases List.mem_cons.mp he with rfl | he
        · exact hx
        · exact haway e he
    · exact Or.inr ⟨x :: pre, post, rfl, hpost, haway⟩

/-- A path from `c` comes back to `c` for the last time somewhere. -/
theorem IsPath.last_departure {c v : Nat} {es : List (RowEntry β)} (h : r.IsPath c es v) :
    ∃ pre post, es = pre ++ post ∧ r.IsPath c post v ∧ ∀ e ∈ post, e.head ≠ c := by
  rcases h.last_visit (c := c) with haway | hsplit
  · exact ⟨[], es, rfl, h, haway⟩
  · exact hsplit

end Paths

/-- What the entries cost together. -/
def pathCost (es : List (RowEntry ℚ)) : ℚ := (es.map RowEntry.cost).sum

@[simp] theorem pathCost_nil : pathCost [] = 0 := rfl

@[simp] theorem pathCost_cons (e : RowEntry ℚ) (es : List (RowEntry ℚ)) :
    pathCost (e :: es) = e.cost + pathCost es := by
  simp [pathCost]

@[simp] theorem pathCost_append (es fs : List (RowEntry ℚ)) :
    pathCost (es ++ fs) = pathCost es + pathCost fs := by
  simp [pathCost]

theorem pathCost_nonneg {es : List (RowEntry ℚ)} (h : ∀ e ∈ es, 0 ≤ e.cost) : 0 ≤ pathCost es := by
  refine List.sum_nonneg fun x hx => ?_
  obtain ⟨e, he, rfl⟩ := List.mem_map.mp hx
  exact h e he

/-! ### Leaving out entries -/

section Without

variable {β : Type} {r : Rows β} {c : Nat} {flags : Array Bool}

/-- The entries of a row that are not flagged. -/
def unflagged (row : List (RowEntry β)) (flags : Array Bool) : List (RowEntry β) :=
  (row.zipIdx.filter fun x => !flags.getD x.2 false).map Prod.fst

/-- The rows without the flagged entries of the row of `c`. -/
def without (r : Rows β) (c : Nat) (flags : Array Bool) : Rows β :=
  ⟨r.rows.setIfInBounds c (unflagged (r.row c) flags)⟩

theorem mem_unflagged {row : List (RowEntry β)} {e : RowEntry β} :
    e ∈ unflagged row flags ↔ ∃ i, row[i]? = some e ∧ flags.getD i false = false := by
  unfold unflagged
  constructor
  · intro h
    obtain ⟨⟨x, i⟩, hx, rfl⟩ := List.mem_map.mp h
    obtain ⟨hx, hflag⟩ := List.mem_filter.mp hx
    exact ⟨i, List.mem_zipIdx_iff_getElem?.mp hx, by simpa using hflag⟩
  · rintro ⟨i, hi, hflag⟩
    exact List.mem_map.mpr ⟨(e, i), List.mem_filter.mpr
      ⟨List.mem_zipIdx_iff_getElem?.mpr hi, by simp [hflag]⟩, rfl⟩

theorem row_without_self (hc : c < r.nodeCount) :
    (r.without c flags).row c = unflagged (r.row c) flags :=
  Array.getD_setIfInBounds_self hc _ _

theorem row_without_of_ne {v : Nat} (hv : v ≠ c) : (r.without c flags).row v = r.row v :=
  Array.getD_setIfInBounds_of_ne hv _ _

/-- A path that stays away from `c` meets no row that was changed. -/
theorem IsPath.without {u v : Nat} {es : List (RowEntry β)} (h : r.IsPath u es v) (hu : u ≠ c)
    (hes : ∀ e ∈ es, e.head ≠ c) : (r.without c flags).IsPath u es v := by
  induction es generalizing u with
  | nil => exact h
  | cons e es ih =>
    refine ⟨?_, ih h.2 (hes e List.mem_cons_self) fun x hx => hes x (List.mem_cons_of_mem _ hx)⟩
    rw [row_without_of_ne hu]
    exact h.1

/-- A path may start with an entry that is not flagged, if it never comes back to `c`. -/
theorem IsPath.without_cons {v j : Nat} {first : RowEntry β} {es : List (RowEntry β)}
    (hc : c < r.nodeCount) (hj : (r.row c)[j]? = some first) (hflag : flags.getD j false = false)
    (h : r.IsPath first.head es v) (haway : ∀ e ∈ first :: es, e.head ≠ c) :
    (r.without c flags).IsPath c (first :: es) v := by
  refine ⟨?_, h.without (haway first List.mem_cons_self) fun e he =>
    haway e (List.mem_cons_of_mem _ he)⟩
  rw [row_without_self hc]
  exact mem_unflagged.mpr ⟨j, hj, hflag⟩

/-- A way to `u` that starts so can be followed by another path. -/
theorem IsPath.without_detour {u v j : Nat} {first : RowEntry β} {es fs : List (RowEntry β)}
    (hc : c < r.nodeCount) (hj : (r.row c)[j]? = some first) (hflag : flags.getD j false = false)
    (h : r.IsPath c (first :: es) u) (haway : ∀ e ∈ first :: es, e.head ≠ c)
    (h' : r.IsPath u fs v) (haway' : ∀ e ∈ fs, e.head ≠ c) :
    (r.without c flags).IsPath c (first :: (es ++ fs)) v :=
  (h.2.append h').without_cons hc hj hflag (List.forall_mem_append.mpr ⟨haway, haway'⟩)

end Without

end Rows

end SteinerSearch
