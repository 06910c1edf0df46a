import Mathlib.Data.List.Nodup
import Mathlib.Data.List.Perm.Subperm
import Mathlib.Logic.Equiv.Defs
import SteinerSearch.Proofs.Network.RawRows

/-!
# Rearranged rows

Raw arrays may show the entries of a row in any order.  As long as entries that lead to the same
node keep their order among each other, the rows that are read differ in the positions alone.

## Main definitions

* `Rows.renamed r f` — `r` with `f a` for every arc `a`.
* `Rows.Rearranged offsets targets weights σ targets' weights'` — `σ` tells where each entry of
  the arrays stands in the other ones.

## Main results

* `Rows.rowOf_rearranged` — a row is the same but for the positions.
* `Rows.ofRaw_rearranged` — so are all rows, and one can be read if the other can.
-/

namespace SteinerSearch

variable {α : Type}

/-- The entry with `f a` for its arc `a`. -/
def RowEntry.renamed (f : Nat → Nat) (e : RowEntry α) : RowEntry α := { e with arc := f e.arc }

namespace Rows

/-! ### Other arcs -/

/-- The rows with `f a` for every arc `a`. -/
def renamed (r : Rows α) (f : Nat → Nat) : Rows α :=
  ⟨r.rows.map fun row => row.map (RowEntry.renamed f)⟩

@[simp] theorem nodeCount_renamed (r : Rows α) (f : Nat → Nat) :
    (r.renamed f).nodeCount = r.nodeCount := by
  simp [renamed, nodeCount]

@[simp] theorem row_renamed (r : Rows α) (f : Nat → Nat) (v : Nat) :
    (r.renamed f).row v = (r.row v).map (RowEntry.renamed f) := by
  rw [row_eq, row_eq, renamed, Array.toList_map, List.getElem?_map]
  cases r.rows.toList[v]? <;> rfl

/-! ### Another order -/

variable [Weight α]

/-- Both pairs of arrays have the same entries in each row, and `σ` tells where in the row an entry
of the one stands in the other.  Entries that lead to the same node keep their order. -/
structure Rearranged (offsets targets : Array Nat) (weights : Array α) (σ : Equiv.Perm Nat)
    (targets' : Array Nat) (weights' : Array α) : Prop where
  /-- There are as many targets. -/
  targets_size : targets'.size = targets.size
  /-- There are as many weights. -/
  weights_size : weights'.size = weights.size
  /-- Entries stay in their rows. -/
  row : ∀ v e, InRow offsets v e → InRow offsets v (σ e)
  /-- They keep their targets. -/
  target : ∀ v e, InRow offsets v e → targets'.getD (σ e) 0 = targets.getD e 0
  /-- They keep their weights. -/
  weight : ∀ v e, InRow offsets v e → weights'.getD (σ e) 0 = weights.getD e 0
  /-- Of two entries with the same target the first one stays the first. -/
  parallel : ∀ v e e', InRow offsets v e → InRow offsets v e' → e < e' →
    targets.getD e 0 = targets.getD e' 0 → σ e < σ e'

variable {offsets targets targets' : Array Nat} {weights weights' : Array α} {σ : Equiv.Perm Nat}

/-- A row has as many places as entries, so each place is taken. -/
theorem Rearranged.perm_range' (h : Rearranged offsets targets weights σ targets' weights')
    {v : Nat} (hv : v < offsets.size - 1) :
    ((List.range' (offsets.getD v 0) (offsets.getD (v + 1) 0 - offsets.getD v 0)).map σ).Perm
      (List.range' (offsets.getD v 0) (offsets.getD (v + 1) 0 - offsets.getD v 0)) := by
  have hnodup : ((List.range' (offsets.getD v 0)
      (offsets.getD (v + 1) 0 - offsets.getD v 0)).map σ).Nodup :=
    List.Nodup.map σ.injective List.nodup_range'
  refine (hnodup.subperm fun e he => ?_).perm_of_length_le (by simp)
  obtain ⟨d, hd, rfl⟩ := List.mem_map.mp he
  exact (mem_range'_iff hv).mpr (h.row v d ((mem_range'_iff hv).mp hd))

/-- Every position of a row has its entry from the same row. -/
theorem Rearranged.exists_eq (h : Rearranged offsets targets weights σ targets' weights')
    {v e : Nat} (he : InRow offsets v e) : ∃ d, InRow offsets v d ∧ σ d = e := by
  have hmem := (h.perm_range' he.1).mem_iff.mpr ((mem_range'_iff he.1).mpr he)
  obtain ⟨d, hd, rfl⟩ := List.mem_map.mp hmem
  exact ⟨d, (mem_range'_iff he.1).mp hd, rfl⟩

theorem Rearranged.wellShaped_iff (h : Rearranged offsets targets weights σ targets' weights') :
    WellShaped offsets targets' weights' ↔ WellShaped offsets targets weights := by
  constructor
  · rintro ⟨hsize, hord, ht, hw⟩
    exact ⟨hsize, hord, h.targets_size ▸ ht, h.weights_size ▸ hw⟩
  · rintro ⟨hsize, hord, ht, hw⟩
    exact ⟨hsize, hord, h.targets_size ▸ ht, h.weights_size ▸ hw⟩

theorem Rearranged.passes_iff (h : Rearranged offsets targets weights σ targets' weights')
    {v e : Nat} (he : InRow offsets v e) (n : Nat) :
    Passes n targets' weights' v (σ e) ↔ Passes n targets weights v e := by
  rw [Passes, Passes, h.target v e he, h.weight v e he]

theorem Rearranged.entryOf_eq (h : Rearranged offsets targets weights σ targets' weights')
    {v e : Nat} (he : InRow offsets v e) :
    entryOf targets' weights' (σ e) = (entryOf targets weights e).renamed σ := by
  rw [entryOf, h.target v e he, h.weight v e he]
  rfl

theorem mem_rowOf {v : Nat} (hv : v < offsets.size - 1) {x : RowEntry α}
    (hx : x ∈ rowOf offsets targets weights v) :
    InRow offsets v x.arc ∧ x = entryOf targets weights x.arc := by
  obtain ⟨e, he, rfl⟩ := List.mem_map.mp ((perm_rowOf ..).mem_iff.mp hx)
  exact ⟨(mem_range'_iff hv).mp he, rfl⟩

/-- Both rows are in order and have the same entries. -/
theorem rowOf_rearranged (h : Rearranged offsets targets weights σ targets' weights') {v : Nat}
    (hv : v < offsets.size - 1) : rowOf offsets targets' weights' v =
      (rowOf offsets targets weights v).map (RowEntry.renamed σ) := by
  refine List.Perm.eq_of_pairwise ?_ (pairwise_before_rowOf ..) ?_ ?_
  · intro x y _ _ hxy hyx
    unfold Before at hxy hyx
    omega
  · rw [List.pairwise_map]
    refine (pairwise_before_rowOf offsets targets weights v).imp_of_mem fun {x y} hx hy hxy => ?_
    rcases hxy with hlt | ⟨heq, hlt⟩
    · exact Or.inl hlt
    · obtain ⟨hx, hxe⟩ := mem_rowOf hv hx
      obtain ⟨hy, hye⟩ := mem_rowOf hv hy
      rw [hxe, hye] at heq
      exact Or.inr ⟨by rw [hxe, hye]; exact heq, h.parallel v _ _ hx hy hlt heq⟩
  · have hmap : (List.range' (offsets.getD v 0)
        (offsets.getD (v + 1) 0 - offsets.getD v 0)).map (entryOf targets' weights' ∘ σ) =
          (List.range' (offsets.getD v 0) (offsets.getD (v + 1) 0 - offsets.getD v 0)).map
            (RowEntry.renamed σ ∘ entryOf targets weights) :=
      List.map_congr_left fun e he => h.entryOf_eq ((mem_range'_iff hv).mp he)
    have hperm := (h.perm_range' hv).map (entryOf targets' weights')
    rw [List.map_map, hmap, ← List.map_map] at hperm
    exact (perm_rowOf ..).trans (hperm.symm.trans ((perm_rowOf ..).map _).symm)

/-- In another order, arrays can be read if they could be before, and the rows differ in the
positions alone. -/
theorem ofRaw_rearranged (h : Rearranged offsets targets weights σ targets' weights') :
    (∀ r, ofRaw offsets targets weights = .ok r →
      ofRaw offsets targets' weights' = .ok (r.renamed σ)) ∧
    ∀ err, ofRaw offsets targets weights = .error err →
      ∃ err', ofRaw offsets targets' weights' = .error err' := by
  have hpasses : (∀ v e, InRow offsets v e → Passes (offsets.size - 1) targets' weights' v e) ↔
      ∀ v e, InRow offsets v e → Passes (offsets.size - 1) targets weights v e := by
    refine ⟨fun hall v e he => (h.passes_iff he _).mp (hall v _ (h.row v e he)),
      fun hall v e he => ?_⟩
    obtain ⟨d, hd, rfl⟩ := h.exists_eq he
    exact (h.passes_iff hd _).mpr (hall v d hd)
  refine ⟨fun r hr => ?_, fun err herr => ?_⟩
  · obtain ⟨hshape, hall, rfl⟩ := ofRaw_eq_ok_iff.mp hr
    refine ofRaw_eq_ok_iff.mpr ⟨h.wellShaped_iff.mpr hshape, hpasses.mpr hall, ?_⟩
    simp only [renamed, List.map_toArray, List.map_map]
    congr 2
    exact (List.map_congr_left fun v hv => rowOf_rearranged h (List.mem_range.mp hv)).symm
  · cases hr' : ofRaw offsets targets' weights' with
    | error err' => exact ⟨err', rfl⟩
    | ok r' =>
      obtain ⟨hshape, hall, -⟩ := ofRaw_eq_ok_iff.mp hr'
      have hr := ofRaw_eq_ok_iff.mpr ⟨h.wellShaped_iff.mp hshape, hpasses.mp hall, rfl⟩
      rw [herr] at hr
      cases hr

end Rows

end SteinerSearch
