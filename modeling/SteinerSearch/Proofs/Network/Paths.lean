import Mathlib.Algebra.BigOperators.Group.List.Basic
import Mathlib.Algebra.Order.BigOperators.Group.List
import Mathlib.Data.List.Perm.Subperm
import SteinerSearch.Proofs.Comparison
import SteinerSearch.Proofs.Network.Construction

/-!
# Paths and distances

A path is a list of arcs, each leaving the node that the one before it leads to.
Searches only enter marked nodes, so distances are measured along paths whose
arcs lead to marked nodes.  The node a path starts from need not be marked.

## Main definitions

* `Network.IsPath g u as v` — the arcs `as` lead from `u` to `v`.
* `Network.IsMarkedPath g u as v` — and they enter marked nodes only.
* `Network.IsDistance g c sources v d` — `d` is the length of a shortest marked
  path from one of the sources to `v`.

## Main results

* `Network.exists_isDistance_of_mem` — where there is a path there is a distance.
* `Network.distancesInReach_of_sum` — a condition on the costs that can be checked.
-/

namespace SteinerSearch

namespace Network

variable {α : Type}

/-- The arcs lead from `u` to `v`, each leaving the node that the one before it leads
to. -/
def IsPath (g : Network α) : Nat → List Nat → Nat → Prop
  | u, [], v => u = v
  | u, a :: as, v => a < g.arcCount ∧ g.tailOf a = u ∧ g.IsPath (g.headOf a) as v

@[simp] theorem isPath_nil {g : Network α} {u v : Nat} : g.IsPath u [] v ↔ u = v := Iff.rfl

theorem isPath_cons {g : Network α} {u a v : Nat} {as : List Nat} :
    g.IsPath u (a :: as) v ↔ a < g.arcCount ∧ g.tailOf a = u ∧ g.IsPath (g.headOf a) as v :=
  Iff.rfl

theorem isPath_append {g : Network α} {u v : Nat} {as bs : List Nat} :
    g.IsPath u (as ++ bs) v ↔ ∃ w, g.IsPath u as w ∧ g.IsPath w bs v := by
  induction as generalizing u with
  | nil => simp
  | cons a as ih =>
    rw [List.cons_append, isPath_cons, ih]
    constructor
    · rintro ⟨ha, ht, w, h₁, h₂⟩
      exact ⟨w, ⟨ha, ht, h₁⟩, h₂⟩
    · rintro ⟨w, ⟨ha, ht, h₁⟩, h₂⟩
      exact ⟨ha, ht, w, h₁, h₂⟩

theorem isPath_concat {g : Network α} {u a v : Nat} {as : List Nat} :
    g.IsPath u (as ++ [a]) v ↔ g.IsPath u as (g.tailOf a) ∧ a < g.arcCount ∧ g.headOf a = v := by
  rw [isPath_append]
  constructor
  · rintro ⟨w, h, ha, rfl, hv⟩
    exact ⟨h, ha, hv⟩
  · rintro ⟨h, ha, hv⟩
    exact ⟨_, h, ha, rfl, hv⟩

theorem IsPath.lt_arcCount {g : Network α} {u v : Nat} {as : List Nat} (h : g.IsPath u as v) :
    ∀ a ∈ as, a < g.arcCount := by
  induction as generalizing u with
  | nil => simp
  | cons b as ih =>
    obtain ⟨hb, -, h⟩ := h
    intro a ha
    rcases List.mem_cons.mp ha with rfl | ha
    · exact hb
    · exact ih h a ha

/-- A path that enters marked nodes only. -/
structure IsMarkedPath (g : Network α) (u : Nat) (as : List Nat) (v : Nat) : Prop where
  /-- It is a path. -/
  path : g.IsPath u as v
  /-- Its arcs lead to marked nodes. -/
  marked : ∀ a ∈ as, g.isMarked (g.headOf a) = true

theorem isMarkedPath_nil {g : Network α} {u v : Nat} : g.IsMarkedPath u [] v ↔ u = v :=
  ⟨fun h => h.path, fun h => ⟨h, by simp⟩⟩

theorem isMarkedPath_cons {g : Network α} {u a v : Nat} {as : List Nat} :
    g.IsMarkedPath u (a :: as) v ↔ (a < g.arcCount ∧ g.tailOf a = u) ∧
      g.isMarked (g.headOf a) = true ∧ g.IsMarkedPath (g.headOf a) as v := by
  constructor
  · rintro ⟨⟨ha, ht, h⟩, hm⟩
    exact ⟨⟨ha, ht⟩, hm a List.mem_cons_self, h, fun b hb => hm b (List.mem_cons_of_mem _ hb)⟩
  · rintro ⟨⟨ha, ht⟩, hm, h, hms⟩
    refine ⟨⟨ha, ht, h⟩, fun b hb => ?_⟩
    rcases List.mem_cons.mp hb with rfl | hb
    · exact hm
    · exact hms b hb

theorem isMarkedPath_concat {g : Network α} {u a v : Nat} {as : List Nat} :
    g.IsMarkedPath u (as ++ [a]) v ↔ g.IsMarkedPath u as (g.tailOf a) ∧
      a < g.arcCount ∧ g.headOf a = v ∧ g.isMarked v = true := by
  constructor
  · rintro ⟨h, hm⟩
    obtain ⟨has, ha, rfl⟩ := isPath_concat.mp h
    exact ⟨⟨has, fun b hb => hm b (List.mem_append_left _ hb)⟩, ha, rfl, hm a (by simp)⟩
  · rintro ⟨⟨h, hms⟩, ha, rfl, hm⟩
    refine ⟨isPath_concat.mpr ⟨h, ha, rfl⟩, fun b hb => ?_⟩
    rcases List.mem_append.mp hb with hb | hb
    · exact hms b hb
    · rwa [List.mem_singleton.mp hb]

/-! ### Lengths -/

/-- The length of a path under the arc costs `c`. -/
def pathLength (c : Nat → ℚ) (as : List Nat) : ℚ := (as.map c).sum

@[simp] theorem pathLength_nil (c : Nat → ℚ) : pathLength c [] = 0 := rfl

@[simp] theorem pathLength_cons (c : Nat → ℚ) (a : Nat) (as : List Nat) :
    pathLength c (a :: as) = c a + pathLength c as := by
  simp [pathLength]

theorem pathLength_append (c : Nat → ℚ) (as bs : List Nat) :
    pathLength c (as ++ bs) = pathLength c as + pathLength c bs := by
  simp [pathLength]

@[simp] theorem pathLength_concat (c : Nat → ℚ) (as : List Nat) (a : Nat) :
    pathLength c (as ++ [a]) = pathLength c as + c a := by
  simp [pathLength]

/-- Arcs that are taken the other way cost what their opposites do. -/
theorem pathLength_map_rev (c : Nat → ℚ) (as : List Nat) :
    pathLength c (as.reverse.map Arc.rev) = pathLength (fun a => c (Arc.rev a)) as := by
  rw [pathLength, List.map_map, (as.reverse_perm.map _).sum_eq]
  rfl

theorem isWhole_pathLength {c : Nat → ℚ} {as : List Nat} (h : ∀ a ∈ as, Weight.IsWhole (c a)) :
    Weight.IsWhole (pathLength c as) := by
  induction as with
  | nil => exact Weight.isWhole_zero
  | cons a as ih =>
    rw [pathLength_cons]
    exact (h a List.mem_cons_self).add (ih fun b hb => h b (List.mem_cons_of_mem _ hb))

theorem pathLength_nonneg {c : Nat → ℚ} {as : List Nat} (h : ∀ a ∈ as, 0 ≤ c a) :
    0 ≤ pathLength c as := by
  refine List.sum_nonneg fun x hx => ?_
  obtain ⟨a, ha, rfl⟩ := List.mem_map.mp hx
  exact h a ha

/-- Numbers that no arc overtakes bound all paths from below. -/
theorem IsPath.le_pathLength {g : Network α} {c x : Nat → ℚ} {u v : Nat} {as : List Nat}
    (hx : ∀ a, a < g.arcCount → x (g.headOf a) ≤ x (g.tailOf a) + c a) (h : g.IsPath u as v) :
    x v ≤ x u + pathLength c as := by
  induction as generalizing u with
  | nil =>
    obtain rfl := h
    simp
  | cons a as ih =>
    obtain ⟨ha, rfl, hrest⟩ := h
    have hstep := hx a ha
    have hrest := ih hrest
    rw [pathLength_cons]
    linarith

/-! ### Distances -/

/-- `d` is the length of a shortest marked path from one of the sources to `v`. -/
structure IsDistance (g : Network α) (c : Nat → ℚ) (sources : List Nat) (v : Nat) (d : ℚ) :
    Prop where
  /-- Some path has this length. -/
  attained : ∃ s ∈ sources, ∃ as, g.IsMarkedPath s as v ∧ pathLength c as = d
  /-- No path is shorter. -/
  least : ∀ s ∈ sources, ∀ as, g.IsMarkedPath s as v → d ≤ pathLength c as

theorem IsDistance.unique {g : Network α} {c : Nat → ℚ} {sources : List Nat} {v : Nat} {d e : ℚ}
    (hd : g.IsDistance c sources v d) (he : g.IsDistance c sources v e) : d = e := by
  obtain ⟨s, hs, as, has, rfl⟩ := hd.attained
  obtain ⟨t, ht, bs, hbs, rfl⟩ := he.attained
  exact le_antisymm (hd.least t ht bs hbs) (he.least s hs as has)

/-- Every distance is smaller than the one that stands for unreached nodes. -/
def DistancesInReach (g : Network α) (c : Nat → ℚ) : Prop :=
  ∀ u v d, g.IsDistance c [u] v d → d < Weight.faraway

theorem DistancesInReach.lt_faraway {g : Network α} {c : Nat → ℚ} (hg : g.DistancesInReach c)
    {sources : List Nat} {v : Nat} {d : ℚ} (hd : g.IsDistance c sources v d) :
    d < Weight.faraway := by
  obtain ⟨s, hs, as, has, hlen⟩ := hd.attained
  refine hg s v d ⟨⟨s, by simp, as, has, hlen⟩, fun t ht => ?_⟩
  rw [List.mem_singleton.mp ht]
  exact hd.least s hs

/-- Where there is a path there is a shortest one. -/
theorem exists_isDistance_of_mem {g : Network α} {c : Nat → ℚ}
    (hc : ∀ a, a < g.arcCount → Weight.IsWhole (c a)) {sources : List Nat} {u v : Nat}
    (hu : u ∈ sources) {as : List Nat} (h : g.IsMarkedPath u as v) :
    ∃ d, g.IsDistance c sources v d := by
  obtain ⟨⟨s, bs⟩, ⟨hs, hbs⟩, hleast⟩ := Weight.exists_least_of_isWhole
    (P := fun p : Nat × List Nat => p.1 ∈ sources ∧ g.IsMarkedPath p.1 p.2 v)
    (f := fun p => pathLength c p.2)
    (fun p hp => isWhole_pathLength fun a ha => hc a (hp.2.path.lt_arcCount a ha))
    (i := (u, as)) ⟨hu, h⟩
  exact ⟨_, ⟨⟨s, hs, bs, hbs, rfl⟩, fun t ht cs hcs => hleast (t, cs) ⟨ht, hcs⟩⟩⟩

theorem exists_isDistance {g : Network α} {c : Nat → ℚ}
    (hc : ∀ a, a < g.arcCount → Weight.IsWhole (c a)) {u v : Nat} {as : List Nat}
    (h : g.IsMarkedPath u as v) : ∃ d, g.IsDistance c [u] v d :=
  exists_isDistance_of_mem hc (List.mem_singleton_self u) h

/-! ### Paths without repetitions -/

/-- What a path leaves after a point is a path from there. -/
theorem IsMarkedPath.suffix {g : Network α} {u v a : Nat} {as bs : List Nat}
    (h : g.IsMarkedPath u (as ++ a :: bs) v) : g.IsMarkedPath (g.tailOf a) (a :: bs) v := by
  obtain ⟨w, -, ha, hw, hbs⟩ := isPath_append.mp h.path
  exact ⟨⟨ha, rfl, hbs⟩, fun b hb => h.marked b (List.mem_append_right _ hb)⟩

/-- A path that meets an arc twice may leave out what is in between. -/
theorem IsMarkedPath.exists_nodup {g : Network α} {c : Nat → ℚ}
    (hc : ∀ a, a < g.arcCount → 0 ≤ c a) {u v : Nat} {as : List Nat} (h : g.IsMarkedPath u as v) :
    ∃ bs, g.IsMarkedPath u bs v ∧ bs.Nodup ∧ pathLength c bs ≤ pathLength c as := by
  induction as generalizing u with
  | nil => exact ⟨[], h, List.nodup_nil, le_refl _⟩
  | cons a as ih =>
    obtain ⟨⟨ha, hu⟩, hmark, has⟩ := isMarkedPath_cons.mp h
    obtain ⟨bs, hbs, hnodup, hle⟩ := ih has
    rw [pathLength_cons]
    by_cases hmem : a ∈ bs
    · -- the rest of the path comes back to the arc it starts with
      obtain ⟨xs, ys, rfl⟩ := List.append_of_mem hmem
      refine ⟨a :: ys, hu ▸ hbs.suffix, (List.nodup_append.mp hnodup).2.1, ?_⟩
      have hxs : 0 ≤ pathLength c xs := pathLength_nonneg fun b hb =>
        hc b (hbs.path.lt_arcCount b (List.mem_append_left _ hb))
      rw [pathLength_append] at hle
      linarith [hc a ha]
    · refine ⟨a :: bs, isMarkedPath_cons.mpr ⟨⟨ha, hu⟩, hmark, hbs⟩,
        List.nodup_cons.mpr ⟨hmem, hnodup⟩, ?_⟩
      rw [pathLength_cons]
      linarith

/-- Arcs without repetitions are no longer than all arcs together. -/
theorem pathLength_le_of_nodup {g : Network α} {c : Nat → ℚ}
    (hc : ∀ a, a < g.arcCount → 0 ≤ c a) {as : List Nat} (hnodup : as.Nodup)
    (hlt : ∀ a ∈ as, a < g.arcCount) :
    pathLength c as ≤ pathLength c (List.range g.arcCount) := by
  obtain ⟨l, hperm, hsub⟩ := hnodup.subperm fun a ha => List.mem_range.mpr (hlt a ha)
  calc pathLength c as = pathLength c l := ((hperm.map c).sum_eq).symm
    _ ≤ pathLength c (List.range g.arcCount) := by
      refine List.Sublist.sum_le_sum (hsub.map c) fun x hx => ?_
      obtain ⟨a, ha, rfl⟩ := List.mem_map.mp hx
      exact hc a (List.mem_range.mp ha)

/-- Distances are in reach if all arcs together are. -/
theorem distancesInReach_of_sum {g : Network α} {c : Nat → ℚ}
    (hc : ∀ a, a < g.arcCount → 0 ≤ c a)
    (hsum : pathLength c (List.range g.arcCount) < Weight.faraway) : g.DistancesInReach c := by
  intro u v d hd
  obtain ⟨s, hs, as, has, -⟩ := hd.attained
  obtain ⟨bs, hbs, hnodup, -⟩ := has.exists_nodup hc
  exact (hd.least s hs bs hbs).trans_lt
    ((pathLength_le_of_nodup hc hnodup hbs.path.lt_arcCount).trans_lt hsum)

end Network

end SteinerSearch
