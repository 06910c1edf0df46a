import Mathlib.Data.List.Sort
import SteinerSearch.Proofs.Network.Paths

/-!
# Terminals ranked by distance

Distances from a node to the terminals are measured along marked paths from the
node.  A ranking lists the marked terminals that can be reached with their distances,
nearest first.  Terminals at the same distance may stand in any order, but the
distances of a ranking are determined by the node.

## Main definitions

* `Network.IsGoal g b` — `b` is a marked terminal.
* `Network.IsRanking g v near` — `near` lists the reachable goals of `v`, nearest first.

## Main results

* `Network.IsRanking.exists_mem` — every goal that can be reached is listed.
* `Network.IsRanking.distances_eq` — all rankings of a node have the same distances.
* `Network.exists_sorted_listing` — nodes with a number each, in the order of the numbers.
* `Network.exists_isRanking_append` — a list of goals that are not further away than
  any other goal is the beginning of a ranking.
-/

namespace SteinerSearch

namespace Network

variable {g : Network ℚ} {v b : Nat} {d : ℚ}

/-- `b` is a marked terminal. -/
def IsGoal (g : Network ℚ) (b : Nat) : Prop := g.isTerminal b = true ∧ g.isMarked b = true

theorem lt_nodeCount_of_isMarked (h : g.isMarked v = true) : v < g.nodeCount := by
  by_contra hv
  rw [isMarked, Array.getD_of_size_le (Nat.le_of_not_lt hv)] at h
  cases h

theorem IsGoal.lt_nodeCount (h : g.IsGoal b) : b < g.nodeCount := lt_nodeCount_of_isMarked h.2

/-- The reachable goals of `v` with their distances, nearest first. -/
structure IsRanking (g : Network ℚ) (v : Nat) (near : List (Nat × ℚ)) : Prop where
  /-- The goals with a distance from `v` are listed, with it. -/
  mem_iff : ∀ b d, (b, d) ∈ near ↔ g.IsGoal b ∧ g.IsDistance g.costOf [v] b d
  /-- No goal is listed twice. -/
  nodup : (near.map Prod.fst).Nodup
  /-- The distances do not decrease. -/
  sorted : near.Pairwise fun x y => x.2 ≤ y.2

/-- Every goal that can be reached is listed. -/
theorem IsRanking.exists_mem {near : List (Nat × ℚ)} (h : g.IsRanking v near)
    (hcost : ∀ a, a < g.arcCount → Weight.IsWhole (g.costOf a)) (hgoal : g.IsGoal b)
    {as : List Nat} (has : g.IsMarkedPath v as b) : ∃ d, (b, d) ∈ near := by
  obtain ⟨d, hd⟩ := exists_isDistance hcost has
  exact ⟨d, (h.mem_iff b d).mpr ⟨hgoal, hd⟩⟩

/-- Two rankings of a node differ only in the order of goals at the same distance. -/
theorem IsRanking.distances_eq {near near' : List (Nat × ℚ)} (h : g.IsRanking v near)
    (h' : g.IsRanking v near') : near.map Prod.snd = near'.map Prod.snd := by
  have hperm : near.Perm near' := by
    rw [List.perm_ext_iff_of_nodup h.nodup.of_map h'.nodup.of_map]
    rintro ⟨b, d⟩
    rw [h.mem_iff, h'.mem_iff]
  have hsorted : (near.map Prod.snd).Pairwise (· ≤ ·) := List.pairwise_map.mpr h.sorted
  have hsorted' : (near'.map Prod.snd).Pairwise (· ≤ ·) := List.pairwise_map.mpr h'.sorted
  apply List.Perm.eq_of_pairwise _ hsorted hsorted' (hperm.map Prod.snd)
  intro d e _ _ hde hed
  exact le_antisymm hde hed

/-- Nodes with a number each can be listed in the order of the numbers. -/
theorem exists_sorted_listing {n : Nat} {P : Nat → ℚ → Prop} (hlt : ∀ b d, P b d → b < n)
    (hunique : ∀ b d e, P b d → P b e → d = e) :
    ∃ listed : List (Nat × ℚ), (∀ b d, (b, d) ∈ listed ↔ P b d) ∧ (listed.map Prod.fst).Nodup ∧
      listed.Pairwise fun x y => x.2 ≤ y.2 := by
  classical
  -- the nodes that qualify, and the number of each
  let picked := (List.range n).filter fun b => ∃ d, P b d
  have hpicked : ∀ b, b ∈ picked ↔ ∃ d, P b d := by
    intro b
    simp only [picked, List.mem_filter, List.mem_range, decide_eq_true_eq]
    exact and_iff_right_of_imp fun ⟨d, hd⟩ => hlt b d hd
  choose! far hfar using fun b (hb : ∃ d, P b d) => hb
  let found := picked.map fun b => (b, far b)
  have hperm := List.mergeSort_perm found fun x y => x.2 ≤ y.2
  refine ⟨found.mergeSort fun x y => x.2 ≤ y.2, fun b d => ?_, ?_, ?_⟩
  · rw [hperm.mem_iff]
    simp only [found, List.mem_map, Prod.mk.injEq]
    constructor
    · rintro ⟨c, hc, rfl, rfl⟩
      exact hfar c ((hpicked c).mp hc)
    · intro hd
      exact ⟨b, (hpicked b).mpr ⟨d, hd⟩, rfl, hunique b _ d (hfar b ⟨d, hd⟩) hd⟩
  · have hkeys : found.map Prod.fst = picked := by
      simp only [found, List.map_map, Function.comp_def, List.map_id']
    rw [(hperm.map Prod.fst).nodup_iff, hkeys]
    exact List.nodup_range.filter _
  · have htotal : Std.Total fun x y : Nat × ℚ => x.2 ≤ y.2 := ⟨fun x y => le_total x.2 y.2⟩
    have htrans : IsTrans (Nat × ℚ) fun x y => x.2 ≤ y.2 := ⟨fun x y z => le_trans⟩
    exact List.pairwise_mergeSort' (fun x y : Nat × ℚ => x.2 ≤ y.2) found

/-- A sorted list of goals with their distances, none of them further away than a goal
that is not listed, is the beginning of a ranking. -/
theorem exists_isRanking_append {known : List (Nat × ℚ)} (hnodup : (known.map Prod.fst).Nodup)
    (hsorted : known.Pairwise fun x y => x.2 ≤ y.2)
    (hknown : ∀ b d, (b, d) ∈ known → g.IsGoal b ∧ g.IsDistance g.costOf [v] b d)
    (hnear : ∀ b d, g.IsGoal b → g.IsDistance g.costOf [v] b d → b ∉ known.map Prod.fst →
      ∀ x ∈ known, x.2 ≤ d) :
    ∃ rest, g.IsRanking v (known ++ rest) := by
  obtain ⟨rest, hrest, hothers, hordered⟩ := exists_sorted_listing (n := g.nodeCount)
    (P := fun b d => b ∉ known.map Prod.fst ∧ g.IsGoal b ∧ g.IsDistance g.costOf [v] b d)
    (fun b d h => h.2.1.lt_nodeCount) fun b d e hd he => hd.2.2.unique he.2.2
  refine ⟨rest, fun b d => ?_, ?_, ?_⟩
  · rw [List.mem_append, hrest]
    constructor
    · rintro (h | h)
      · exact hknown b d h
      · exact h.2
    · rintro ⟨hgoal, hdist⟩
      by_cases hb : b ∈ known.map Prod.fst
      · left
        obtain ⟨⟨b', e⟩, he, rfl⟩ := List.mem_map.mp hb
        rwa [hdist.unique (hknown b' e he).2]
      · exact Or.inr ⟨hb, hgoal, hdist⟩
  · rw [List.map_append, List.nodup_append]
    refine ⟨hnodup, hothers, fun b hb c hc => ?_⟩
    obtain ⟨⟨c', e⟩, he, rfl⟩ := List.mem_map.mp hc
    rintro rfl
    exact ((hrest _ e).mp he).1 hb
  · rw [List.pairwise_append]
    refine ⟨hsorted, hordered, fun x hx y hy => ?_⟩
    obtain ⟨hnew, hgoal, hdist⟩ := (hrest y.1 y.2).mp hy
    exact hnear y.1 y.2 hgoal hdist hnew x hx

/-- If many nodes of a sorted list have numbers up to `d`, so has the entry at every place
below their count. -/
theorem exists_le_of_many_le {near : List (Nat × ℚ)} (hsorted : near.Pairwise fun x y => x.2 ≤ y.2)
    {bs : List Nat} (hbs : bs.Nodup) (hle : ∀ b ∈ bs, ∃ e, (b, e) ∈ near ∧ e ≤ d) {l : Nat}
    (hl : l < bs.length) : ∃ x, near[l]? = some x ∧ x.2 ≤ d := by
  by_contra hnone
  push Not at hnone
  -- else all of them stand before place `l`
  have hlate : ∀ x ∈ near.drop l, d < x.2 := by
    cases hdrop : near.drop l with
    | nil => exact fun x hx => absurd hx List.not_mem_nil
    | cons y rest =>
      have hy : near[l]? = some y := by rw [← List.head?_drop, hdrop, List.head?_cons]
      have hrest := hsorted.sublist (List.drop_sublist l near)
      rw [hdrop, List.pairwise_cons] at hrest
      intro x hx
      rcases List.mem_cons.mp hx with rfl | hx
      · exact hnone x hy
      · exact (hnone y hy).trans_le (hrest.1 x hx)
  have hsub : bs ⊆ (near.take l).map Prod.fst := by
    intro b hb
    obtain ⟨e, hmem, he⟩ := hle b hb
    rw [← List.take_append_drop l near, List.mem_append] at hmem
    rcases hmem with hmem | hmem
    · exact List.mem_map.mpr ⟨_, hmem, rfl⟩
    · exact absurd (hlate _ hmem) (not_lt.mpr he)
  have hlen := (List.subperm_of_subset hbs hsub).length_le
  rw [List.length_map, List.length_take] at hlen
  omega

end Network

end SteinerSearch
