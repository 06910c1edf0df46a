import Mathlib.Data.List.Induction
import SteinerSearch.Proofs.Network.Components

/-!
# Paths towards a root

A path that leads to a root may start anywhere, and its nodes other than the root are marked.
Taken the other way, over the opposite arcs, it is a path from the root that enters marked nodes
only.  If every arc is priced as its opposite, nothing gets longer or shorter by this, so the
distances to the root can be measured from there.

## Main definitions

* `Network.IsInwardPath g r v as` — the arcs `as` lead from `v` to `r`, and from marked nodes.
* `Network.IsDistanceTo g c r v d` — `d` is the length of a shortest path from `v` to `r`.

## Main results

* `Network.IsMarkedPath.isInwardPath`, `Network.IsInwardPath.exists_isMarkedPath` — paths are taken
  the other way.
* `Network.isDistanceTo_iff` — distances to the root are distances from it.
-/

namespace SteinerSearch.Network

variable {α : Type} {g : Network α} {c : Nat → ℚ} {r v a : Nat} {as : List Nat} {d : ℚ}

/-- A path to `r` whose other nodes are marked. -/
structure IsInwardPath (g : Network α) (r v : Nat) (as : List Nat) : Prop where
  /-- It is a path. -/
  path : g.IsPath v as r
  /-- Its arcs leave marked nodes, or the root. -/
  marked : ∀ a ∈ as, g.tailOf a = r ∨ g.isMarked (g.tailOf a) = true

theorem isInwardPath_nil : g.IsInwardPath r v [] ↔ v = r :=
  ⟨fun h => h.path, fun h => ⟨h, by simp⟩⟩

theorem isInwardPath_cons :
    g.IsInwardPath r v (a :: as) ↔ (a < g.arcCount ∧ g.tailOf a = v) ∧
      (v = r ∨ g.isMarked v = true) ∧ g.IsInwardPath r (g.headOf a) as := by
  constructor
  · rintro ⟨⟨ha, rfl, hpath⟩, hmark⟩
    exact ⟨⟨ha, rfl⟩, hmark a List.mem_cons_self, hpath,
      fun b hb => hmark b (List.mem_cons_of_mem a hb)⟩
  · rintro ⟨⟨ha, rfl⟩, hmark, hpath, hrest⟩
    exact ⟨⟨ha, rfl, hpath⟩, List.forall_mem_cons.mpr ⟨hmark, hrest⟩⟩

/-- `d` is the length of a shortest path to `r` whose other nodes are marked. -/
structure IsDistanceTo (g : Network α) (c : Nat → ℚ) (r v : Nat) (d : ℚ) : Prop where
  /-- Some path has this length. -/
  attained : ∃ as, g.IsInwardPath r v as ∧ pathLength c as = d
  /-- No path is shorter. -/
  least : ∀ as, g.IsInwardPath r v as → d ≤ pathLength c as

variable [Weight α]

/-- A path from the root is a path to the root when it is taken the other way. -/
theorem IsMarkedPath.isInwardPath (hg : g.WellFormed) (h : g.IsMarkedPath r as v) :
    g.IsInwardPath r v (as.reverse.map Arc.rev) := by
  induction as using List.reverseRecOn generalizing v with
  | nil => exact isInwardPath_nil.mpr (isMarkedPath_nil.mp h).symm
  | append_singleton as a ih =>
    obtain ⟨has, ha, rfl, hmark⟩ := isMarkedPath_concat.mp h
    rw [List.reverse_concat, List.map_cons]
    refine isInwardPath_cons.mpr ⟨⟨hg.rev_lt ha, hg.tail_rev ha⟩, Or.inr hmark, ?_⟩
    rw [hg.head_rev a ha]
    exact ih has

/-- A path to the root can be taken the other way from where it last leaves the root. -/
theorem IsInwardPath.exists_isMarkedPath (hg : g.WellFormed)
    (hc : ∀ a, a < g.arcCount → 0 ≤ c a) (h : g.IsInwardPath r v as) :
    ∃ bs, g.IsMarkedPath r bs v ∧ pathLength (fun a => c (Arc.rev a)) bs ≤ pathLength c as := by
  induction as generalizing v with
  | nil => exact ⟨[], isMarkedPath_nil.mpr (isInwardPath_nil.mp h).symm, le_rfl⟩
  | cons a as ih =>
    obtain ⟨⟨ha, rfl⟩, rfl | hmark, hrest⟩ := isInwardPath_cons.mp h
    · -- the path starts in the root, and nothing of it is needed
      refine ⟨[], isMarkedPath_nil.mpr rfl, pathLength_nonneg fun b hb => ?_⟩
      exact hc b (h.path.lt_arcCount b hb)
    · obtain ⟨bs, hbs, hle⟩ := ih hrest
      refine ⟨bs ++ [Arc.rev a], isMarkedPath_concat.mpr ⟨?_, hg.rev_lt ha, hg.head_rev a ha,
        hmark⟩, ?_⟩
      · rwa [hg.tail_rev ha]
      · rw [pathLength_concat, pathLength_cons, Arc.rev_rev, add_comm]
        exact add_le_add_right hle (c a)

/-- The distances to the root are those from it if every arc is priced as its opposite. -/
theorem isDistanceTo_iff (hg : g.WellFormed) (hc : ∀ a, a < g.arcCount → 0 ≤ c a) :
    g.IsDistanceTo c r v d ↔ g.IsDistance (fun a => c (Arc.rev a)) [r] v d := by
  -- either way a path is answered by one that is no longer
  have hout : ∀ bs, g.IsMarkedPath r bs v → ∃ as, g.IsInwardPath r v as ∧
      pathLength c as = pathLength (fun a => c (Arc.rev a)) bs := fun bs hbs =>
    ⟨_, hbs.isInwardPath hg, pathLength_map_rev c bs⟩
  have hin := fun as (has : g.IsInwardPath r v as) => has.exists_isMarkedPath hg hc
  constructor
  · rintro ⟨⟨as, has, rfl⟩, hleast⟩
    have hle : ∀ bs, g.IsMarkedPath r bs v →
        pathLength c as ≤ pathLength (fun a => c (Arc.rev a)) bs := by
      intro bs hbs
      obtain ⟨as', has', hlen⟩ := hout bs hbs
      exact hlen ▸ hleast as' has'
    obtain ⟨bs, hbs, hshort⟩ := hin as has
    refine ⟨⟨r, List.mem_singleton_self r, bs, hbs, le_antisymm hshort (hle bs hbs)⟩,
      fun s hs => ?_⟩
    rw [List.mem_singleton.mp hs]
    exact hle
  · rintro ⟨⟨s, hs, bs, hbs, rfl⟩, hleast⟩
    obtain rfl := List.mem_singleton.mp hs
    obtain ⟨as, has, hlen⟩ := hout bs hbs
    refine ⟨⟨as, has, hlen⟩, fun as' has' => ?_⟩
    obtain ⟨bs', hbs', hshort⟩ := hin as' has'
    exact (hleast s hs bs' hbs').trans hshort

end SteinerSearch.Network
