import SteinerSearch.Proofs.Network.Paths

/-!
# Components

The marked nodes fall into components.  Within one of them every node can be reached from
every other: the two arcs of an edge are opposite to each other, so a path between marked
nodes can be taken the other way.

## Main definitions

* `Network.IsReachable g u v` — some marked path leads from `u` to `v`.

## Main results

* `Network.IsMarkedPath.reversed` — a path can be taken the other way.
* `Network.IsReachable.symm`, `Network.IsReachable.trans` — reachability between marked
  nodes is an equivalence.
-/

namespace SteinerSearch

/-- Some path enters marked nodes only and leads from `u` to `v`. -/
def Network.IsReachable {α : Type} (g : Network α) (u v : Nat) : Prop :=
  ∃ as, g.IsMarkedPath u as v

namespace Network

variable {α : Type} [Weight α] {g : Network α} {u v w : Nat} {as bs : List Nat}

omit [Weight α] in
theorem IsMarkedPath.append (has : g.IsMarkedPath u as v) (hbs : g.IsMarkedPath v bs w) :
    g.IsMarkedPath u (as ++ bs) w := by
  refine ⟨isPath_append.mpr ⟨v, has.path, hbs.path⟩, fun a ha => ?_⟩
  rcases List.mem_append.mp ha with ha | ha
  · exact has.marked a ha
  · exact hbs.marked a ha

/-- A path from a marked node can be taken the other way, over the opposite arcs. -/
theorem IsMarkedPath.reversed (hg : g.WellFormed) (h : g.IsMarkedPath u as v)
    (hu : g.isMarked u = true) : g.IsMarkedPath v (as.reverse.map Arc.rev) u := by
  induction as generalizing u with
  | nil =>
    obtain rfl := isMarkedPath_nil.mp h
    exact isMarkedPath_nil.mpr rfl
  | cons a as ih =>
    obtain ⟨⟨ha, rfl⟩, hmark, has⟩ := isMarkedPath_cons.mp h
    rw [List.reverse_cons, List.map_append]
    apply isMarkedPath_concat.mpr
    rw [hg.tail_rev ha, hg.head_rev a ha]
    exact ⟨ih has hmark, hg.rev_lt ha, rfl, hu⟩

omit [Weight α] in
theorem isReachable_refl (g : Network α) (u : Nat) : g.IsReachable u u :=
  ⟨[], isMarkedPath_nil.mpr rfl⟩

omit [Weight α] in
theorem IsReachable.trans (huv : g.IsReachable u v) (hvw : g.IsReachable v w) :
    g.IsReachable u w := by
  obtain ⟨as, has⟩ := huv
  obtain ⟨bs, hbs⟩ := hvw
  exact ⟨as ++ bs, has.append hbs⟩

theorem IsReachable.symm (hg : g.WellFormed) (h : g.IsReachable u v) (hu : g.isMarked u = true) :
    g.IsReachable v u := by
  obtain ⟨as, has⟩ := h
  exact ⟨_, has.reversed hg hu⟩

end Network

end SteinerSearch
