import SteinerSearch.Proofs.Lockstep
import SteinerSearch.Proofs.Network.Construction
import SteinerSearch.Proofs.Reuse.Workspaces
import SteinerSearch.Traversal

/-!
# Traversals in used workspaces

Of two traversals in lockstep each scan, each extraction and each answer is the same.  At
every moment of a traversal the workspace is tracked, so in whatever way it ends a reset
restores all that it wrote.

## Main definitions

* `Traversal.Fits t sources` — what a traversal asks for.
* `Traversal.Moment t sources w u` — the workspace is `u` at a moment of the traversal.
* `Traversal.Together far n w₀ s s'` — two states that differ where no search looks.

## Main results

* `Traversal.run_together`, `Traversal.toRoot_together` — two traversals in lockstep answer
  the same.
* `Traversal.Moment.tracked` — at every moment the workspace is tracked.
-/

namespace SteinerSearch

namespace Traversal

variable {α : Type} [Weight α]

/-- All arcs of the network have costs, and the sources are nodes of it. -/
structure Fits (t : Traversal α) (sources : List Nat) : Prop where
  built : t.network.Built
  cost : ∀ a, a < t.network.arcCount → ∃ c, t.costs a = some c
  source : ∀ v ∈ sources, v < t.network.nodeCount

/-- The workspace is `u` at a moment of the traversal from `sources` that starts in `w`. -/
inductive Moment (t : Traversal α) (sources : List Nat) (w : Workspace α) : Workspace α → Prop
  /-- Some sources are labeled. -/
  | seeding {done : List Nat} {u : Workspace α} (hdone : done <+: sources)
      (h : done.foldlM seed w = .ok u) : Moment t sources w u
  /-- The next node is to be extracted. -/
  | between {u : Workspace α} {n : Nat} {s : State α} (hseed : sources.foldlM seed w = .ok u)
      (hs : Progress.Reached t.settleNext ⟨u, 0, n⟩ s) : Moment t sources w s.space
  /-- A node was extracted, and some of its arcs are scanned. -/
  | scanning {u v : Workspace α} {n n' k : Nat} {s s' : State α} {done : List Nat}
      (hseed : sources.foldlM seed w = .ok u) (hs : Progress.Reached t.settleNext ⟨u, 0, n⟩ s)
      (hpop : s.space.popMin? = some (k, v)) (hdone : done <+: t.network.outArcs k)
      (hscan : done.foldlM (t.scan (v.distOf k)) ⟨v, s.scanned, n'⟩ = .ok s') :
      Moment t sources w s'.space

/-- The workspaces are in lockstep, and what was counted is the same. -/
structure Together (far : α → Prop) (n : Nat) (w₀ : Workspace α) (s s' : State α) : Prop where
  space : Workspace.Lockstep far n w₀ s.space s'.space
  scanned : s'.scanned = s.scanned
  openTerminals : s'.openTerminals = s.openTerminals

variable {far : α → Prop} {n : Nat} {w₀ w w' : Workspace α} {t : Traversal α}
  {sources : List Nat}

/-! ### One label -/

theorem seed_together (h : Workspace.Lockstep far n w₀ w w') {v : Nat} (hv : v < n) :
    BothOk (Workspace.Lockstep far n w₀) (seed w v) (seed w' v) := by
  unfold seed
  rw [h.alike.capacity]
  exact BothOk.checkNode (h.tracked.lt_capacity hv) (.ok (h.label hv 0 none))

theorem improve_together (h : Workspace.Lockstep far n w₀ w w') {m : Nat} (hm : m < n) (d : α)
    (a : Nat) : Workspace.Lockstep far n w₀ (improve m d a w) (improve m d a w') := by
  unfold improve
  rw [h.alike.distOf]
  split
  · exact h.label hm d (some a)
  · exact h

/-! ### Scans -/

section Steps

variable (hg : t.network.Linked) (hcost : ∀ a, a < t.network.arcCount → ∃ c, t.costs a = some c)
  {s s' : State α}

include hg hcost

theorem scan_together (h : Together far t.network.nodeCount w₀ s s') (base : α) {a : Nat}
    (ha : a < t.network.arcCount) :
    Halt.Together (Together far t.network.nodeCount w₀) (t.scan base s a) (t.scan base s' a) := by
  unfold scan
  dsimp only
  rw [h.space.alike.isSettled, h.scanned]
  split
  · exact .through h
  · split
    · exact .overBudget ⟨h.space, rfl, h.openTerminals⟩
    · obtain ⟨c, hc⟩ := hcost a ha
      rw [hc]
      dsimp only
      split
      · exact .through ⟨h.space, rfl, h.openTerminals⟩
      · exact .through ⟨improve_together h.space (hg.head_lt a ha) _ a, rfl, h.openTerminals⟩

theorem scans_together (base : α) {k : Nat} {done : List Nat}
    (hdone : done <+: t.network.outArcs k) (h : Together far t.network.nodeCount w₀ s s') :
    Halt.Together (Together far t.network.nodeCount w₀) (done.foldlM (t.scan base) s)
      (done.foldlM (t.scan base) s') := by
  refine Halt.foldlM_together done (fun a ha s s' hs => ?_) s s' h
  exact scan_together hg hcost hs base (hg.mem_outArcs.mp (hdone.subset ha)).1

theorem expand_together (k : Nat) (h : Together far t.network.nodeCount w₀ s s') :
    Progress.Together (Together far t.network.nodeCount w₀) (t.expand k s) (t.expand k s') := by
  unfold expand
  rw [h.space.alike.distOf]
  exact Progress.ofScan_together (scans_together hg hcost _ (List.prefix_refl _) h)

theorem settleNext_together (h : Together far t.network.nodeCount w₀ s s') :
    Progress.Together (Together far t.network.nodeCount w₀) (t.settleNext s)
      (t.settleNext s') := by
  unfold settleNext
  rcases h.space.popMin? with ⟨hpop, hpop'⟩ | ⟨k, u, u', hpop, hpop', hu, hvisited, -⟩
  · rw [hpop, hpop']
    exact .done h
  · rw [hpop, hpop', h.openTerminals]
    have hk : ¬ t.network.nodeCount ≤ k := Nat.not_le_of_lt (hu.tracked.within k hvisited)
    dsimp only
    rw [if_neg hk, if_neg hk]
    split
    · exact .done ⟨hu, h.scanned, rfl⟩
    · split
      · split
        · exact .done ⟨hu, h.scanned, rfl⟩
        · exact expand_together hg hcost k ⟨hu, h.scanned, rfl⟩
      · exact expand_together hg hcost k ⟨hu, h.scanned, rfl⟩

end Steps

/-! ### Runs -/

theorem seeds_together (hsource : ∀ v ∈ sources, v < n) (h : Workspace.Lockstep far n w₀ w w') :
    BothOk (Workspace.Lockstep far n w₀) (sources.foldlM seed w) (sources.foldlM seed w') :=
  BothOk.foldlM (f := seed) (g := seed) sources
    (fun v hv _ _ hw => seed_together hw (hsource v hv)) w w' h

/-- Two traversals in lockstep answer the same and leave their workspaces in lockstep. -/
theorem run_together (ht : t.Fits sources)
    (h : Workspace.Lockstep far t.network.nodeCount w₀ w w') :
    BothOk (SameAnswer (Workspace.Lockstep far t.network.nodeCount w₀)) (t.run sources w)
      (t.run sources w') := by
  refine (seeds_together ht.source h).bind fun u u' hu => ?_
  rw [hu.alike.capacity]
  refine (Progress.run_together
    (fun s s' => settleNext_together ht.built.wellFormed.toLinked ht.cost) _ _ _
    (⟨hu, rfl, rfl⟩ : Together far t.network.nodeCount w₀ ⟨u, 0, _⟩ ⟨u', 0, _⟩)).bind ?_
  rintro ⟨o, s⟩ ⟨o', s'⟩ ⟨ho, hs⟩
  exact .ok ⟨ho, hs.space⟩

/-- Without a root there is nothing to traverse. -/
theorem toRoot_together {g : Network α} {costs : Array α} {limits : Limits α}
    (ht : ∀ root, g.root = some root →
      Fits ⟨g, .reversed costs, .pathLength, limits⟩ [root])
    (h : Workspace.Lockstep far g.nodeCount w₀ w w') :
    BothOk (SameAnswer (Workspace.Lockstep far g.nodeCount w₀)) (toRoot g costs limits w)
      (toRoot g costs limits w') := by
  unfold toRoot
  cases hroot : g.root with
  | none => exact .ok ⟨rfl, h⟩
  | some root => exact run_together (ht root hroot) h

/-- At every moment of a traversal the workspace is tracked. -/
theorem Moment.tracked (ht : t.Fits sources)
    (h : Workspace.Tracked far t.network.nodeCount w₀ w) {u : Workspace α}
    (hu : t.Moment sources w u) : Workspace.Tracked far t.network.nodeCount w₀ u := by
  have hlinked := ht.built.wellFormed.toLinked
  have hreached : ∀ {u n s}, sources.foldlM seed w = .ok u →
      Progress.Reached t.settleNext ⟨u, 0, n⟩ s →
      Together far t.network.nodeCount w₀ s s := by
    intro u n s hseed hs
    have hu := (seeds_together ht.source (.refl h)).of_eq_ok hseed
    exact hs.together (fun s s' => settleNext_together hlinked ht.cost) ⟨hu, rfl, rfl⟩
  cases hu with
  | seeding hdone hseed =>
    have hsource : ∀ v ∈ _, v < t.network.nodeCount := fun v hv =>
      ht.source v (hdone.subset hv)
    exact ((seeds_together hsource (.refl h)).of_eq_ok hseed).tracked
  | between hseed hs => exact (hreached hseed hs).space.tracked
  | scanning hseed hs hpop hdone hscan =>
    have hv := ((hreached hseed hs).space.tracked.popMin? hpop).1
    refine (Halt.Together.of_eq_ok (scans_together hlinked ht.cost _ hdone ?_)
      hscan).space.tracked
    exact ⟨.refl hv, rfl, rfl⟩

end Traversal

end SteinerSearch
