import SteinerSearch.Proofs.Network.Components
import SteinerSearch.Proofs.Tree.Work

/-!
# Rooted trees

A splice connects the last node of a branch first, so in the middle of it the new nodes
hang in the air.  What comes out of it is told by the branch: its nodes join the tree, over the
arcs of their labels.

## Main definitions

* `Tree.Climb g start t v vs` — the arcs of the tree lead from `v` back over `vs` to the
  start.
* `Tree.RootedAt g start t` — `t` is a tree in `g` with root `start`.
* `Growth.Joined vs s s'` — `s'` is `s` with the nodes `vs` in the tree.

## Main results

* `Growth.Sound.joinAll` — nodes that join one after the other keep the invariant.
* `Growth.Sound.splice` — what a splice comes to.
* `Tree.RootedAt.isReachable` — the nodes of a rooted tree are reachable from its root.
-/

namespace SteinerSearch

namespace Tree

variable {g : Network ℚ} {t : Tree} {start v : Nat} {vs : List Nat}

/-- The arcs of the tree lead from `v` back over the nodes `vs` to the start. -/
def Climb (g : Network ℚ) (start : Nat) (t : Tree) : Nat → List Nat → Prop :=
  Chain (fun v => (t.predOf v).map g.tailOf) fun v => v = start

/-- `t` is a tree in `g` with root `start`. -/
structure RootedAt (g : Network ℚ) (start : Nat) (t : Tree) : Prop where
  /-- The start is in the tree, and no arc enters it. -/
  root : t.contains start = true ∧ t.predOf start = none
  /-- Every other node of the tree is marked and entered from the tree. -/
  entered : ∀ v, t.contains v = true → v ≠ start → g.isMarked v = true ∧
    ∃ a, t.predOf v = some a ∧ a < g.arcCount ∧ g.headOf a = v ∧ t.contains (g.tailOf a) = true
  /-- From every node of the tree fewer steps than there are nodes lead to the start. -/
  climbs : ∀ v, t.contains v = true → ∃ vs, Climb g start t v vs ∧ vs.length < g.nodeCount
  /-- No arc enters a node outside the tree. -/
  outside : ∀ v, t.contains v = false → t.predOf v = none

/-- Every node on the way to the start is in the tree. -/
theorem Climb.contains (h : Climb g start t v vs) (hv : t.contains v = true)
    (hentered : ∀ u, t.contains u = true → u ≠ start →
      ∃ a, t.predOf u = some a ∧ t.contains (g.tailOf a) = true) :
    ∀ u ∈ vs, t.contains u = true := by
  induction vs generalizing v with
  | nil => exact fun u hu => absurd hu List.not_mem_nil
  | cons x vs ih =>
    cases h with
    | cons hx hnext hrest =>
      obtain ⟨a, hpred, htail⟩ := hentered x hv hx
      rw [hpred] at hnext
      obtain rfl := Option.some.inj hnext
      intro u hu
      rcases List.mem_cons.mp hu with rfl | hu
      · exact hv
      · exact ih hrest htail u hu

theorem RootedAt.contains_climb (h : t.RootedAt g start) (hclimb : Climb g start t v vs)
    (hv : t.contains v = true) : ∀ u ∈ vs, t.contains u = true := by
  refine hclimb.contains hv fun u hu hne => ?_
  obtain ⟨-, a, hpred, -, -, htail⟩ := h.entered u hu hne
  exact ⟨a, hpred, htail⟩

/-- The arcs of the tree make a path from its root to each of its nodes. -/
theorem RootedAt.isReachable (h : t.RootedAt g start) (hv : t.contains v = true) :
    g.IsReachable start v := by
  obtain ⟨vs, hclimb, -⟩ := h.climbs v hv
  induction vs generalizing v with
  | nil =>
    cases hclimb with
    | stop hstart => exact ⟨[], Network.isMarkedPath_nil.mpr hstart.symm⟩
  | cons x vs ih =>
    cases hclimb with
    | cons hx hnext hrest =>
      obtain ⟨hmark, a, hpred, ha, hhead, htail⟩ := h.entered x hv hx
      rw [hpred] at hnext
      obtain rfl := Option.some.inj hnext
      obtain ⟨as, has⟩ := ih htail hrest
      exact ⟨as ++ [a], Network.isMarkedPath_concat.mpr ⟨has, ha, hhead, hmark⟩⟩

/-! ### The tree of a start alone -/

theorem contains_start {n : Nat} (hstart : start < n) :
    ((empty n).connect start none).contains v = true ↔ v = start := by
  rw [contains_connect (sized_empty n) hstart]
  simp

theorem predOf_start {n : Nat} (hstart : start < n) (v : Nat) :
    ((empty n).connect start none).predOf v = none := by
  by_cases hv : v = start
  · rw [hv, predOf_connect_self (sized_empty n) hstart]
  · rw [predOf_connect_of_ne hv, predOf_empty]

theorem treeArcs_start {n : Nat} (hstart : start < n) :
    ((empty n).connect start none).treeArcs = [] :=
  List.filterMap_eq_nil_iff.mpr fun v _ => predOf_start hstart v

theorem rootedAt_start (hstart : start < g.nodeCount) :
    ((empty g.nodeCount).connect start none).RootedAt g start := by
  refine ⟨⟨(contains_start hstart).mpr rfl, predOf_start hstart start⟩, fun v hv hne => ?_,
    fun v hv => ?_, fun v _ => predOf_start hstart v⟩
  · exact absurd ((contains_start hstart).mp hv) hne
  · exact ⟨[], .stop ((contains_start hstart).mp hv), by rw [List.length_nil]; omega⟩

end Tree

namespace Growth

variable {c : Growth ℚ} {s s' : State ℚ} {v : Nat} {vs : List Nat}

/-- `s'` is `s` with the nodes `vs` in the tree, waiting at distance zero. -/
structure Joined (vs : List Nat) (s s' : State ℚ) : Prop where
  contains : ∀ u, s'.tree.contains u = true ↔ u ∈ vs ∨ s.tree.contains u = true
  /-- The new nodes are entered over the arcs of their labels. -/
  entered : ∀ u ∈ vs, s'.tree.predOf u = s.space.predOf u
  kept : ∀ u, u ∉ vs → s'.tree.predOf u = s.tree.predOf u
  visited : ∀ u, s'.space.isVisited u = s.space.isVisited u
  dist_ne : ∀ u, u ∉ vs → s'.space.distOf u = s.space.distOf u
  dist_le : ∀ u, s'.space.distOf u ≤ s.space.distOf u
  waits : ∀ u, s'.space.queue.Waits u ↔ s.space.queue.Waits u ∨ u ∈ vs

/-- Nodes that join one after the other keep the invariant, and cause no new work. -/
theorem Sound.joinAll (h : Sound c s) (hnodup : vs.Nodup)
    (hvs : ∀ u ∈ vs, s.space.isVisited u = true ∧ s.tree.contains u = false) :
    Sound c (joinAll c.network vs s) ∧ Joined vs s (joinAll c.network vs s) ∧
      work c.network.nodeCount (joinAll c.network vs s) ≤ work c.network.nodeCount s := by
  induction vs generalizing s with
  | nil =>
    refine ⟨h, ⟨fun u => ?_, fun u hu => ?_, fun _ _ => rfl, fun _ => rfl, fun _ _ => rfl,
      fun _ => le_rfl, fun u => ?_⟩, le_rfl⟩
    · simp
    · exact absurd hu List.not_mem_nil
    · simp
  | cons v vs ih =>
    obtain ⟨hv, hnodup⟩ := List.nodup_cons.mp hnodup
    obtain ⟨hvisited, hopen⟩ := hvs v List.mem_cons_self
    have hr := h.reopened_join hvisited
    have hjoin := h.join hvisited hopen
    have hrest : ∀ u ∈ vs, (Growth.join c.network v s).space.isVisited u = true ∧
        (Growth.join c.network v s).tree.contains u = false := by
      intro u hu
      obtain ⟨huvis, huopen⟩ := hvs u (List.mem_cons_of_mem v hu)
      refine ⟨huvis, ?_⟩
      rw [contains_join_of_ne, huopen]
      rintro rfl
      exact hv hu
    obtain ⟨hsound, hj, hwork⟩ := ih hjoin hnodup hrest
    have hcontains := h.contains_join hvisited
    refine ⟨hsound, ⟨fun u => ?_, fun u hu => ?_, fun u hu => ?_, hj.visited, fun u hu => ?_,
      fun u => (hj.dist_le u).trans (h.dist_join_le hvisited u), fun u => ?_⟩,
      hwork.trans (h.work_join_le hvisited hopen)⟩
    · rw [joinAll_cons, hj.contains, hcontains, List.mem_cons]
      tauto
    · rw [joinAll_cons]
      by_cases huv : u = v
      · -- the node is not on the rest of the list, which leaves its arc alone
        rw [huv, hj.kept v hv]
        exact Tree.predOf_connect_self h.treeSized (h.node v hvisited)
      · rw [hj.entered u ((List.mem_cons.mp hu).resolve_left huv)]
        rfl
    · rw [List.mem_cons, not_or] at hu
      rw [joinAll_cons, hj.kept u hu.2]
      exact Tree.predOf_connect_of_ne hu.1
    · rw [List.mem_cons, not_or] at hu
      rw [joinAll_cons, hj.dist_ne u hu.2, hr.dist_ne u hu.1]
    · rw [joinAll_cons, hj.waits, hr.queued.waits, List.mem_cons, or_assoc]

/-- What a splice comes to: a branch joins the tree. -/
theorem Sound.splice (h : Sound c s) (hv : s.space.isVisited v = true) :
    ∃ vs, Branch c.network s v vs ∧
      Sound c (splice c.network c.network.nodeCount v s) ∧
      Joined vs s (splice c.network c.network.nodeCount v s) ∧
      work c.network.nodeCount (splice c.network c.network.nodeCount v s) ≤
        work c.network.nodeCount s := by
  obtain ⟨vs, hbranch⟩ := h.branch v hv
  have hvisited := h.isVisited_of_branch hbranch hv
  have hlen : vs.length ≤ c.network.nodeCount :=
    hbranch.length_le fun u hu => h.node u (hvisited u hu)
  rw [splice_eq hbranch hlen]
  exact ⟨vs, hbranch, h.joinAll hbranch.nodup fun u hu =>
    ⟨hvisited u hu, Bool.eq_false_iff.mpr (hbranch.not_stop u hu)⟩⟩

end Growth

end SteinerSearch
