import Mathlib.Logic.Relation
import Mathlib.Order.WellFoundedSet
import SteinerSearch.Proofs.Tree.Frontier

/-!
# Forests

Where several starts are in a tree, it falls into several trees, each with a root that no arc
enters.  All that is asked of such a forest is that its arcs enter nodes of the forest from
others and go round in no circle.  As there are finitely many nodes, every node then has a way
up to a root, and every claim about a node may be made for its children first.

## Main definitions

* `Tree.Entering g t` — arcs enter the nodes of the tree, from nodes of the tree.
* `Tree.Parent g t v u`, `Tree.Under g t w v` — `u` is the parent of `v`; `w` is in the subtree
  of `v`.
* `Tree.IsForest g t` — `t` is a forest in `g`.
* `Tree.childCount g t v` — the number of children of a node.

## Main results

* `Tree.IsForest.wellFounded_child`, `Tree.IsForest.wellFounded_parent` — induction on subtrees,
  and on the ways up.
* `Tree.RootedAt.isForest`, `Tree.IsForest.rootedAt` — a rooted tree is a forest with one root.
* `Tree.IsForest.joined`, `Tree.RootedAt.joined` — with a whole branch a forest stays one, and a
  rooted tree stays rooted.
-/

namespace SteinerSearch

open Relation

/-- A relation among finitely many numbers that goes round in no circle is well-founded. -/
theorem wellFounded_of_acyclic {r : Nat → Nat → Prop} {n : Nat} (hlt : ∀ u v, r u v → u < n)
    (hacyclic : ∀ v, ¬ TransGen r v v) : WellFounded r := by
  have hstrict : IsStrictOrder Nat (TransGen r) := { irrefl := hacyclic }
  have hbelow : (Set.Iio n).WellFoundedOn (TransGen r) := (Set.finite_Iio n).wellFoundedOn
  -- whatever comes before a number is one of the first `n`
  refine ⟨fun v => (Set.WellFoundedOn.acc_iff_wellFoundedOn.out 0 2).mpr ?_⟩
  refine hbelow.mono (fun _ _ => TransGen.single) fun u huv => ?_
  obtain ⟨x, hux, -⟩ := TransGen.head'_iff.mp huv
  exact hlt u x hux

namespace Tree

section Forest

variable {α : Type} {g : Network α} {t t' : Tree} {u v w a : Nat}

/-- Arcs enter the nodes of the tree, and come from nodes of the tree. -/
def Entering (g : Network α) (t : Tree) : Prop :=
  ∀ v a, t.predOf v = some a → a < g.arcCount ∧ g.headOf a = v ∧ t.contains v = true ∧
    t.contains (g.tailOf a) = true

/-- `u` is the parent of `v`: the arc that enters `v` comes from `u`. -/
def Parent (g : Network α) (t : Tree) (v u : Nat) : Prop := (t.predOf v).map g.tailOf = some u

/-- `w` is in the subtree of `v`, which may be `w` itself. -/
def Under (g : Network α) (t : Tree) (w v : Nat) : Prop := ReflTransGen (t.Parent g) w v

/-- `t` is a forest in `g`. -/
structure IsForest (g : Network α) (t : Tree) : Prop where
  /-- The tables are for the nodes of the network. -/
  sized : t.Sized g.nodeCount
  /-- Every arc enters its node from a node of the forest, and no arc a node outside. -/
  entering : t.Entering g
  /-- No node is its own ancestor. -/
  acyclic : ∀ v, ¬ TransGen (t.Parent g) v v

theorem parent_iff : t.Parent g v u ↔ ∃ a, t.predOf v = some a ∧ g.tailOf a = u :=
  Option.map_eq_some_iff

theorem Entering.predOf_of_not_contains (h : t.Entering g) (hv : t.contains v = false) :
    t.predOf v = none := by
  cases hpred : t.predOf v with
  | none => rfl
  | some a => exact absurd (hv.symm.trans (h v a hpred).2.2.1) Bool.false_ne_true

theorem Entering.contains_parent (h : t.Entering g) (hvu : t.Parent g v u) :
    t.contains v = true ∧ t.contains u = true := by
  obtain ⟨a, hpred, rfl⟩ := parent_iff.mp hvu
  exact (h v a hpred).2.2

theorem Sized.lt_of_contains {n : Nat} (h : t.Sized n) (hv : t.contains v = true) : v < n :=
  h.connected ▸ lt_size_of_contains hv

/-- A claim about the nodes of a forest may be made for the children of a node first. -/
theorem IsForest.wellFounded_child (h : t.IsForest g) : WellFounded (t.Parent g) :=
  wellFounded_of_acyclic
    (fun _ _ huv => h.sized.lt_of_contains (h.entering.contains_parent huv).1) h.acyclic

/-- Or for its parent. -/
theorem IsForest.wellFounded_parent (h : t.IsForest g) :
    WellFounded fun u v => t.Parent g v u :=
  wellFounded_of_acyclic
    (fun _ _ huv => h.sized.lt_of_contains (h.entering.contains_parent huv).2)
    fun v hvv => h.acyclic v (transGen_swap.mp hvv)

/-- From every node a way leads up to a root. -/
theorem IsForest.exists_chain (h : t.IsForest g) (v : Nat) :
    ∃ vs, Chain (fun v => (t.predOf v).map g.tailOf) (fun v => t.predOf v = none) v vs := by
  induction v using h.wellFounded_parent.induction with
  | _ v ih =>
    cases hpred : t.predOf v with
    | none => exact ⟨[], .stop hpred⟩
    | some a =>
      have hparent : (t.predOf v).map g.tailOf = some (g.tailOf a) := by rw [hpred]; rfl
      obtain ⟨vs, hvs⟩ := ih _ hparent
      exact ⟨v :: vs, .cons (by rw [hpred]; exact Option.some_ne_none a) hparent hvs⟩

/-- Ways up that lead to a root make a forest. -/
theorem isForest_of_chains (hsized : t.Sized g.nodeCount) (hentering : t.Entering g)
    (hchain : ∀ v, t.contains v = true →
      ∃ vs, Chain (fun v => (t.predOf v).map g.tailOf) (fun v => t.predOf v = none) v vs) :
    t.IsForest g where
  sized := hsized
  entering := hentering
  acyclic v hvv := by
    obtain ⟨u, hvu, -⟩ := TransGen.head'_iff.mp hvv
    obtain ⟨vs, hvs⟩ := hchain v (hentering.contains_parent hvu).1
    exact hvs.acyclic (fun x hx => by rw [hx]; rfl) hvv

/-! ### Arcs and children -/

theorem mem_treeArcs (h : t.Entering g) : a ∈ t.treeArcs ↔ t.predOf (g.headOf a) = some a := by
  rw [treeArcs, List.mem_filterMap]
  constructor
  · rintro ⟨v, -, hpred⟩
    obtain ⟨-, rfl, -⟩ := h v a hpred
    exact hpred
  · intro hpred
    exact ⟨g.headOf a, mem_nodes.mpr (h _ a hpred).2.2.1, hpred⟩

theorem nodup_treeArcs (h : t.Entering g) : t.treeArcs.Nodup := by
  refine List.Nodup.filterMap (fun u v a hu hv => ?_) (List.nodup_range.filter _)
  obtain ⟨-, rfl, -⟩ := h u a hu
  obtain ⟨-, rfl, -⟩ := h v a hv
  rfl

/-- The number of children of `v`. -/
def childCount (g : Network α) (t : Tree) (v : Nat) : Nat :=
  t.treeArcs.countP fun a => g.tailOf a == v

theorem childCount_eq_zero_iff (h : t.Entering g) :
    t.childCount g v = 0 ↔ ∀ u b, t.predOf u = some b → g.tailOf b ≠ v := by
  rw [childCount, List.countP_eq_zero]
  constructor
  · intro hnone u b hb
    obtain ⟨-, rfl, -⟩ := h u b hb
    simpa using hnone b ((mem_treeArcs h).mpr hb)
  · intro hnone b hb
    simpa using hnone _ b ((mem_treeArcs h).mp hb)

end Forest

/-! ### Rooted trees -/

section Rooted

variable {g : Network ℚ} {t : Tree} {start v a : Nat}

/-- No arc enters the root. -/
theorem RootedAt.ne_start_of_predOf (h : t.RootedAt g start) (hpred : t.predOf v = some a) :
    v ≠ start := by
  rintro rfl
  rw [h.root.2] at hpred
  cases hpred

theorem RootedAt.entering (h : t.RootedAt g start) : t.Entering g := by
  intro v a hpred
  have hv : t.contains v = true := by
    by_contra hout
    rw [h.outside v (Bool.eq_false_iff.mpr hout)] at hpred
    cases hpred
  obtain ⟨-, b, hb, hlt, hhead, htail⟩ := h.entered v hv (h.ne_start_of_predOf hpred)
  rw [hpred] at hb
  obtain rfl := Option.some.inj hb
  exact ⟨hlt, hhead, hv, htail⟩

/-- The start is the only node without an arc. -/
theorem RootedAt.predOf_eq_none_iff (h : t.RootedAt g start) (hv : t.contains v = true) :
    t.predOf v = none ↔ v = start := by
  constructor
  · intro hnone
    by_contra hne
    obtain ⟨-, a, hpred, -⟩ := h.entered v hv hne
    rw [hnone] at hpred
    cases hpred
  · rintro rfl
    exact h.root.2

/-- A rooted tree is a forest. -/
theorem RootedAt.isForest (h : t.RootedAt g start) (hsized : t.Sized g.nodeCount) :
    t.IsForest g := by
  refine isForest_of_chains hsized h.entering fun v hv => ?_
  obtain ⟨vs, hclimb, -⟩ := h.climbs v hv
  refine ⟨vs, Chain.congr hclimb (fun _ _ => rfl) (fun u hu hnone => ?_) ?_⟩
  · exact hclimb.not_stop u hu ((h.predOf_eq_none_iff (h.contains_climb hclimb hv u hu)).mp hnone)
  · rintro u rfl
    exact h.root.2

/-- A forest is rooted if it has marked nodes and one root only. -/
theorem IsForest.rootedAt (h : t.IsForest g) (hstart : t.contains start = true)
    (hroot : ∀ v, t.contains v = true → (t.predOf v = none ↔ v = start))
    (hmark : ∀ v, t.contains v = true → v ≠ start → g.isMarked v = true) :
    t.RootedAt g start := by
  have hentered : ∀ v, t.contains v = true → v ≠ start → g.isMarked v = true ∧
      ∃ a, t.predOf v = some a ∧ a < g.arcCount ∧ g.headOf a = v ∧
        t.contains (g.tailOf a) = true := by
    intro v hv hne
    obtain ⟨a, hpred⟩ := Option.ne_none_iff_exists'.mp fun hnone => hne ((hroot v hv).mp hnone)
    obtain ⟨ha, hhead, -, htail⟩ := h.entering v a hpred
    exact ⟨hmark v hv hne, a, hpred, ha, hhead, htail⟩
  refine ⟨⟨hstart, (hroot start hstart).mpr rfl⟩, hentered, fun v hv => ?_,
    fun v => h.entering.predOf_of_not_contains⟩
  -- the way up stays in the tree, so that it ends in the only root
  have hclimb : ∀ {v vs}, Chain (fun v => (t.predOf v).map g.tailOf) (fun v => t.predOf v = none)
      v vs → t.contains v = true → Climb g start t v vs ∧ ∀ u ∈ vs, t.contains u = true := by
    intro v vs hvs
    induction hvs with
    | stop hnone =>
      exact fun hv => ⟨.stop ((hroot _ hv).mp hnone), fun u hu => absurd hu List.not_mem_nil⟩
    | cons hsome hnext _ ih =>
      intro hv
      obtain ⟨hrest, hin⟩ := ih (h.entering.contains_parent hnext).2
      refine ⟨.cons (fun hstop => hsome ((hroot _ hv).mpr hstop)) hnext hrest, fun u hu => ?_⟩
      rcases List.mem_cons.mp hu with rfl | hu
      · exact hv
      · exact hin u hu
  obtain ⟨vs, hvs⟩ := h.exists_chain v
  obtain ⟨hclimbs, hin⟩ := hclimb hvs hv
  exact ⟨vs, hclimbs, hclimbs.length_lt (fun u hu => h.sized.lt_of_contains (hin u hu))
    (h.sized.lt_of_contains hstart)⟩

end Rooted

/-! ### Branches that join -/

section Joined

open Growth

variable {c : Growth ℚ} {s s' : State ℚ} {start k u : Nat} {vs : List Nat}

/-- The nodes of a branch are marked, and entered from the tree with the branch. -/
theorem entered_joined (hs : Sound c s) (hbranch : Branch c.network s k vs)
    (hk : s.space.isVisited k = true) (hj : Joined vs s s') (hu : u ∈ vs) :
    c.network.isMarked u = true ∧ ∃ a, s'.tree.predOf u = some a ∧ a < c.network.arcCount ∧
      c.network.headOf a = u ∧ s'.tree.contains (c.network.tailOf a) = true := by
  have hvisited := hs.isVisited_of_branch hbranch hk u hu
  obtain ⟨a, hpred, ha, hhead, hmark, -⟩ :=
    hs.entered u hvisited (Bool.eq_false_iff.mpr (hbranch.not_stop u hu))
  refine ⟨hmark, a, (hj.entered u hu).trans hpred, ha, hhead, ?_⟩
  obtain ⟨x, hnext, hx⟩ := hbranch.next_of_mem hu
  rw [hpred] at hnext
  obtain rfl := Option.some.inj hnext
  exact (hj.contains _).mpr hx.symm

/-- The nodes of the tree keep their arcs. -/
theorem kept_joined (hbranch : Branch c.network s k vs) (hj : Joined vs s s')
    (hu : s.tree.contains u = true) :
    s'.tree.contains u = true ∧ s'.tree.predOf u = s.tree.predOf u :=
  ⟨(hj.contains u).mpr (Or.inr hu), hj.kept u fun hmem => hbranch.not_stop u hmem hu⟩

theorem IsForest.entering_joined (h : s.tree.IsForest c.network) (hs : Sound c s)
    (hbranch : Branch c.network s k vs) (hk : s.space.isVisited k = true) (hj : Joined vs s s') :
    s'.tree.Entering c.network := by
  intro u a hpred
  by_cases hu : u ∈ vs
  · obtain ⟨-, b, hb, hrest⟩ := entered_joined hs hbranch hk hj hu
    obtain rfl := Option.some.inj (hb.symm.trans hpred)
    exact ⟨hrest.1, hrest.2.1, (hj.contains u).mpr (Or.inl hu), hrest.2.2⟩
  · rw [hj.kept u hu] at hpred
    obtain ⟨ha, hhead, hin, htail⟩ := h.entering u a hpred
    exact ⟨ha, hhead, (hj.contains u).mpr (Or.inr hin), (hj.contains _).mpr (Or.inr htail)⟩

/-- From the nodes of a branch the way up goes over the branch into the forest as it was. -/
theorem IsForest.chain_joined (h : s.tree.IsForest c.network)
    (hbranch : Branch c.network s k vs) (hj : Joined vs s s') (hu : s'.tree.contains u = true) :
    ∃ us, Chain (fun v => (s'.tree.predOf v).map c.network.tailOf)
      (fun v => s'.tree.predOf v = none) u us := by
  -- the forest as it was keeps its arcs
  have hold : ∀ x, s.tree.contains x = true →
      ∃ us, Chain (fun v => (s'.tree.predOf v).map c.network.tailOf)
        (fun v => s'.tree.predOf v = none) x us := by
    intro x
    induction x using h.wellFounded_parent.induction with
    | _ x ih =>
      intro hx
      have hkept := (kept_joined hbranch hj hx).2
      cases hpred : s.tree.predOf x with
      | none => exact ⟨[], .stop (hkept.trans hpred)⟩
      | some a =>
        have hparent : s.tree.Parent c.network x (c.network.tailOf a) :=
          parent_iff.mpr ⟨a, hpred, rfl⟩
        obtain ⟨us, hus⟩ := ih _ hparent (h.entering.contains_parent hparent).2
        refine ⟨x :: us, .cons ?_ ?_ hus⟩
        · rw [hkept, hpred]
          exact Option.some_ne_none a
        · rw [hkept, hpred]
          rfl
  -- on the branch the arcs are those of the labels
  have hnew : ∀ {x : Nat} {xs : List Nat}, Branch c.network s x xs → (∀ y ∈ xs, y ∈ vs) →
      ∃ us, Chain (fun v => (s'.tree.predOf v).map c.network.tailOf)
        (fun v => s'.tree.predOf v = none) x us := by
    intro x xs hxs hsub
    induction hxs with
    | stop hstop => exact hold _ hstop
    | @cons y z ys hout hnext _ ih =>
      obtain ⟨us, hus⟩ := ih fun z hz => hsub z (List.mem_cons_of_mem y hz)
      rw [← hj.entered y (hsub y List.mem_cons_self)] at hnext
      refine ⟨y :: us, .cons (fun hnone => ?_) hnext hus⟩
      rw [hnone] at hnext
      cases hnext
  rcases (hj.contains u).mp hu with hmem | hu
  · obtain ⟨us, hus, hsuffix⟩ := hbranch.exists_suffix hmem
    exact hnew hus fun y hy => hsuffix.subset hy
  · exact hold u hu

/-- With a whole branch a forest stays one. -/
theorem IsForest.joined (h : s.tree.IsForest c.network) (hs : Sound c s) (hs' : Sound c s')
    (hbranch : Branch c.network s k vs) (hk : s.space.isVisited k = true) (hj : Joined vs s s') :
    s'.tree.IsForest c.network :=
  isForest_of_chains hs'.treeSized (h.entering_joined hs hbranch hk hj) fun _ hu =>
    h.chain_joined hbranch hj hu

/-- And a rooted tree stays rooted. -/
theorem RootedAt.joined (h : s.tree.RootedAt c.network start) (hs : Sound c s) (hs' : Sound c s')
    (hbranch : Branch c.network s k vs) (hk : s.space.isVisited k = true) (hj : Joined vs s s') :
    s'.tree.RootedAt c.network start := by
  have hforest := (h.isForest hs.treeSized).joined hs hs' hbranch hk hj
  have hold : ∀ u, u ∉ vs → s'.tree.contains u = true → s.tree.contains u = true := fun u hu hin =>
    ((hj.contains u).mp hin).resolve_left hu
  refine hforest.rootedAt (kept_joined hbranch hj h.root.1).1 (fun u hu => ?_) fun u hu hne => ?_
  · by_cases hmem : u ∈ vs
    · obtain ⟨-, a, hpred, -⟩ := entered_joined hs hbranch hk hj hmem
      refine iff_of_false (by rw [hpred]; exact Option.some_ne_none a) ?_
      rintro rfl
      exact hbranch.not_stop u hmem h.root.1
    · rw [hj.kept u hmem]
      exact h.predOf_eq_none_iff (hold u hmem hu)
  · by_cases hmem : u ∈ vs
    · exact (entered_joined hs hbranch hk hj hmem).1
    · exact (h.entered u (hold u hmem hu) hne).1

end Joined

end Tree

end SteinerSearch
