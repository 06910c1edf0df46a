import SteinerSearch.Proofs.Lockstep
import SteinerSearch.Proofs.Network.Construction
import SteinerSearch.Proofs.Reuse.Workspaces
import SteinerSearch.Proofs.Tree.Spanning

/-!
# Trees grown in used workspaces

A growth writes labels, and it takes labels back: the nodes of a branch that joins drop to
distance zero.  These nodes are found over the arcs of their labels, and the tail of such
an arc was touched when the arc was taken.  So two growths in lockstep give the same tree,
and leave their workspaces ready for the next search.

## Main definitions

* `Tree.Over known t` — the nodes of the tree are entered over known arcs.
* `Growth.Together c far known w₀ s s'` — two states that differ where no growth looks.
* `Growth.Grown c far known w₀ x x'` — two results with the same tree.
* `Growth.Moment`, `Growth.StartMoment`, `Growth.ExtendMoment` — the workspace at a moment
  of a growth, of a growth from a node, and of an extension.

## Main results

* `Growth.growFrom_together`, `Growth.extend_together` — growths in lockstep answer the same.
* `Growth.StartMoment.tracked`, `Growth.ExtendMoment.tracked` — at every moment the workspace
  is tracked.
-/

namespace SteinerSearch

namespace Tree

/-- The nodes of the tree are entered over known arcs. -/
def Over (known : Nat → Prop) (t : Tree) : Prop := ∀ v a, t.predOf v = some a → known a

variable {known : Nat → Prop} {t : Tree}

theorem over_empty (n : Nat) : (empty n).Over known := by
  intro v a h
  rw [predOf_empty] at h
  cases h

theorem Over.connect {v : Nat} {p : Option Nat} (h : t.Over known)
    (hp : ∀ a, p = some a → known a) : (t.connect v p).Over known := by
  intro u a hu
  by_cases huv : u = v
  · by_cases hv : v < t.pred.size
    · rw [huv, Tree.predOf, Tree.connect, Array.getD_setIfInBounds_self hv] at hu
      exact hp a hu
    · rw [Tree.predOf, Tree.connect, Array.setIfInBounds_eq_of_size_le (Nat.le_of_not_lt hv)] at hu
      exact h u a hu
  · rw [predOf_connect_of_ne huv] at hu
    exact h u a hu

theorem capacity_connect {v : Nat} {p : Option Nat} : (t.connect v p).capacity = t.capacity :=
  Array.size_setIfInBounds

/-- No arc enters the tree of a start alone. -/
theorem over_start (n v : Nat) : ((empty n).connect v none).Over known :=
  (over_empty n).connect fun a ha => by cases ha

theorem capacity_start (n v : Nat) : ((empty n).connect v none).capacity = n := by
  rw [capacity_connect]
  exact Array.size_replicate

theorem lt_capacity_of_mem_nodes {v : Nat} (h : v ∈ t.nodes) : v < t.capacity :=
  List.mem_range.mp (List.mem_of_mem_filter h)

end Tree

namespace Growth

variable {α : Type} [Weight α]

/-- The workspaces are in lockstep, and everything else is the same. -/
structure Together (c : Growth α) (far : α → Prop) (known : Nat → Prop) (w₀ : Workspace α)
    (s s' : State α) : Prop where
  space : Workspace.Lockstep far c.network.nodeCount w₀ s.space s'.space
  tree : s'.tree = s.tree
  openRequired : s'.openRequired = s.openRequired
  added : s'.added = s.added
  bound : s'.bound = s.bound
  /-- Labels are over arcs of the network, out of touched nodes. -/
  labeled : ∀ v a, s.space.predOf v = some a →
    a < c.network.arcCount ∧ s.space.isVisited (c.network.tailOf a) = true
  entered : s.tree.Over known
  capacity : s.tree.capacity = c.network.nodeCount

variable {c : Growth α} {far : α → Prop} {known : Nat → Prop} {w₀ w w' : Workspace α}
  {s s' : State α} {t : Tree}

/-! ### What is read -/

theorem prizeAlong_congr (h : Workspace.Alike w w') (g : Network α) (t : Tree) (fuel : Nat) :
    ∀ v prize, prizeAlong g w' t fuel v prize = prizeAlong g w t fuel v prize := by
  induction fuel with
  | zero => exact fun _ _ => rfl
  | succ fuel ih =>
    intro v prize
    simp only [prizeAlong, h.predOf, ih]

theorem isWorth_congr (h : Workspace.Alike w w') (t : Tree) (k : Nat) :
    c.isWorth w' t k = c.isWorth w t k := by
  unfold isWorth creditedPrize
  simp only [h.distOf, prizeAlong_congr h]

theorem Together.isOver_eq (h : Together c far known w₀ s s') (top : Nat) :
    c.isOver s' top = c.isOver s top := by
  unfold isOver
  rw [h.openRequired, h.space.alike.distOf, h.bound]

/-! ### Steps -/

section Steps

variable (hg : c.network.Linked) (hknown : ∀ a, a < c.network.arcCount → known a)

include hknown in
/-- A touched node joins the tree over the arc of its label. -/
theorem join_together (h : Together c far known w₀ s s') {v : Nat}
    (hv : s.space.isVisited v = true) :
    Together c far known w₀ (join c.network v s) (join c.network v s') where
  space := (h.space.setDist hv 0).reopen hv
  tree := by
    simp only [join]
    rw [h.tree, h.space.alike.predOf]
  openRequired := by
    simp only [join]
    rw [h.openRequired]
  added := congrArg (· + 1) h.added
  bound := h.bound
  labeled := h.labeled
  entered := h.entered.connect fun a ha => hknown a (h.labeled v a ha).1
  capacity := Tree.capacity_connect.trans h.capacity

include hknown in
/-- A branch joins, from one touched node to the next. -/
theorem splice_together (fuel : Nat) : ∀ {v : Nat} {s s' : State α},
    Together c far known w₀ s s' → s.space.isVisited v = true →
      Together c far known w₀ (splice c.network fuel v s) (splice c.network fuel v s') := by
  induction fuel with
  | zero => exact fun h _ => h
  | succ fuel ih =>
    intro v s s' h hv
    rw [splice, splice, h.tree, h.space.alike.predOf]
    split
    · exact h
    · -- the arc of the label is read before the node joins, and its tail was touched
      have hjoin : Together c far known w₀ (join c.network v s) (join c.network v s') :=
        join_together hknown h hv
      cases hpred : s.space.predOf v with
      | none => exact hjoin
      | some a => exact ih hjoin (h.labeled v a hpred).2

variable (hcost : ∀ a, a < c.network.arcCount → ∃ x, c.costs a = some x)

include hg hcost

theorem take_together (h : Together c far known w₀ s s') (base : α) {a k : Nat}
    (ha : a < c.network.arcCount) (htail : c.network.tailOf a = k)
    (hk : s.space.isVisited k = true) :
    BothOk (fun s s' => Together c far known w₀ s s' ∧ s.space.isVisited k = true)
      (c.take base s a) (c.take base s' a) := by
  have hm := hg.head_lt a ha
  have hroom := h.space.tracked.lt_capacity hm
  obtain ⟨x, hx⟩ := hcost a ha
  unfold take
  dsimp only
  rw [h.tree]
  split
  · exact .ok ⟨h, hk⟩
  · rw [Tree.arcCost, hx, h.space.alike.capacity, h.space.alike.distOf]
    refine BothOk.checkNode hroom ?_
    split
    · -- the tail of the arc was touched, and stays so
      have hkept : ∀ u, s.space.isVisited u = true →
          (s.space.setLabel (c.network.headOf a) (base + x) (some a)).isVisited u = true :=
        fun u => Workspace.isVisited_setLabel_of_visited
      refine .ok ⟨{ h with
        tree := rfl
        space := (h.space.setLabel hm _ (some a)).reopen
          (Workspace.isVisited_setLabel_self h.space.tracked.sized hroom)
        labeled := fun v b hb => ?_ }, hkept k hk⟩
      change (s.space.setLabel (c.network.headOf a) (base + x) (some a)).predOf v = some b at hb
      by_cases hv : v = c.network.headOf a
      · rw [hv, Workspace.predOf_setLabel_self h.space.tracked.sized hroom,
          Option.some.injEq] at hb
        subst hb
        exact ⟨ha, hkept _ (htail ▸ hk)⟩
      · rw [Workspace.predOf_setLabel_of_ne hv] at hb
        exact ⟨(h.labeled v b hb).1, hkept _ (h.labeled v b hb).2⟩
    · exact .ok ⟨h, hk⟩

theorem takes_together (h : Together c far known w₀ s s') (base : α) {k : Nat}
    (hk : s.space.isVisited k = true) {done : List Nat} (hdone : done <+: c.network.outArcs k) :
    BothOk (fun s s' => Together c far known w₀ s s' ∧ s.space.isVisited k = true)
      (done.foldlM (c.take base) s) (done.foldlM (c.take base) s') := by
  refine BothOk.foldlM done (fun a ha s s' hs => ?_) s s' ⟨h, hk⟩
  obtain ⟨harc, htail⟩ := hg.mem_outArcs.mp (hdone.subset ha)
  exact take_together hg hcost hs.1 base harc htail hs.2

theorem expand_together (h : Together c far known w₀ s s') {k : Nat}
    (hk : s.space.isVisited k = true) :
    Progress.Together (Together c far known w₀) (c.expand k s) (c.expand k s') := by
  unfold expand
  rw [h.space.alike.distOf]
  obtain ⟨u, u', hu, hu', hnext⟩ :=
    takes_together hg hcost h (s.space.distOf k) hk (List.prefix_refl _)
  rw [hu, hu']
  exact .more hnext.1

omit hg hcost in
/-- An extraction changes the queue of the workspace only. -/
theorem Together.popped (h : Together c far known w₀ s s') {k : Nat} {u u' : Workspace α}
    (hpop : s.space.popMin? = some (k, u))
    (hu : Workspace.Lockstep far c.network.nodeCount w₀ u u') :
    Together c far known w₀ { s with space := u } { s' with space := u' } := by
  obtain ⟨q, -, rfl⟩ := Workspace.popMin?_eq_some hpop
  exact { h with space := hu }

include hknown

theorem settleNext_together (h : Together c far known w₀ s s') :
    Progress.Together (Together c far known w₀) (c.settleNext s) (c.settleNext s') := by
  unfold settleNext
  rw [h.space.alike.queue.peekMin?]
  split
  · exact .done h
  · next top htop =>
    rw [h.isOver_eq]
    split
    · exact .done h
    · rcases h.space.popMin? with ⟨hpop, hpop'⟩ | ⟨k, u, u', hpop, hpop', hu, hvisited, -⟩
      · rw [hpop, hpop']
        exact .done h
      · rw [hpop, hpop']
        have hnext := h.popped hpop hu
        dsimp only
        rw [h.tree, isWorth_congr hu.alike]
        split
        · have hspliced := splice_together hknown c.network.nodeCount hnext hvisited
          rw [h.tree] at hspliced
          refine .more { hspliced with bound := ?_ }
          exact congrArg c.prizeBound hspliced.tree
        · have hexpanded := expand_together hg hcost hnext hvisited
          rw [h.tree] at hexpanded
          exact hexpanded

end Steps

/-! ### Runs -/

/-- The workspaces are in lockstep, and all labels are those of sources. -/
structure Seeded (far : α → Prop) (n : Nat) (w₀ w w' : Workspace α) : Prop where
  space : Workspace.Lockstep far n w₀ w w'
  unlabeled : ∀ v, w.predOf v = none

/-- The workspaces are ready for the next search, and everything else is the same. -/
structure Finished (c : Growth α) (far : α → Prop) (known : Nat → Prop) (w₀ : Workspace α)
    (s s' : State α) : Prop where
  space : Workspace.Rested far w₀ s.space s'.space
  tree : s'.tree = s.tree
  openRequired : s'.openRequired = s.openRequired
  added : s'.added = s.added
  entered : s.tree.Over known
  capacity : s.tree.capacity = c.network.nodeCount

/-- Two answers are the same, with the same tree, and the workspaces are ready for the next
search. -/
structure Grown {ω : Type} (c : Growth α) (far : α → Prop) (known : Nat → Prop)
    (w₀ : Workspace α) (x x' : ω × Tree × Workspace α) : Prop where
  answer : x'.1 = x.1
  tree : x'.2.1 = x.2.1
  space : Workspace.Rested far w₀ x.2.2 x'.2.2
  entered : x.2.1.Over known
  capacity : x.2.1.capacity = c.network.nodeCount

theorem seed_together {n : Nat} (h : Seeded far n w₀ w w') {v : Nat} (hv : v < n) :
    BothOk (Seeded far n w₀) (seed w v) (seed w' v) := by
  unfold seed
  rw [h.space.alike.capacity]
  refine BothOk.checkNode (h.space.tracked.lt_capacity hv) (.ok ⟨h.space.label hv 0 none, ?_⟩)
  intro u
  change (w.setLabel v 0 none).predOf u = none
  by_cases huv : u = v
  · rw [huv, Workspace.predOf_setLabel_self h.space.tracked.sized (h.space.tracked.lt_capacity hv)]
  · rw [Workspace.predOf_setLabel_of_ne huv, h.unlabeled u]

theorem seeds_together {n : Nat} {vs : List Nat} (hvs : ∀ v ∈ vs, v < n)
    (h : Seeded far n w₀ w w') :
    BothOk (Seeded far n w₀) (vs.foldlM seed w) (vs.foldlM seed w') :=
  BothOk.foldlM (f := seed) (g := seed) vs (fun v hv _ _ hw => seed_together hw (hvs v hv)) w w' h

theorem Seeded.of_rested {n : Nat} (h : Workspace.Rested far w₀ w w') (hroom : n ≤ w₀.capacity) :
    Seeded far n w₀ w w' :=
  ⟨h.lockstep hroom, fun v => (h.clean.blank v).pred⟩

theorem Seeded.initial (h : Seeded far c.network.nodeCount w₀ w w') (hentered : t.Over known)
    (hcap : t.capacity = c.network.nodeCount) :
    Together c far known w₀ (c.initial t w) (c.initial t w') where
  space := h.space
  tree := rfl
  openRequired := rfl
  added := rfl
  bound := rfl
  labeled v a ha := by
    change w.predOf v = some a at ha
    rw [h.unlabeled v] at ha
    cases ha
  entered := hentered
  capacity := hcap

section Runs

variable (hg : c.network.Linked) (hknown : ∀ a, a < c.network.arcCount → known a)
  (hcost : ∀ a, a < c.network.arcCount → ∃ x, c.costs a = some x) (hfar : far Weight.faraway)
  (hroom : c.network.nodeCount ≤ w₀.capacity)

include hg hknown hcost hfar

theorem grow_together (h : Seeded far c.network.nodeCount w₀ w w') (hentered : t.Over known)
    (hcap : t.capacity = c.network.nodeCount) :
    BothOk (Finished c far known w₀) (c.grow t w) (c.grow t w') := by
  unfold grow
  refine (Progress.run_together (fun s s' => settleNext_together hg hknown hcost) _ _ _
    (h.initial hentered hcap)).bind ?_
  rintro ⟨_, s⟩ ⟨_, s'⟩ ⟨-, hs⟩
  exact .ok ⟨hs.space.reset hfar, hs.tree, hs.openRequired, hs.added, hs.entered, hs.capacity⟩

include hroom

/-- Two growths from a node answer the same, with the same tree. -/
theorem growFrom_together (h : Workspace.Rested far w₀ w w') {start : Nat}
    (hstart : start < c.network.nodeCount) :
    BothOk (Grown c far known w₀) (c.growFrom start w) (c.growFrom start w') := by
  unfold growFrom
  dsimp only
  refine BothOk.checkNode hstart ?_
  refine (seed_together (.of_rested h hroom) hstart).bind fun u u' hu => ?_
  refine (grow_together hg hknown hcost hfar hu (Tree.over_start _ start)
    (Tree.capacity_start _ start)).bind fun s s' hs => ?_
  refine .ok ⟨?_, hs.tree, hs.space, hs.entered, hs.capacity⟩
  exact congrArg GrowthOutcome.ofMissing hs.openRequired

theorem extendRounds_together (rounds : Nat) :
    ∀ {t : Tree} {w w' : Workspace α}, t.Over known → t.capacity = c.network.nodeCount →
      Workspace.Rested far w₀ w w' →
        BothOk (Grown c far known w₀) (c.extendRounds rounds t w) (c.extendRounds rounds t w') := by
  induction rounds with
  | zero => exact fun hentered hcap h => .ok ⟨rfl, rfl, h, hentered, hcap⟩
  | succ rounds ih =>
    intro t w w' hentered hcap h
    have hnodes : ∀ v ∈ t.nodes, v < c.network.nodeCount := fun v hv =>
      hcap ▸ Tree.lt_capacity_of_mem_nodes hv
    refine (seeds_together hnodes (.of_rested h hroom)).bind fun u u' hu => ?_
    refine (grow_together hg hknown hcost hfar hu hentered hcap).bind fun s s' hs => ?_
    rw [hs.added, hs.tree]
    split
    · exact .ok ⟨rfl, rfl, hs.space, hs.entered, hs.capacity⟩
    · refine (ih hs.entered hs.capacity hs.space).bind ?_
      rintro ⟨more, t, u⟩ ⟨more', t', u'⟩ hx
      exact .ok ⟨congrArg (s.added + ·) hx.answer, hx.tree, hx.space, hx.entered, hx.capacity⟩

/-- Two extensions answer the same, with the same tree. -/
theorem extend_together (h : Workspace.Rested far w₀ w w') (hentered : t.Over known)
    (hcap : t.capacity = c.network.nodeCount) (rounds : Nat) :
    BothOk (Grown c far known w₀) (c.extend rounds t w) (c.extend rounds t w') :=
  extendRounds_together hg hknown hcost hfar hroom _ hentered hcap h

end Runs

/-! ### Moments -/

/-- The workspace is `u` at a moment of the growth of `t` that starts in `w`. -/
inductive Moment (c : Growth α) (t : Tree) (w : Workspace α) : Workspace α → Prop
  /-- The next node is to be extracted. -/
  | between {s : State α} (hs : Progress.Reached c.settleNext (c.initial t w) s) :
      Moment c t w s.space
  /-- The next node of a branch is to join. -/
  | joining {s : State α} {v : Nat} (hs : Joining c (c.initial t w) v s) : Moment c t w s.space
  /-- Some arcs of an extracted node were taken. -/
  | taking {s s' : State α} {k : Nat} {v : Workspace α} {done : List Nat}
      (hs : Progress.Reached c.settleNext (c.initial t w) s)
      (hpop : s.space.popMin? = some (k, v)) (hdone : done <+: c.network.outArcs k)
      (htake : done.foldlM (c.take (v.distOf k)) { s with space := v } = .ok s') :
      Moment c t w s'.space

/-- The workspace is `u` at a moment of the growth from `start` that starts in `w`. -/
inductive StartMoment (c : Growth α) (start : Nat) (w : Workspace α) : Workspace α → Prop
  /-- The start is labeled, and the tree grows. -/
  | growing {v u : Workspace α} (hseed : seed w start = .ok v)
      (h : Moment c ((Tree.empty c.network.nodeCount).connect start none) v u) :
      StartMoment c start w u

/-- The workspace is `u` at a moment of an extension of `t` that starts in `w`. -/
inductive ExtendMoment (c : Growth α) : Nat → Tree → Workspace α → Workspace α → Prop
  /-- Some nodes of the tree are labeled. -/
  | seeding {rounds : Nat} {t : Tree} {w u : Workspace α} {done : List Nat}
      (hdone : done <+: t.nodes) (h : done.foldlM seed w = .ok u) :
      ExtendMoment c (rounds + 1) t w u
  /-- All nodes of the tree are labeled, and it grows. -/
  | growing {rounds : Nat} {t : Tree} {w v u : Workspace α} (hseed : t.nodes.foldlM seed w = .ok v)
      (h : Moment c t v u) : ExtendMoment c (rounds + 1) t w u
  /-- A round that added nodes is followed by another one. -/
  | next {rounds : Nat} {t : Tree} {w v u : Workspace α} {s : State α}
      (hseed : t.nodes.foldlM seed w = .ok v) (hgrow : c.grow t v = .ok s) (hadded : s.added ≠ 0)
      (h : ExtendMoment c rounds s.tree s.space u) : ExtendMoment c (rounds + 1) t w u

section Moments

variable (hg : c.network.Linked) (hknown : ∀ a, a < c.network.arcCount → known a)
  (hcost : ∀ a, a < c.network.arcCount → ∃ x, c.costs a = some x) (hfar : far Weight.faraway)
  (hroom : c.network.nodeCount ≤ w₀.capacity)

include hg hknown hcost

theorem joining_together (h : Together c far known w₀ s s) {v : Nat} {u : State α}
    (hu : Joining c s v u) :
    Together c far known w₀ u u ∧ u.space.isVisited v = true := by
  induction hu with
  | first hs hpop =>
    have h := hs.together (fun s s' => settleNext_together hg hknown hcost) h
    obtain ⟨hv, hvisited, -⟩ := h.space.tracked.popMin? hpop
    exact ⟨h.popped hpop (.refl hv), hvisited⟩
  | next _ _ hpred ih => exact ⟨join_together hknown ih.1 ih.2, (ih.1.labeled _ _ hpred).2⟩

theorem Moment.tracked (h : Seeded far c.network.nodeCount w₀ w w) (hentered : t.Over known)
    (hcap : t.capacity = c.network.nodeCount) {u : Workspace α} (hu : Moment c t w u) :
    Workspace.Tracked far c.network.nodeCount w₀ u := by
  have hinitial : Together c far known w₀ (c.initial t w) (c.initial t w) :=
    h.initial hentered hcap
  have hreached : ∀ {s}, Progress.Reached c.settleNext (c.initial t w) s →
      Together c far known w₀ s s := fun hs =>
    hs.together (fun s s' => settleNext_together hg hknown hcost) hinitial
  cases hu with
  | between hs => exact (hreached hs).space.tracked
  | joining hs => exact (joining_together hg hknown hcost hinitial hs).1.space.tracked
  | taking hs hpop hdone htake =>
    obtain ⟨hv, hvisited, -⟩ := (hreached hs).space.tracked.popMin? hpop
    have hnext := (hreached hs).popped hpop (.refl hv)
    exact ((takes_together hg hcost hnext _ hvisited hdone).of_eq_ok htake).1.space.tracked

include hroom

/-- At every moment of a growth from a node the workspace is tracked. -/
theorem StartMoment.tracked (h : Workspace.Rested far w₀ w w) {start : Nat}
    (hstart : start < c.network.nodeCount) {u : Workspace α} (hu : StartMoment c start w u) :
    Workspace.Tracked far c.network.nodeCount w₀ u := by
  cases hu with
  | growing hseed hu =>
    have hv := (seed_together (.of_rested h hroom) hstart).of_eq_ok hseed
    exact hu.tracked hg hknown hcost hv (Tree.over_start _ start) (Tree.capacity_start _ start)

include hfar

/-- At every moment of an extension the workspace is tracked. -/
theorem ExtendMoment.tracked {rounds : Nat} {u : Workspace α}
    (hu : ExtendMoment c rounds t w u) (h : Workspace.Rested far w₀ w w) (hentered : t.Over known)
    (hcap : t.capacity = c.network.nodeCount) :
    Workspace.Tracked far c.network.nodeCount w₀ u := by
  have hnodes : ∀ {t : Tree}, t.capacity = c.network.nodeCount → ∀ v ∈ t.nodes,
      v < c.network.nodeCount := fun hcap v hv => hcap ▸ Tree.lt_capacity_of_mem_nodes hv
  induction hu with
  | seeding hdone hseed =>
    have hdone := fun v hv => hnodes hcap v (hdone.subset hv)
    exact ((seeds_together hdone (.of_rested h hroom)).of_eq_ok hseed).space.tracked
  | growing hseed hu =>
    have hv := (seeds_together (hnodes hcap) (.of_rested h hroom)).of_eq_ok hseed
    exact hu.tracked hg hknown hcost hv hentered hcap
  | next hseed hgrow _ _ ih =>
    have hv := (seeds_together (hnodes hcap) (.of_rested h hroom)).of_eq_ok hseed
    have hs := (grow_together hg hknown hcost hfar hv hentered hcap).of_eq_ok hgrow
    exact ih hs.space hs.entered hs.capacity

end Moments

end Growth

end SteinerSearch
