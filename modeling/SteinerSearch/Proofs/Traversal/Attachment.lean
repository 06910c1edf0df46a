import Mathlib.Tactic.IntervalCases
import SteinerSearch.Proofs.Network.SpanningTrees
import SteinerSearch.Proofs.Traversal.Exactness

/-!
# Minimum spanning trees by traversal

A traversal that labels every node with the cost of the arc it hangs on grows a tree of settled
nodes.  The labels at which nodes are settled may go up and down.  But between two extractions no
arc out of the tree costs less than the label of its end.  So a waiting node with the smallest
label hangs on a cheapest arc out of the tree, whatever was extracted before.  In the end the tree
spans the component of the source, and no spanning tree costs less.

## Main definitions

* `Network.including g s` — the network in which `s` takes part as well.
* `Traversal.labelEdges g w` — the edges over which nodes got their labels.
* `Traversal.Attaches t` — labels are costs of arcs, and there is no limit.
* `Traversal.HangsOn t w v a` — the label of `v` is the cost of arc `a` out of a settled node.
* `Traversal.Growing t s as due w` — the settled nodes are a tree grown from `s` over `as`, and
  only due arcs have a better label to give.

## Main results

* `Traversal.Growing.scan` — a scan keeps the tree.
* `Traversal.Growing.popMin?` — an extraction attaches a node over a cheapest arc.
* `Traversal.run_spanningTree` — a run leaves a minimum spanning tree.
-/

namespace SteinerSearch

/-- The network in which `s` takes part in the searches as well. -/
def Network.including {α : Type} (g : Network α) (s : Nat) : Network α := g.setMark s true

/-- A node takes part if it is `s` or marked. -/
theorem Network.isMarked_including {α : Type} {g : Network α} {s v : Nat} (hs : s < g.nodeCount) :
    (g.including s).isMarked v = true ↔ v = s ∨ g.isMarked v = true := by
  unfold including setMark isMarked
  by_cases hv : v = s
  · rw [hv, Array.getD_setIfInBounds_self hs]
    simp
  · rw [Array.getD_setIfInBounds_of_ne hv, or_iff_right hv]

namespace Traversal

/-- The edges over which labeled nodes got their labels. -/
def labelEdges {α : Type} (g : Network α) (w : Workspace α) : Finset Nat :=
  Network.edgesOf ((g.nodes.filter w.isVisited).filterMap w.predOf)

variable {t : Traversal ℚ} {w w' : Workspace ℚ} {due due' : Nat → Prop} {as : List Nat}
  {s k v a : Nat}

/-- Labels are the costs of arcs, which are whole and near.  Nothing limits the traversal. -/
structure Attaches (t : Traversal ℚ) : Prop where
  wellFormed : t.network.WellFormed
  labeling : t.labeling = .attachment
  limits : t.limits = {}
  cost : ∀ a, a < t.network.arcCount → ∃ n : ℕ, t.costs a = some (n : ℚ) ∧ (n : ℚ) < Weight.faraway

theorem Attaches.costs_eq (ht : Attaches t) (ha : a < t.network.arcCount) :
    t.costs a = some (t.arcCost a) := by
  obtain ⟨n, hn, -⟩ := ht.cost a ha
  rw [arcCost_eq hn, hn]

theorem Attaches.isWhole (ht : Attaches t) (ha : a < t.network.arcCount) :
    Weight.IsWhole (t.arcCost a) := by
  obtain ⟨n, hn, -⟩ := ht.cost a ha
  exact ⟨n, arcCost_eq hn⟩

theorem Attaches.lt_faraway (ht : Attaches t) (ha : a < t.network.arcCount) :
    t.arcCost a < Weight.faraway := by
  obtain ⟨n, hn, hlt⟩ := ht.cost a ha
  rwa [arcCost_eq hn]

theorem Attaches.tooLong_eq (ht : Attaches t) (d : ℚ) : t.tooLong d = false := by
  rw [tooLong, ht.limits]

/-! ### The invariant -/

/-- The label of `v` is the cost of arc `a`, which leads to it from a settled node. -/
structure HangsOn (t : Traversal ℚ) (w : Workspace ℚ) (v a : Nat) : Prop where
  pred : w.predOf v = some a
  lt : a < t.network.arcCount
  head : t.network.headOf a = v
  mark : t.network.isMarked v = true
  tail : w.isSettled (t.network.tailOf a) = true
  dist : w.distOf v = t.arcCost a

/-- The settled nodes are a tree grown from `s` over the arcs `as`.  Only arcs that are due may
have a better label to give. -/
structure Growing (t : Traversal ℚ) (s : Nat) (as : List Nat) (due : Nat → Prop)
    (w : Workspace ℚ) : Prop extends Tidy t w where
  /-- The source is labeled without an arc. -/
  source : w.isVisited s = true ∧ w.predOf s = none ∧ w.distOf s = 0
  /-- Other labels are costs of arcs out of the tree. -/
  hangs : ∀ v, w.isVisited v = true → v ≠ s → ∃ a, HangsOn t w v a
  /-- No other arc out of the tree costs less than the label of its end. -/
  used : ∀ a, a < t.network.arcCount → ¬ due a → w.isSettled (t.network.tailOf a) = true →
    t.network.isMarked (t.network.headOf a) = true →
    w.isSettled (t.network.headOf a) = false → w.distOf (t.network.headOf a) ≤ t.arcCost a
  grown : (t.network.including s).Grown t.arcCost s as
  /-- Settled nodes are in the tree, and `s` is the first of them. -/
  held : ∀ v, w.isSettled v = true → w.isSettled s = true ∧ t.network.Visits s as v
  /-- The arcs of the tree are those that its nodes got their labels from. -/
  kept : ∀ a ∈ as, w.isSettled (t.network.headOf a) = true ∧
    w.predOf (t.network.headOf a) = some a

theorem Growing.mono (h : Growing t s as due w) (hdue : ∀ a, due a → due' a) :
    Growing t s as due' w :=
  { h with used := fun a ha hnot => h.used a ha fun hd => hnot (hdue a hd) }

/-- Once the source is settled, the settled nodes are those in the tree. -/
theorem Growing.isSettled_iff (h : Growing t s as due w) (hs : w.isSettled s = true) :
    w.isSettled v = true ↔ t.network.Visits s as v := by
  refine ⟨fun hv => (h.held v hv).2, ?_⟩
  rintro (rfl | ⟨a, ha, rfl⟩)
  · exact hs
  · exact (h.kept a ha).1

/-! ### Scans -/

/-- An arc that has no better label to give is not due any more. -/
theorem Growing.skip (h : Growing t s as due w)
    (ha : t.network.isMarked (t.network.headOf a) = true →
      w.isSettled (t.network.headOf a) = false → w.distOf (t.network.headOf a) ≤ t.arcCost a) :
    Growing t s as (fun b => due b ∧ b ≠ a) w := by
  refine { h with used := fun b hb hnot htail hmark hopen => ?_ }
  by_cases hba : b = a
  · rw [hba] at hmark hopen ⊢
    exact ha hmark hopen
  · exact h.used b hb (fun hd => hnot ⟨hd, hba⟩) htail hmark hopen

/-- A node that gets a better label hangs on another arc out of the tree. -/
theorem Growing.relabel (ht : Attaches t) (h : Growing t s as due w)
    (ha : a < t.network.arcCount) (htail : w.isSettled (t.network.tailOf a) = true)
    (hmark : t.network.isMarked (t.network.headOf a) = true)
    (hopen : w.isSettled (t.network.headOf a) = false)
    (hlt : t.arcCost a < w.distOf (t.network.headOf a))
    (hr : w.Relabeled (t.network.headOf a) (t.arcCost a) (some a) w') :
    Growing t s as (fun b => due b ∧ b ≠ a) w' := by
  have hsettled : w.isSettled s = true := (h.held _ htail).1
  have hne : ∀ {v}, w.isSettled v = true → v ≠ t.network.headOf a := fun hv =>
    ne_of_isSettled hopen hv
  refine ⟨h.toTidy.relabel hr (ht.wellFormed.head_lt a ha) hopen (ht.isWhole ha)
    (ht.lt_faraway ha) (ht.tooLong_eq _) hlt.le, ?_, fun v hv hvs => ?_,
    fun b hb hnot hbt hbm hbo => ?_, h.grown, fun v hv => ?_, fun b hb => ?_⟩
  · rw [hr.visited_ne s (hne hsettled), hr.pred_ne s (hne hsettled), hr.dist_ne s (hne hsettled)]
    exact h.source
  · by_cases hva : v = t.network.headOf a
    · subst hva
      exact ⟨a, hr.pred_self, ha, rfl, hmark, (hr.settled _).trans htail, hr.dist_self⟩
    · rw [hr.visited_ne v hva] at hv
      obtain ⟨b, hb⟩ := h.hangs v hv hvs
      exact ⟨b, (hr.pred_ne v hva).trans hb.pred, hb.lt, hb.head, hb.mark,
        (hr.settled _).trans hb.tail, (hr.dist_ne v hva).trans hb.dist⟩
  · rw [hr.settled] at hbt hbo
    by_cases hba : b = a
    · rw [hba, hr.dist_self]
    · have hused := h.used b hb (fun hd => hnot ⟨hd, hba⟩) hbt hbm hbo
      by_cases hhead : t.network.headOf b = t.network.headOf a
      · rw [hhead] at hused ⊢
        rw [hr.dist_self]
        exact hlt.le.trans hused
      · rwa [hr.dist_ne _ hhead]
  · rw [hr.settled] at hv ⊢
    exact h.held v hv
  · obtain ⟨hset, hpred⟩ := h.kept b hb
    rw [hr.settled, hr.pred_ne _ (hne hset)]
    exact ⟨hset, hpred⟩

/-- An arc out of the tree that offers its cost to an open node is no longer due. -/
theorem Growing.improve (ht : Attaches t) (h : Growing t s as due w)
    (ha : a < t.network.arcCount) (htail : w.isSettled (t.network.tailOf a) = true)
    (hmark : t.network.isMarked (t.network.headOf a) = true)
    (hopen : w.isSettled (t.network.headOf a) = false) :
    Growing t s as (fun b => due b ∧ b ≠ a)
      (Traversal.improve (t.network.headOf a) (t.arcCost a) a w) ∧
    ∀ u, (Traversal.improve (t.network.headOf a) (t.arcCost a) a w).isSettled u =
      w.isSettled u := by
  have hapart := (ht.isWhole ha).apart (h.whole (t.network.headOf a))
  unfold Traversal.improve
  split
  · next hbelow =>
    rw [Weight.below_iff hapart] at hbelow
    have hr := Workspace.relabeled_enqueue (d := t.arcCost a) (p := some a) h.sized h.consistent
      (lt_of_lt_of_le (ht.wellFormed.head_lt a ha) h.room) hopen
    exact ⟨h.relabel ht ha htail hmark hopen hbelow hr, hr.settled⟩
  · next hbelow =>
    rw [Weight.below_iff hapart, not_lt] at hbelow
    exact ⟨h.skip fun _ _ => hbelow, fun _ => rfl⟩

/-- The scan of an arc goes through, and the arc is no longer due. -/
theorem Growing.scan (ht : Attaches t) {x : State ℚ} (h : Growing t s as due x.space) (base : ℚ)
    (ha : a < t.network.arcCount) (htail : x.space.isSettled (t.network.tailOf a) = true) :
    ∃ x', t.scan base x a = .ok x' ∧ Growing t s as (fun b => due b ∧ b ≠ a) x'.space ∧
      ∀ u, x'.space.isSettled u = x.space.isSettled u := by
  have hbudget : ∀ n, t.exceeds n = false := fun n => by rw [exceeds, ht.limits]
  unfold Traversal.scan
  simp only [ht.costs_eq ha, ht.labeling, Labeling.extend, hbudget, ht.tooLong_eq,
    Bool.false_eq_true, if_false]
  split
  · next hskip =>
    refine ⟨x, rfl, h.skip fun hmark hopen => ?_, fun _ => rfl⟩
    simp [hmark, hopen] at hskip
  · next hscan =>
    rw [Bool.not_eq_true, Bool.or_eq_false_iff, Bool.not_eq_false'] at hscan
    exact ⟨_, rfl, h.improve ht ha htail hscan.1 hscan.2⟩

/-- The scan of all arcs out of a settled node leaves none of them due. -/
theorem Growing.expand (ht : Attaches t) {x : State ℚ}
    (h : Growing t s as (fun a => t.network.tailOf a = k) x.space)
    (hk : x.space.isSettled k = true) :
    ∃ x', t.expand k x = .more x' ∧ Growing t s as (fun _ => False) x'.space ∧
      ∀ u, x'.space.isSettled u = x.space.isSettled u := by
  obtain ⟨x', hfold, hgrow, hset⟩ := foldlM_ok (f := t.scan (x.space.distOf k)) (s := x)
    (J := fun done x' => Growing t s as (fun a => t.network.tailOf a = k ∧ a ∉ done) x'.space ∧
      ∀ u, x'.space.isSettled u = x.space.isSettled u) (t.network.outArcs k)
    (fun done a x₁ hmem hJ => by
      obtain ⟨hx₁, hset⟩ := hJ
      obtain ⟨ha, htail⟩ := ht.wellFormed.mem_outArcs.mp (mem_of_appended hmem)
      obtain ⟨x₂, hscan, hx₂, hset₂⟩ := hx₁.scan ht (x.space.distOf k) ha
        ((hset _).trans (htail ▸ hk))
      refine ⟨x₂, hscan, hx₂.mono fun b hb => ?_, fun u => (hset₂ u).trans (hset u)⟩
      rw [List.mem_append, List.mem_singleton, not_or]
      exact ⟨hb.1.1, hb.1.2, hb.2⟩)
    ⟨h.mono fun a ha => ⟨ha, List.not_mem_nil⟩, fun _ => rfl⟩
  refine ⟨x', ?_, { hgrow with used := fun a ha _ => hgrow.used a ha fun hdue => ?_ }, hset⟩
  · simp only [Traversal.expand, hfold]
    rfl
  · exact hdue.2 (ht.wellFormed.mem_outArcs.mpr ⟨ha, hdue.1⟩)

/-! ### Extractions -/

/-- A waiting node with the smallest label hangs on a cheapest arc out of the tree. -/
theorem Growing.grown_cons (ht : Attaches t) (hs : s < t.network.nodeCount)
    (h : Growing t s as (fun _ => False) w) (hpop : Settles t w k w') (ha : HangsOn t w k a) :
    (t.network.including s).Grown t.arcCost s (a :: as) := by
  have hsettled : w.isSettled s = true := (h.held _ ha.tail).1
  have hout : ¬ t.network.Visits s as k := fun hk => by
    rw [← h.isSettled_iff hsettled, hpop.isOpen] at hk
    cases hk
  refine .attach h.grown ha.lt ((h.isSettled_iff hsettled).mp ha.tail) (ha.head ▸ hout)
    ((Network.isMarked_including hs).mpr (Or.inr (ha.head ▸ ha.mark))) fun b hb hbt hbh hbm => ?_
  have hbm : t.network.isMarked (t.network.headOf b) = true :=
    ((Network.isMarked_including hs).mp hbm).resolve_left fun hbs => hbh (Or.inl hbs)
  have hbo : w.isSettled (t.network.headOf b) = false :=
    Bool.eq_false_iff.mpr fun hset => hbh ((h.isSettled_iff hsettled).mp hset)
  have hle : w.distOf (t.network.headOf b) ≤ t.arcCost b :=
    h.used b hb not_false ((h.isSettled_iff hsettled).mpr hbt) hbm hbo
  -- the other end is labeled, so that it waits
  have hvisited : w.isVisited (t.network.headOf b) = true := by
    by_contra hnot
    rw [(h.blank _ (Bool.eq_false_iff.mpr hnot)).1] at hle
    exact absurd (ht.lt_faraway hb) (not_lt.mpr hle)
  have hwaits : w.queue.Waits (t.network.headOf b) :=
    (h.labeled _ hvisited).2.2.2.resolve_right fun hset => by
      rw [hbo] at hset
      cases hset
  calc t.arcCost a = w.distOf k := ha.dist.symm
    _ ≤ w.distOf (t.network.headOf b) := hpop.least _ hwaits
    _ ≤ t.arcCost b := hle

/-- An extraction attaches a node over a cheapest arc out of the tree, unless it settles the
source.  The arcs out of the node get due. -/
theorem Growing.popMin? (ht : Attaches t) (hs : s < t.network.nodeCount)
    (h : Growing t s as (fun _ => False) w) (hpop : w.popMin? = some (k, w')) :
    Settles t w k w' ∧ ∃ as', Growing t s as' (fun a => t.network.tailOf a = k) w' := by
  obtain ⟨htidy, hpop⟩ := h.toTidy.popMin? hpop
  have hmono : ∀ {v}, w.isSettled v = true → w'.isSettled v = true := fun hv =>
    (hpop.settled _).mpr (Or.inl hv)
  have hsource : w'.isVisited s = true ∧ w'.predOf s = none ∧ w'.distOf s = 0 := by
    rw [hpop.visited, hpop.pred, hpop.dist]
    exact h.source
  have hhangs : ∀ v, w'.isVisited v = true → v ≠ s → ∃ a, HangsOn t w' v a := by
    intro v hv hvs
    rw [hpop.visited] at hv
    obtain ⟨a, ha⟩ := h.hangs v hv hvs
    exact ⟨a, (hpop.pred v).trans ha.pred, ha.lt, ha.head, ha.mark, hmono ha.tail,
      (hpop.dist v).trans ha.dist⟩
  have hused : ∀ a, a < t.network.arcCount → ¬ t.network.tailOf a = k →
      w'.isSettled (t.network.tailOf a) = true →
      t.network.isMarked (t.network.headOf a) = true →
      w'.isSettled (t.network.headOf a) = false → w'.distOf (t.network.headOf a) ≤ t.arcCost a := by
    intro a ha hne htail hmark hopen
    rw [hpop.dist]
    refine h.used a ha not_false (((hpop.settled _).mp htail).resolve_right hne) hmark ?_
    exact Bool.eq_false_iff.mpr fun hset => Bool.eq_false_iff.mp hopen (hmono hset)
  have hkept : ∀ a ∈ as, w'.isSettled (t.network.headOf a) = true ∧
      w'.predOf (t.network.headOf a) = some a := fun a ha =>
    ⟨hmono (h.kept a ha).1, (hpop.pred _).trans (h.kept a ha).2⟩
  refine ⟨hpop, ?_⟩
  by_cases hks : k = s
  · refine ⟨as, htidy, hsource, hhangs, hused, h.grown, fun v hv => ⟨?_, ?_⟩, hkept⟩
    · exact (hpop.settled s).mpr (Or.inr hks.symm)
    · rcases (hpop.settled v).mp hv with hv | rfl
      · exact (h.held v hv).2
      · exact Or.inl hks
  · obtain ⟨a, ha⟩ := h.hangs k (h.isVisited_of_waits hpop.waited) hks
    refine ⟨a :: as, htidy, hsource, hhangs, hused, h.grown_cons ht hs hpop ha,
      fun v hv => ⟨hmono (h.held _ ha.tail).1, Network.visits_cons.mpr ?_⟩, fun b hb => ?_⟩
    · exact ((hpop.settled v).mp hv).imp (fun hv => (h.held v hv).2) fun hv => ha.head.trans hv.symm
    · rcases List.mem_cons.mp hb with rfl | hb
      · rw [ha.head]
        exact ⟨(hpop.settled k).mpr (Or.inr rfl), (hpop.pred k).trans ha.pred⟩
      · exact hkept b hb

/-! ### Runs -/

/-- A run starts with a tree of the source alone, which is not settled yet. -/
theorem growing_start (hs : s < t.network.nodeCount) (ht : Attaches t) (hw : w.Ready)
    (hroom : t.network.nodeCount ≤ w.capacity) :
    ∃ w', [s].foldlM seed w = .ok w' ∧ w'.capacity = w.capacity ∧
      Growing t s [] (fun _ => False) w' := by
  have hsc : s < w.capacity := lt_of_lt_of_le hs hroom
  have hr := hw.relabeled (d := 0) (p := none) hsc
  have hopen : ∀ v, ¬ ((w.setLabel s 0 none).enqueue s).isSettled v = true := fun v => by
    rw [hr.settled, hw.isSettled_eq]
    exact Bool.false_ne_true
  have hle : 0 ≤ w.distOf s := hw.distOf_eq s ▸ Weight.faraway_pos.le
  have htidy := (tidy_ready (t := t) hw hroom).relabel hr hs (hw.isSettled_eq s)
    Weight.isWhole_zero Weight.faraway_pos (ht.tooLong_eq 0) hle
  refine ⟨_, ?_, hr.capacity, ⟨htidy, ⟨hr.visited_self, hr.pred_self, hr.dist_self⟩,
    fun v hv hvs => ?_, fun a _ _ htail => absurd htail (hopen _), .root,
    fun v hv => absurd hv (hopen v), fun a ha => absurd ha List.not_mem_nil⟩⟩
  · rw [List.foldlM_cons, seed_eq hsc]
    rfl
  · exact absurd ((hr.isVisited_iff hw).mp hv) hvs

/-- The state between two extractions, with fuel for `n` more. -/
structure Attaching (t : Traversal ℚ) (s n : Nat) (x : State ℚ) : Prop where
  growing : ∃ as, Growing t s as (fun _ => False) x.space
  /-- The fuel is enough for the nodes that are not settled, and one step more. -/
  fuel : t.network.nodeCount < n + x.space.queue.settledCount t.network.nodeCount

/-- The state in the end: a tree is grown, and nothing waits. -/
structure Attached (t : Traversal ℚ) (s : Nat) (o : TraversalOutcome) (x : State ℚ) : Prop where
  exhausted : o = .exhausted
  growing : ∃ as, Growing t s as (fun _ => False) x.space
  empty : ∀ v, ¬ x.space.queue.Waits v

/-- One step of a run. -/
theorem Attaching.settleNext (ht : Attaches t) (hs : s < t.network.nodeCount) {n : Nat}
    {x : State ℚ} (h : Attaching t s (n + 1) x) :
    (∃ x', t.settleNext x = .more x' ∧ Attaching t s n x') ∨
      ∃ o x', t.settleNext x = .done o x' ∧ Attached t s o x' := by
  obtain ⟨as, hgrow⟩ := h.growing
  have hstop : t.limits.stopAt = none := by rw [ht.limits]
  unfold Traversal.settleNext
  cases hpop : x.space.popMin? with
  | none =>
    exact Or.inr ⟨_, x, rfl, rfl, h.growing, NodeQueue.not_waits_of_size
      (Workspace.popMin?_eq_none_iff.mp hpop)⟩
  | some kw =>
    obtain ⟨k, w'⟩ := kw
    obtain ⟨hsettles, as', hgrow'⟩ := hgrow.popMin? ht hs hpop
    obtain ⟨x', hexpand, hx', hset⟩ := Growing.expand ht (x := { x with space := w' }) hgrow'
      ((hsettles.settled k).mpr (Or.inr rfl))
    have hfuel := h.fuel
    refine Or.inl ⟨x', ?_, ⟨as', hx'⟩, ?_⟩
    · simp only [hstop, reduceCtorEq, false_and, if_false,
        if_neg (not_le.mpr hsettles.lt_nodeCount)]
      exact hexpand
    · rw [NodeQueue.settledCount_congr hset, hsettles.count]
      omega

/-- A run grows a tree until nothing waits, before its fuel is used up. -/
theorem run_attaches (ht : Attaches t) (hs : s < t.network.nodeCount) (hw : w.Ready)
    (hroom : t.network.nodeCount ≤ w.capacity) :
    ∃ w' as, t.Ends [s] w .exhausted w' ∧ t.run [s] w = .ok (.exhausted, w') ∧
      Growing t s as (fun _ => False) w' ∧ ∀ v, ¬ w'.queue.Waits v := by
  obtain ⟨w₁, hseed, hcap, hstart⟩ := growing_start hs ht hw hroom
  have hfirst : Attaching t s (w₁.capacity + 1) ⟨w₁, 0, t.network.markedRequired.length⟩ :=
    ⟨⟨[], hstart⟩, by simp only [hcap]; omega⟩
  have hfuel : ∀ x, ¬ Attaching t s 0 x := by
    intro x hx
    have hlt := hx.fuel
    have hle := x.space.queue.settledCount_le t.network.nodeCount
    omega
  obtain ⟨o, x, hends, hrun, rfl, ⟨as, hgrow⟩, hempty⟩ := Progress.run_ends
    (e := TraversalOutcome.exhausted) (Q := Attached t s) hfuel
    (fun n x hx => hx.settleNext ht hs) _ _ hfirst
  exact ⟨x.space, as, ⟨w₁, x, hseed, hends, rfl⟩, run_eq hseed hrun, hgrow, hempty⟩

/-! ### The tree in the end -/

section End

variable (h : Growing t s as (fun _ => False) w) (hempty : ∀ v, ¬ w.queue.Waits v)

include h hempty

/-- When nothing waits, the labeled nodes are those in the tree. -/
theorem Growing.isVisited_iff : w.isVisited v = true ↔ t.network.Visits s as v := by
  have hsettled : ∀ {v}, w.isVisited v = true → w.isSettled v = true := fun hv =>
    (h.labeled _ hv).2.2.2.resolve_left (hempty _)
  rw [← h.isSettled_iff (hsettled h.source.1)]
  exact ⟨hsettled, h.isVisited_of_settled⟩

/-- When nothing waits, nothing leads out of the tree. -/
theorem Growing.closed (ht : Attaches t) (hs : s < t.network.nodeCount) :
    ∀ a, a < t.network.arcCount → t.network.Visits s as (t.network.tailOf a) →
      (t.network.including s).isMarked (t.network.headOf a) = true →
      t.network.Visits s as (t.network.headOf a) := by
  intro a ha htail hmark
  rcases (Network.isMarked_including hs).mp hmark with hsource | hmark
  · exact Or.inl hsource
  rw [← h.isVisited_iff hempty] at htail ⊢
  by_contra hhead
  have hblank := Bool.eq_false_iff.mpr hhead
  have hopen : w.isSettled (t.network.headOf a) = false :=
    Bool.eq_false_iff.mpr fun hset => hhead (h.isVisited_of_settled hset)
  have hle := h.used a ha not_false ((h.labeled _ htail).2.2.2.resolve_left (hempty _)) hmark hopen
  rw [(h.blank _ hblank).1] at hle
  exact absurd (ht.lt_faraway ha) (not_lt.mpr hle)

/-- When nothing waits, labels come from the arcs of the tree. -/
theorem Growing.labelEdges_eq : labelEdges t.network w = Network.edgesOf as := by
  ext e
  simp only [labelEdges, Network.mem_edgesOf, List.mem_filterMap, List.mem_filter, Network.nodes,
    List.mem_range]
  constructor
  · rintro ⟨a, ⟨v, ⟨-, hv⟩, hpred⟩, rfl⟩
    refine ⟨a, ?_, rfl⟩
    rcases (h.isVisited_iff hempty).mp hv with rfl | ⟨b, hb, rfl⟩
    · rw [h.source.2.1] at hpred
      cases hpred
    · rw [(h.kept b hb).2] at hpred
      cases hpred
      exact hb
  · rintro ⟨a, ha, rfl⟩
    have hvisited := h.isVisited_of_settled (h.kept a ha).1
    exact ⟨a, ⟨_, ⟨(h.labeled _ hvisited).1, hvisited⟩, (h.kept a ha).2⟩, rfl⟩

/-- When nothing waits, the labels add up to what the tree costs. -/
theorem Growing.sum_labels :
    ((t.network.nodes.filter w.isVisited).map w.distOf).sum = Network.pathLength t.arcCost as := by
  have hcost : ∀ a ∈ as, w.distOf (t.network.headOf a) = t.arcCost a := fun a ha => by
    obtain ⟨hset, hpred⟩ := h.kept a ha
    obtain ⟨b, hb⟩ := h.hangs _ (h.isVisited_of_settled hset) fun hs => by
      rw [hs, h.source.2.1] at hpred
      cases hpred
    rw [hb.pred] at hpred
    cases hpred
    exact hb.dist
  have hperm : (t.network.nodes.filter w.isVisited).Perm (s :: as.map t.network.headOf) := by
    refine (List.perm_ext_iff_of_nodup (List.nodup_range.filter _) h.grown.nodup).mpr fun v => ?_
    rw [List.mem_filter, h.isVisited_iff hempty, List.mem_cons, List.mem_map]
    refine and_iff_right_of_imp fun hv => List.mem_range.mpr ?_
    exact (h.labeled v ((h.isVisited_iff hempty).mpr hv)).1
  rw [(hperm.map w.distOf).sum_eq, List.map_cons, List.sum_cons, h.source.2.2, zero_add,
    List.map_map, Network.pathLength]
  exact congrArg List.sum (List.map_congr_left hcost)

end End

/-- **A minimum spanning tree.**  A traversal without limits whose labels are the costs of arcs,
over symmetric whole costs, ends by itself.  It labels exactly the component of its source among
the source and the marked nodes.  Any other node of the component hangs on an arc into it, and is
labeled with what this arc costs.  These arcs are a spanning tree of the component, and the labels
do not add up to more than any spanning tree costs. -/
theorem run_spanningTree (hnet : t.network.Built) (hlabeling : t.labeling = .attachment)
    (hlimits : t.limits = {})
    (hcost : ∀ a, a < t.network.arcCount →
      ∃ n : ℕ, t.costs a = some (n : ℚ) ∧ (n : ℚ) < Weight.faraway)
    (hsym : ∀ a, a < t.network.arcCount → t.costs (Arc.rev a) = t.costs a)
    (hs : s < t.network.nodeCount) (hw : w.Ready) (hroom : t.network.nodeCount ≤ w.capacity) :
    ∃ w', t.Ends [s] w .exhausted w' ∧ t.run [s] w = .ok (.exhausted, w') ∧
      (∀ v, (t.network.including s).IsReachable s v →
        w'.isVisited v = true ∧ w'.distOf v < Weight.faraway) ∧
      (∀ v, ¬ (t.network.including s).IsReachable s v →
        w'.isVisited v = false ∧ w'.distOf v = Weight.faraway) ∧
      w'.predOf s = none ∧ w'.distOf s = 0 ∧
      (∀ v, (t.network.including s).IsReachable s v → v ≠ s →
        ∃ a, w'.predOf v = some a ∧ a < t.network.arcCount ∧ t.network.headOf a = v ∧
          w'.distOf v = t.arcCost a) ∧
      (t.network.including s).IsSpanningTree s (labelEdges t.network w') ∧
      ∀ edges, (t.network.including s).IsSpanningTree s edges →
        ((t.network.nodes.filter w'.isVisited).map w'.distOf).sum ≤
          Network.edgesCost t.arcCost edges := by
  have ht : Attaches t := ⟨hnet.wellFormed, hlabeling, hlimits, hcost⟩
  have hg : (t.network.including s).WellFormed := hnet.wellFormed.setMark s true
  obtain ⟨w', as, hends, hrun, h, hempty⟩ := run_attaches ht hs hw hroom
  have hclosed := h.closed hempty ht hs
  have hreach : ∀ v, w'.isVisited v = true ↔ (t.network.including s).IsReachable s v := fun v =>
    (h.isVisited_iff hempty).trans (h.grown.visits_iff hclosed)
  refine ⟨w', hends, hrun, fun v hv => ?_, fun v hv => ?_, h.source.2.1, h.source.2.2,
    fun v hv hvs => ?_, ?_, fun edges hedges => ?_⟩
  · have hvisited := (hreach v).mpr hv
    exact ⟨hvisited, (h.labeled v hvisited).2.1⟩
  · have hblank : w'.isVisited v = false :=
      Bool.eq_false_iff.mpr fun hvis => hv ((hreach v).mp hvis)
    exact ⟨hblank, (h.blank v hblank).1⟩
  · obtain ⟨a, ha⟩ := h.hangs v ((hreach v).mpr hv) hvs
    exact ⟨a, ha.pred, ha.lt, ha.head, ha.dist⟩
  · rw [h.labelEdges_eq hempty]
    exact h.grown.isSpanningTree hg hclosed
  · rw [h.sum_labels hempty]
    exact h.grown.cost_le hg (fun a ha => (ht.isWhole ha).nonneg)
      (fun a ha => congrArg (·.getD 0) (hsym a ha))
      ((Network.isMarked_including hs).mpr (Or.inl rfl)) hedges

/-- On a triangle with edges of length 3, 1 and 1. -/
theorem run_spanningTree_on_triangle :
    let g₁ := ((Network.empty 3).pushArc 0 1 (3 : ℚ)).pushArc 1 0 3
    let g₂ := (g₁.pushArc 1 2 1).pushArc 2 1 1
    let g := (g₂.pushArc 0 2 1).pushArc 2 0 1
    let t : Traversal ℚ := ⟨g, .ofArray g.cost, .attachment, {}⟩
    ∃ w', t.Ends [0] (.fresh 3 0) .exhausted w' ∧ t.run [0] (.fresh 3 0) = .ok (.exhausted, w') ∧
      (g.including 0).IsSpanningTree 0 (labelEdges g w') ∧
      ∀ edges, (g.including 0).IsSpanningTree 0 edges →
        ((g.nodes.filter w'.isVisited).map w'.distOf).sum ≤
          Network.edgesCost t.arcCost edges := by
  intro g₁ g₂ g t
  have hadd₁ : (Network.empty 3).addArcPair 0 1 (3 : ℚ) 3 = .ok (0, g₁) := rfl
  have hadd₂ : g₁.addArcPair 1 2 1 1 = .ok (1, g₂) := by
    simp only [g₂, g₁]
    rfl
  have hadd₃ : g₂.addArcPair 0 2 1 1 = .ok (2, g) := by
    simp only [g, g₂, g₁]
    rfl
  have hbuilt : g.Built :=
    (((Network.Built.empty 3).addArcPair hadd₁).addArcPair hadd₂).addArcPair hadd₃
  have hcosts : ∀ a, a < g.arcCount → t.costs a = some ((3 : ℕ) : ℚ) ∨
      t.costs a = some ((1 : ℕ) : ℚ) := by
    intro a ha
    change a < 6 at ha
    interval_cases a
    exacts [.inl rfl, .inl rfl, .inr rfl, .inr rfl, .inr rfl, .inr rfl]
  have hcost : ∀ a, a < g.arcCount →
      ∃ n : ℕ, t.costs a = some (n : ℚ) ∧ (n : ℚ) < Weight.faraway := by
    rw [Weight.faraway_rat]
    intro a ha
    rcases hcosts a ha with h | h
    · exact ⟨3, h, by norm_num⟩
    · exact ⟨1, h, by norm_num⟩
  have hsym : ∀ a, a < g.arcCount → t.costs (Arc.rev a) = t.costs a := by
    intro a ha
    change a < 6 at ha
    interval_cases a <;> rfl
  obtain ⟨w', hends, hrun, -, -, -, -, -, htree, hleast⟩ :=
    run_spanningTree (t := t) (s := 0) hbuilt rfl rfl hcost hsym (by decide)
      (Workspace.fresh_ready 3 0) (by decide)
  exact ⟨w', hends, hrun, htree, hleast⟩

end Traversal

end SteinerSearch
