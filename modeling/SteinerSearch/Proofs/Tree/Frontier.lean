import SteinerSearch.Proofs.Tree.Steps

/-!
# The frontier of a growth

A splice leaves labels behind that were computed for a smaller tree.  They are never too
small, and those that are too large are not read before they are corrected: the nodes of
the branch wait at distance zero, and until the extracted node is as far away as the end of
a path out of the tree, either the end has a label as good as the path or some node of the
path waits before it.  So the growth goes on as a search from the grown tree would.

## Main definitions

* `Growth.Frontier c due s` — what holds between two steps, and inside a step as long as
  some arcs are due.
* `Growth.Sources vs w w'` — `w'` is `w` with the nodes `vs` waiting at distance zero.

## Main results

* `Growth.Frontier.settleNext` — every step keeps the invariant.
* `Growth.Frontier.reaches` — how far along a path out of the tree the search has got.
* `Growth.Sound.exists_path` — a label is no less than the length of its branch.
* `Growth.frontier_initial` — what a growth from the nodes of a tree starts with.
-/

namespace SteinerSearch

theorem Tree.lt_size_of_contains {t : Tree} {v : Nat} (hv : t.contains v = true) :
    v < t.connected.size := by
  by_contra hsize
  rw [Tree.contains, Array.getD_of_size_le (Nat.le_of_not_lt hsize)] at hv
  cases hv

theorem Tree.mem_nodes {t : Tree} {v : Nat} : v ∈ t.nodes ↔ t.contains v = true := by
  rw [Tree.nodes, List.mem_filter, List.mem_range]
  exact and_iff_right_of_imp Tree.lt_size_of_contains

namespace Growth

variable {c : Growth ℚ} {s s' : State ℚ} {k a v : Nat} {d : ℚ} {due : Nat → Prop}
  {vs : List Nat} {w w' : Workspace ℚ}

/-! ### The order of the queue -/

/-- Whole distances are apart, whatever waits. -/
theorem Sound.apart (h : Sound c s) (u v : Nat) :
    Weight.Apart (s.space.distOf u) (s.space.distOf v) :=
  (h.whole u).apart (h.whole v)

theorem Sound.ordered_relabel (hc : Measured c) (h : Sound c s) (hi : Improves c s a d)
    (hord : NodeQueue.Ordered s.space.distOf s.space.queue) :
    NodeQueue.Ordered (c.relabel a d s).space.distOf (c.relabel a d s).space.queue := by
  have hr := h.reopened (d := d) hc hi.arc
  have hroom : c.network.headOf a < s.space.queue.capacity := by
    rw [h.sized.queue]
    exact lt_of_lt_of_le (hc.linked.head_lt a hi.arc) h.room
  have hqueue : (c.relabel a d s).space.queue =
      s.space.queue.reopen (c.relabel a d s).space.distOf (c.network.headOf a) := by
    change (s.space.setLabel _ d (some a)).queue.reopen _ _ = _
    rw [Workspace.queue_setLabel]
    rfl
  rw [hqueue]
  refine NodeQueue.ordered_reopen h.consistent hroom
    (fun u v _ _ => (h.relabel hc hi).apart u v) hr.dist_ne (fun _ => ?_) hord
  rw [hr.dist_self]
  exact hi.lower.le

theorem Sound.ordered_join (h : Sound c s) (hv : s.space.isVisited v = true)
    (hout : s.tree.contains v = false)
    (hord : NodeQueue.Ordered s.space.distOf s.space.queue) :
    NodeQueue.Ordered (Growth.join c.network v s).space.distOf
      (Growth.join c.network v s).space.queue := by
  have hroom : v < s.space.queue.capacity := by
    rw [h.sized.queue]
    exact h.lt_capacity hv
  exact NodeQueue.ordered_reopen h.consistent hroom (fun u v _ _ => (h.join hv hout).apart u v)
    (h.reopened_join hv).dist_ne (fun _ => h.dist_join_le hv v) hord

theorem Sound.ordered_joinAll (h : Sound c s) (hnodup : vs.Nodup)
    (hvs : ∀ u ∈ vs, s.space.isVisited u = true ∧ s.tree.contains u = false)
    (hord : NodeQueue.Ordered s.space.distOf s.space.queue) :
    NodeQueue.Ordered (Growth.joinAll c.network vs s).space.distOf
      (Growth.joinAll c.network vs s).space.queue := by
  induction vs generalizing s with
  | nil => exact hord
  | cons v vs ih =>
    obtain ⟨hv, hnodup⟩ := List.nodup_cons.mp hnodup
    obtain ⟨hvisited, hout⟩ := hvs v List.mem_cons_self
    refine ih (h.join hvisited hout) hnodup (fun u hu => ?_) (h.ordered_join hvisited hout hord)
    obtain ⟨huvis, huout⟩ := hvs u (List.mem_cons_of_mem v hu)
    refine ⟨huvis, ?_⟩
    rw [contains_join_of_ne, huout]
    rintro rfl
    exact hv hu

theorem Sound.ordered_connect (h : Sound c s) (hk : s.space.isVisited k = true)
    (hord : NodeQueue.Ordered s.space.distOf s.space.queue) :
    NodeQueue.Ordered (c.connect k s).space.distOf (c.connect k s).space.queue := by
  obtain ⟨vs, hbranch⟩ := h.branch k hk
  have hvisited := h.isVisited_of_branch hbranch hk
  rw [h.connect_eq hk hbranch]
  exact h.ordered_joinAll hbranch.nodup
    (fun u hu => ⟨hvisited u hu, Bool.eq_false_iff.mpr (hbranch.not_stop u hu)⟩) hord

theorem Sound.ordered_popMin? (h : Sound c s) (hpop : s.space.popMin? = some (k, w))
    (hord : NodeQueue.Ordered s.space.distOf s.space.queue) :
    NodeQueue.Ordered w.distOf w.queue := by
  obtain ⟨q, hq, rfl⟩ := Workspace.popMin?_eq_some hpop
  exact NodeQueue.ordered_popMin? h.consistent (fun u v _ _ => h.apart u v) hord hq

/-! ### The invariant -/

/-- A node at this distance is not worth connecting for itself. -/
def Declined (c : Growth ℚ) (v : Nat) (d : ℚ) : Prop :=
  c.network.isRequired v = false ∧
    (c.rule = .profitable .targetOnly → c.network.isPseudo v = true → c.network.prizeOf v < d)

/-- What is settled and not connected was declined. -/
theorem declined_of_isWorth {t : Tree} (h : c.isWorth w t k = false) :
    Declined c k (w.distOf k) := by
  rw [isWorth, Bool.or_eq_false_iff] at h
  refine ⟨h.1, fun hrule hpseudo => ?_⟩
  have hworth := h.2
  have htol := Weight.tolerance_pos
  simp only [hrule, hpseudo, Bool.true_and, creditedPrize] at hworth
  rw [← Bool.not_eq_true, Weight.atLeast_rat, not_le] at hworth
  linarith

/-- What holds between two steps.  Inside a step some arcs are due: their heads may still
get a better label. -/
structure Frontier (c : Growth ℚ) (due : Nat → Prop) (s : State ℚ) : Prop extends
    Sound c s where
  ordered : NodeQueue.Ordered s.space.distOf s.space.queue
  used : Used c due s
  /-- A node that was settled is in the tree or was declined at its distance. -/
  declined : ∀ v, s.space.isVisited v = true → ¬ s.space.queue.Waits v →
    s.tree.contains v = false → Declined c v (s.space.distOf v)
  /-- No label is over an arc out of a required terminal outside the tree. -/
  clear : ∀ v a, s.space.isVisited v = true → s.tree.contains v = false →
    s.space.predOf v = some a → s.tree.contains (c.network.tailOf a) = true ∨
      c.network.isRequired (c.network.tailOf a) = false
  bound : s.bound = c.prizeBound s.tree

/-- An arc that was taken is no longer due. -/
theorem Frontier.take (hc : Measured c) (h : Frontier c due s) (ht : Took c a s s')
    (htail : s.tree.contains (c.network.tailOf a) = true ∨
      c.network.isRequired (c.network.tailOf a) = false) :
    Frontier c (fun b => due b ∧ b ≠ a) s' := by
  have hused := h.used.take hc h.toSound ht
  cases ht with
  | kept _ => exact { h with used := hused }
  | @labeled d hi =>
    have hr := h.toSound.reopened (d := d) hc hi.arc
    refine { h.toSound.relabel hc hi with
      ordered := h.toSound.ordered_relabel hc hi h.ordered
      used := hused
      declined := fun v hv hwaits hout => ?_
      clear := fun v b hv hout hpred => ?_
      bound := h.bound }
    · obtain ⟨hne, hv, hwaits⟩ := h.toSound.of_not_waits_relabel hc hi hv hwaits
      rw [hr.dist_ne v hne]
      exact h.declined v hv hwaits hout
    · by_cases hva : v = c.network.headOf a
      · rw [hva, hr.pred_self] at hpred
        obtain rfl := Option.some.inj hpred
        exact htail
      · rw [hr.visited_ne v hva] at hv
        rw [hr.pred_ne v hva] at hpred
        exact h.clear v b hv hout hpred

/-- After the extraction of a node that is not connected the arcs out of it are due. -/
theorem Frontier.popMin? (h : Frontier c (fun _ => False) s)
    (hpop : s.space.popMin? = some (k, w))
    (hworth : s.tree.contains k = false → c.isWorth w s.tree k = false) :
    Frontier c (fun a => c.network.tailOf a = k) { s with space := w } := by
  have hord := h.toSound.ordered_popMin? hpop h.ordered
  have hused := h.used.popMin? h.toSound hpop
  obtain ⟨hsound, -, q, rfl, hex⟩ := h.toSound.popMin? hpop
  refine { hsound with
    ordered := hord
    used := hused
    declined := fun v hv hwaits hout => ?_
    clear := h.clear
    bound := h.bound }
  by_cases hvk : v = k
  · subst hvk
    exact declined_of_isWorth (hworth hout)
  · exact h.declined v hv (fun hw => hwaits ((hex.waits v).mpr ⟨hw, hvk⟩)) hout

/-- Once the arcs out of a node were taken, no arc is due. -/
theorem Frontier.expand (hc : Measured c) (h : Frontier c (fun a => c.network.tailOf a = k) s)
    (hk : s.space.isVisited k = true)
    (htail : s.tree.contains k = true ∨ c.network.isRequired k = false) :
    ∃ s', c.expand k s = .more s' ∧ Frontier c (fun _ => False) s' ∧ s'.tree = s.tree := by
  have hexpand := h.toSound.expand hc hk
    (J := fun done s' => Frontier c (fun a => c.network.tailOf a = k ∧ a ∉ done) s' ∧
      s'.tree = s.tree) ⟨?_, rfl⟩ ?_
  · obtain ⟨s', hexpand, -, hfrontier, htree⟩ := hexpand
    exact ⟨s', hexpand, { hfrontier with used := hfrontier.used.of_expand hc }, htree⟩
  · exact { h with used := h.used.mono fun a ha => ⟨ha, List.not_mem_nil⟩ }
  · rintro done a s₁ s₂ - - rfl - ⟨hs₁, htree⟩ htook
    have hs₂ := hs₁.take hc htook (htree ▸ htail)
    refine ⟨{ hs₂ with used := hs₂.used.mono fun b hb => ?_ }, htook.tree.trans htree⟩
    rw [List.mem_append, List.mem_singleton, not_or]
    exact ⟨hb.1.1, hb.1.2, hb.2⟩

/-- With a whole branch in the tree, whose nodes all wait, nothing is due. -/
theorem Frontier.connect (h : Frontier c (fun _ => False) s)
    (hpop : s.space.popMin? = some (k, w)) (hout : s.tree.contains k = false) :
    Frontier c (fun _ => False) (c.connect k { s with space := w }) := by
  have hord := h.toSound.ordered_popMin? hpop h.ordered
  have hused := h.used.popMin? h.toSound hpop
  obtain ⟨hsound, hk, q, rfl, hex⟩ := h.toSound.popMin? hpop
  obtain ⟨vs, hbranch, hmem, hs', hj, -⟩ := hsound.connect hk hout
  -- what is outside the tree after the branch has joined was outside before
  have houtside : ∀ {v},
      (c.connect k { s with space := { s.space with queue := q } }).tree.contains v = false →
        v ∉ vs ∧ s.tree.contains v = false := by
    intro v hv
    rw [← Bool.not_eq_true, hj.contains, not_or, Bool.not_eq_true] at hv
    exact hv
  refine { hs' with
    ordered := hsound.ordered_connect hk hord
    used := hused.connect hj hmem
    declined := fun v hv hwaits hvout => ?_
    clear := fun v a hv hvout hpred => ?_
    bound := rfl }
  · obtain ⟨hnot, hv, hwaits⟩ := hj.of_not_waits hv hwaits
    rw [hj.dist_ne v hnot]
    refine h.declined v hv (fun hw => hwaits ?_) (houtside hvout).2
    refine (hex.waits v).mpr ⟨hw, ?_⟩
    rintro rfl
    exact hnot hmem
  · obtain ⟨-, hvout⟩ := houtside hvout
    rw [(hj.visited v).trans rfl] at hv
    rw [hsound.predOf_connect hk] at hpred
    exact (h.clear v a hv hvout hpred).imp_left fun htail => (hj.contains _).mpr (Or.inr htail)

/-- Every step keeps the invariant. -/
theorem Frontier.settleNext (hc : Measured c) (h : Frontier c (fun _ => False) s)
    (hstep : c.settleNext s = .more s') : Frontier c (fun _ => False) s' := by
  have hmove := settleNext_cases c s
  rw [hstep] at hmove
  cases hmove with
  | joins hpop _ hout _ => exact h.connect hpop hout
  | @expands k w _ hpop _ hworth hexpand =>
    obtain ⟨-, hk, -⟩ := h.toSound.popMin? hpop
    have htail : s.tree.contains k = true ∨ c.network.isRequired k = false := by
      by_cases hin : s.tree.contains k = true
      · exact Or.inl hin
      · exact Or.inr (declined_of_isWorth (hworth (Bool.eq_false_iff.mpr hin))).1
    obtain ⟨s₁, hs₁, hfrontier, -⟩ := (h.popMin? hpop hworth).expand hc hk htail
    rw [hs₁, Progress.more.injEq] at hexpand
    exact hexpand ▸ hfrontier

/-! ### Paths out of the tree -/

/-- Along a marked path out of the tree the search has got to the end, or waits on the
way. -/
theorem Frontier.reaches (hc : Measured c) (h : Frontier c (fun _ => False) s) {u : Nat}
    (hu : s.tree.contains u = true) {as : List Nat} :
    ∀ {v}, c.network.IsMarkedPath u as v →
      s.space.distOf v ≤ Network.pathLength c.arcCost as ∨
        ∃ x, s.space.queue.Waits x ∧ s.space.distOf x ≤ Network.pathLength c.arcCost as := by
  induction as using List.reverseRecOn with
  | nil =>
    intro v hpath
    obtain rfl := Network.isMarkedPath_nil.mp hpath
    rw [h.joined _ hu, Network.pathLength_nil]
    exact Or.inl le_rfl
  | append_singleton as a ih =>
    intro v hpath
    obtain ⟨hprev, ha, rfl, hmark⟩ := Network.isMarkedPath_concat.mp hpath
    have hcost := hc.nonneg ha
    rw [Network.pathLength_concat]
    rcases ih hprev with htail | ⟨x, hx, hle⟩
    · cases hv : s.space.isVisited (c.network.tailOf a) with
      | true =>
        by_cases hwaits : s.space.queue.Waits (c.network.tailOf a)
        · exact Or.inr ⟨_, hwaits, by linarith⟩
        · have hused := h.used a ha not_false hv hwaits hmark
          exact Or.inl (by linarith)
      | false =>
        -- the tail is as far away as can be, and so is the path
        rw [(h.blank _ hv).1] at htail
        have hnear := h.near (c.network.headOf a)
        exact Or.inl (by linarith)
    · exact Or.inr ⟨x, hx, by linarith⟩

/-- The node that would be extracted has the smallest distance. -/
theorem Frontier.peekMin?_le (h : Frontier c due s) (hpeek : s.space.queue.peekMin? = some k)
    {x : Nat} (hx : s.space.queue.Waits x) : s.space.distOf k ≤ s.space.distOf x := by
  obtain ⟨i, hi, his, rfl⟩ := hx
  rw [NodeQueue.peekMin?, if_neg (by omega), Option.some.injEq] at hpeek
  rw [← hpeek]
  exact h.ordered.top_le hi his

/-- A path out of the tree is no shorter than the label of its end, or than the label of the
node that is extracted. -/
theorem Frontier.popMin?_reaches (hc : Measured c) (h : Frontier c (fun _ => False) s)
    (hpop : s.space.popMin? = some (k, w)) {u : Nat} (hu : s.tree.contains u = true)
    {as : List Nat} (hpath : c.network.IsMarkedPath u as v) :
    s.space.distOf v ≤ Network.pathLength c.arcCost as ∨
      s.space.distOf k ≤ Network.pathLength c.arcCost as := by
  rcases h.reaches hc hu hpath with hv | ⟨x, hx, hle⟩
  · exact Or.inl hv
  · exact Or.inr ((h.peekMin?_le (Workspace.peekMin?_of_popMin? hpop) hx).trans hle)

/-- A label is no less than the length of its branch, which is a marked path from the
tree. -/
theorem Sound.exists_path (h : Sound c s) {vs : List Nat}
    (hbranch : Branch c.network s v vs) (hv : s.space.isVisited v = true) :
    ∃ u as, s.tree.contains u = true ∧ c.network.IsMarkedPath u as v ∧
      Network.pathLength c.arcCost as ≤ s.space.distOf v ∧
      as.map c.network.headOf = vs.reverse ∧
      ∀ a ∈ as, s.space.predOf (c.network.headOf a) = some a := by
  induction vs generalizing v with
  | nil =>
    cases hbranch with
    | stop hin =>
      exact ⟨v, [], hin, Network.isMarkedPath_nil.mpr rfl, (h.whole v).nonneg, rfl,
        fun a ha => absurd ha List.not_mem_nil⟩
  | cons x vs ih =>
    cases hbranch with
    | cons hout hnext hrest =>
      obtain ⟨a, hpred, ha, hhead, hmark, htail, hle⟩ :=
        h.entered x hv (Bool.eq_false_iff.mpr hout)
      rw [hpred] at hnext
      obtain rfl := Option.some.inj hnext
      obtain ⟨u, as, hu, hpath, hlen, hheads, hpreds⟩ := ih hrest htail
      refine ⟨u, as ++ [a], hu, Network.isMarkedPath_concat.mpr ⟨hpath, ha, hhead, hmark⟩, ?_, ?_,
        fun b hb => ?_⟩
      · rw [Network.pathLength_concat]
        linarith
      · rw [List.map_append, hheads, List.reverse_cons, List.map_singleton, hhead]
      · rcases List.mem_append.mp hb with hb | hb
        · exact hpreds b hb
        · rw [List.mem_singleton.mp hb, hhead, hpred]

/-- The only required terminal on a branch is the node it leads to. -/
theorem Frontier.eq_of_isRequired (h : Frontier c due s) {vs : List Nat}
    (hbranch : Branch c.network s k vs) (hk : s.space.isVisited k = true) {u : Nat}
    (hu : u ∈ vs) (hreq : c.network.isRequired u = true) : u = k := by
  rcases hbranch.prev_of_mem hu with rfl | ⟨x, hx, hnext⟩
  · rfl
  · -- otherwise some label on the branch would be over an arc out of it
    obtain ⟨a, hpred, rfl⟩ := Option.map_eq_some_iff.mp hnext
    have hvisited := h.toSound.isVisited_of_branch hbranch hk x hx
    rcases h.clear x a hvisited (Bool.eq_false_iff.mpr (hbranch.not_stop x hx)) hpred with
      htail | htail
    · exact absurd htail (hbranch.not_stop _ hu)
    · rw [hreq] at htail
      cases htail

/-! ### The start -/

/-- `w'` is `w` with the nodes `vs` waiting at distance zero, where `w` is blank. -/
structure Sources (vs : List Nat) (w w' : Workspace ℚ) : Prop where
  sized : w'.Sized
  capacity : w'.capacity = w.capacity
  consistent : w'.queue.Consistent
  ordered : NodeQueue.Ordered w'.distOf w'.queue
  unsettled : ∀ v, w'.isSettled v = false
  dist : ∀ v, w'.distOf v = if v ∈ vs then 0 else Weight.faraway
  visited : ∀ v, w'.isVisited v = true ↔ v ∈ vs
  waits : ∀ v, w'.queue.Waits v ↔ v ∈ vs

theorem sources_nil (hw : w.Ready) : Sources [] w w where
  sized := hw.sized
  capacity := rfl
  consistent := hw.consistent
  ordered := NodeQueue.ordered_of_size hw.size_queue
  unsettled v := hw.isSettled_eq v
  dist v := by
    rw [if_neg List.not_mem_nil]
    exact hw.distOf_eq v
  visited v := by
    rw [hw.isVisited_eq]
    simp
  waits v := iff_of_false (NodeQueue.not_waits_of_size hw.size_queue v) List.not_mem_nil

theorem Sources.whole (h : Sources vs w w') (v : Nat) : Weight.IsWhole (w'.distOf v) := by
  rw [h.dist]
  split
  · exact Weight.isWhole_zero
  · exact Weight.isWhole_faraway

/-- One more node of the tree is labeled. -/
theorem Sources.seed (h : Sources vs w w') (hv : v < w.capacity) :
    ∃ w'', seed w' v = .ok w'' ∧ Sources (vs ++ [v]) w w'' := by
  rw [← h.capacity] at hv
  have hr := Workspace.relabeled_enqueue (d := 0) (p := none) h.sized h.consistent hv
    (h.unsettled v)
  refine ⟨_, by rw [Growth.seed, checkNode, if_pos hv]; rfl, ?_⟩
  have hdist : ∀ u, ((w'.setLabel v 0 none).enqueue v).distOf u =
      if u ∈ vs ++ [v] then 0 else Weight.faraway := by
    intro u
    by_cases huv : u = v
    · rw [huv, hr.dist_self, if_pos (by simp)]
    · rw [hr.dist_ne u huv, h.dist]
      simp [huv]
  have hwhole : ∀ u, Weight.IsWhole (((w'.setLabel v 0 none).enqueue v).distOf u) := by
    intro u
    rw [hdist]
    split
    · exact Weight.isWhole_zero
    · exact Weight.isWhole_faraway
  exact
    { sized := hr.sized
      capacity := hr.capacity.trans h.capacity
      consistent := hr.queued.consistent
      ordered := by
        rw [hr.queue]
        refine NodeQueue.ordered_insert h.consistent (by rwa [h.sized.queue])
          (Workspace.stateOf_ne_settled (h.unsettled v))
          (fun x y _ _ => (hwhole x).apart (hwhole y)) hr.dist_ne (fun _ => ?_) h.ordered
        rw [hr.dist_self]
        exact (h.whole v).nonneg
      unsettled := fun u => (hr.settled u).trans (h.unsettled u)
      dist := hdist
      visited := fun u => by
        rw [List.mem_append, List.mem_singleton]
        by_cases huv : u = v
        · rw [huv]
          exact iff_of_true hr.visited_self (Or.inr rfl)
        · rw [hr.visited_ne u huv, h.visited, or_iff_left huv]
      waits := fun u => by
        rw [hr.queued.waits, h.waits, List.mem_append, List.mem_singleton] }

/-- All nodes of a tree can be labeled. -/
theorem seeds_ok (hw : w.Ready) (hvs : ∀ v ∈ vs, v < w.capacity) :
    ∃ w', vs.foldlM seed w = .ok w' ∧ Sources vs w w' := by
  refine foldlM_ok (J := fun done w' => Sources done w w') vs (fun done v w' hdone h => ?_)
    (sources_nil hw)
  exact h.seed (hvs v (mem_of_appended hdone))

/-- A growth starts with the nodes of its tree waiting at distance zero, so that no arc was
used and no node was declined. -/
theorem frontier_initial {t : Tree} (ht : t.Sized c.network.nodeCount)
    (hroom : c.network.nodeCount ≤ w.capacity) (h : Sources vs w w')
    (hvs : ∀ v, v ∈ vs ↔ t.contains v = true) :
    Frontier c (fun _ => False) (c.initial t w') := by
  have hfar := Weight.isWhole_faraway.nonneg
  have hwaits : ∀ {v}, w'.isVisited v = true → w'.queue.Waits v := fun hv =>
    (h.waits _).mpr ((h.visited _).mp hv)
  have hin : ∀ {v}, w'.isVisited v = true → t.contains v = true := fun hv =>
    (hvs _).mp ((h.visited _).mp hv)
  exact
    { sized := h.sized
      room := h.capacity ▸ hroom
      treeSized := ht
      consistent := h.consistent
      whole := h.whole
      near := fun v => by
        change w'.distOf v ≤ _
        rw [h.dist]
        split
        · exact hfar
        · exact le_rfl
      blank := fun v hv => by
        have hnot : v ∉ vs := fun hmem =>
          Bool.false_ne_true (hv.symm.trans ((h.visited v).mpr hmem))
        refine ⟨?_, mt (h.waits v).mp hnot, Bool.eq_false_iff.mpr (mt (hvs v).mpr hnot)⟩
        exact (h.dist v).trans (if_neg hnot)
      node := fun v hv => by
        rw [← ht.connected]
        exact Tree.lt_size_of_contains (hin hv)
      joined := fun v hv => (h.dist v).trans (if_pos ((hvs v).mpr hv))
      entered := fun v hv hout => absurd (hout.symm.trans (hin hv)) Bool.false_ne_true
      branch := fun v hv => ⟨[], .stop (hin hv)⟩
      count := rfl
      ordered := h.ordered
      used := fun a _ _ hv hwait _ => absurd (hwaits hv) hwait
      declined := fun v hv hwait _ => absurd (hwaits hv) hwait
      clear := fun v a hv hout _ => absurd (hout.symm.trans (hin hv)) Bool.false_ne_true
      bound := rfl }

/-- A growth from a node is one from the tree of this node alone. -/
theorem frontier_start {start : Nat} (hw : w.Ready) (hroom : c.network.nodeCount ≤ w.capacity)
    (hstart : start < c.network.nodeCount) :
    ∃ w', seed w start = .ok w' ∧ Frontier c (fun _ => False)
      (c.initial ((Tree.empty c.network.nodeCount).connect start none) w') := by
  have hsized := Tree.sized_empty c.network.nodeCount
  obtain ⟨w', hseed, hsources⟩ := (sources_nil hw).seed (lt_of_lt_of_le hstart hroom)
  refine ⟨w', hseed, frontier_initial hsized.connect hroom hsources fun v => ?_⟩
  rw [Tree.contains_start hstart, List.nil_append, List.mem_singleton]

end Growth

end SteinerSearch
