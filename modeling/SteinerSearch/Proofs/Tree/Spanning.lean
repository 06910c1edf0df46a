import SteinerSearch.Proofs.Tree.Forests

/-!
# Grown trees

A growth ends by itself.  It leaves a tree rooted at its start, with every required
terminal that can be reached in it, and says how many cannot be.

## Main definitions

* `Growth.Joining c s₀ v s` — in a growth from `s₀`, node `v` is to join in state `s`.
* `Growth.Closed c start due s` — what holds between two steps, and inside a step as long
  as some arcs are due.

## Main results

* `Growth.Closed.settleNext` — every step keeps the invariant.
* `Growth.Closed.dist_le` — when nothing waits, no marked path is shorter than the label of
  its end.
* `Growth.growFrom_spans` — a grown tree is rooted and spans what can be reached.
-/

namespace SteinerSearch

namespace Growth

/-- In a growth from `s₀`, node `v` is to join in state `s` unless it is in the tree: it was
extracted, or the node that joined before it is labeled over an arc out of it. -/
inductive Joining {α : Type} [Weight α] (c : Growth α) (s₀ : State α) : Nat → State α → Prop
  /-- The first node of a branch was extracted. -/
  | first {s : State α} {k : Nat} {w : Workspace α} (hs : Progress.Reached c.settleNext s₀ s)
      (hpop : s.space.popMin? = some (k, w)) : Joining c s₀ k { s with space := w }
  /-- The next node of a branch is found at the tail of an arc. -/
  | next {s : State α} {v a : Nat} (hv : Joining c s₀ v s) (hopen : s.tree.contains v = false)
      (hpred : s.space.predOf v = some a) :
      Joining c s₀ (c.network.tailOf a) (join c.network v s)

variable {c : Growth ℚ} {s s' : State ℚ} {start : Nat} {due due' : Nat → Prop}

/-- What holds between two steps.  Inside a step some arcs are due: their heads may still
get a better label. -/
structure Closed (c : Growth ℚ) (start : Nat) (due : Nat → Prop) (s : State ℚ) : Prop extends
    Sound c s where
  rooted : s.tree.RootedAt c.network start
  /-- No other arc out of a settled node has a better label to give. -/
  used : ∀ a, a < c.network.arcCount → ¬ due a →
    s.space.isVisited (c.network.tailOf a) = true →
    ¬ s.space.queue.Waits (c.network.tailOf a) →
    c.network.isMarked (c.network.headOf a) = true →
    s.space.distOf (c.network.headOf a) ≤ s.space.distOf (c.network.tailOf a) + c.arcCost a
  /-- A required terminal that was settled is in the tree. -/
  required : ∀ v, s.space.isVisited v = true → c.network.isRequired v = true →
    ¬ s.space.queue.Waits v → s.tree.contains v = true

theorem Closed.mono (h : Closed c start due s) (hdue : ∀ a, due a → due' a) :
    Closed c start due' s :=
  { h with used := fun a ha hnot => h.used a ha fun hd => hnot (hdue a hd) }

/-! ### Taking an arc -/

/-- An arc that was taken is no longer due. -/
theorem Closed.took (hc : Measured c) (h : Closed c start due s) {a : Nat} (ht : Took c a s s') :
    Closed c start (fun b => due b ∧ b ≠ a) s' :=
  { ht.sound hc h.toSound with
    rooted := by
      rw [ht.tree]
      exact h.rooted
    used := Used.take hc h.toSound h.used ht
    required := fun v hv hreq hwaits => by
      obtain ⟨hv, hwaits⟩ := ht.of_not_waits hc h.toSound hv hwaits
      rw [ht.tree]
      exact h.required v hv hreq hwaits }

/-- Taking all arcs out of a node leaves no arc due. -/
theorem Closed.expand (hc : Measured c) {k : Nat}
    (h : Closed c start (fun a => c.network.tailOf a = k) s) (hk : s.space.isVisited k = true) :
    ∃ s', c.expand k s = .more s' ∧ Closed c start (fun _ => False) s' := by
  -- the arcs of `k` are discharged one after the other
  have hfold := h.toSound.expand hc hk
    (J := fun done s' => Closed c start (fun a => c.network.tailOf a = k ∧ a ∉ done) s')
    (h.mono fun a ha => ⟨ha, List.not_mem_nil⟩) ?_
  · obtain ⟨s', hexpand, -, hclosed⟩ := hfold
    exact ⟨s', hexpand, { hclosed with used := Used.of_expand hc hclosed.used }⟩
  · intro done a s₁ s₂ _ _ _ _ hclosed htook
    refine (hclosed.took hc htook).mono fun b hb => ?_
    rw [List.mem_append, List.mem_singleton, not_or]
    exact ⟨hb.1.1, hb.1.2, hb.2⟩

/-! ### One step -/

/-- After an extraction the arcs out of the extracted node are due, and the node itself if
it is required. -/
theorem Closed.popMin? (h : Closed c start (fun _ => False) s) {k : Nat} {w : Workspace ℚ}
    (hpop : s.space.popMin? = some (k, w))
    (hk : c.network.isRequired k = true → s.tree.contains k = true) :
    Closed c start (fun a => c.network.tailOf a = k) { s with space := w } := by
  have hused := Used.popMin? h.toSound h.used hpop
  obtain ⟨hsound, -, q, rfl, hex⟩ := h.toSound.popMin? hpop
  refine { hsound with
    rooted := h.rooted
    used := hused
    required := fun v hv hreq hwaits => ?_ }
  by_cases hvk : v = k
  · rw [hvk] at hreq ⊢
    exact hk hreq
  · exact h.required v hv hreq fun hw => hwaits ((hex.waits v).mpr ⟨hw, hvk⟩)

/-- With a whole branch in the tree, whose nodes all wait, nothing is due. -/
theorem Closed.connect (h : Closed c start (fun _ => False) s) {k : Nat} {w : Workspace ℚ}
    (hpop : s.space.popMin? = some (k, w)) (hout : s.tree.contains k = false) :
    Closed c start (fun _ => False) (c.connect k { s with space := w }) := by
  have hused := Used.popMin? h.toSound h.used hpop
  obtain ⟨hsound, hk, q, rfl, hex⟩ := h.toSound.popMin? hpop
  obtain ⟨vs, hbranch, hmem, hs', hj, -⟩ := hsound.connect hk hout
  refine { hs' with
    rooted := Tree.RootedAt.joined (s := { s with space := { s.space with queue := q } })
      h.rooted hsound hs' hbranch hk hj
    used := hused.connect hj hmem
    required := fun v hv hreq hwaits => ?_ }
  -- a node that does not wait was neither extracted nor on the branch
  obtain ⟨hnot, hv, hwaits⟩ := hj.of_not_waits hv hwaits
  refine (hj.contains v).mpr (Or.inr (h.required v hv hreq fun hw => hwaits ?_))
  refine (hex.waits v).mpr ⟨hw, ?_⟩
  rintro rfl
  exact hnot hmem

/-- Every step keeps the invariant. -/
theorem Closed.settleNext (hc : Measured c) (h : Closed c start (fun _ => False) s)
    (hstep : c.settleNext s = .more s') : Closed c start (fun _ => False) s' := by
  have hmove := settleNext_cases c s
  rw [hstep] at hmove
  cases hmove with
  | joins hpop _ hout _ => exact h.connect hpop hout
  | @expands k w _ hpop _ hworth hexpand =>
    -- a required node outside of the tree is worth connecting
    have hk : c.network.isRequired k = true → s.tree.contains k = true := by
      intro hreq
      by_contra hout
      have hdeclined := hworth (Bool.eq_false_iff.mpr hout)
      rw [isWorth, hreq, Bool.true_or] at hdeclined
      cases hdeclined
    obtain ⟨s₁, hs₁, hclosed⟩ := (h.popMin? hpop hk).expand hc (h.toSound.popMin? hpop).2.1
    rw [hs₁] at hexpand
    exact Progress.more.inj hexpand ▸ hclosed

/-- The last step finds that no required terminal is open, or that nothing waits. -/
theorem Closed.of_done (hc : Measured c) (h : Closed c start (fun _ => False) s)
    (hstep : c.settleNext s = .done () s') :
    s' = s ∧ (s.openRequired = 0 ∨ ∀ v, ¬ s.space.queue.Waits v) := by
  obtain ⟨heq, hempty | ⟨top, -, hover⟩⟩ := h.toSound.of_done hc hstep
  · exact ⟨heq, Or.inr hempty⟩
  · rw [isOver, Bool.and_eq_true, beq_iff_eq] at hover
    exact ⟨heq, Or.inl hover.1⟩

/-! ### The start -/

/-- The growth starts from a tree of one node, which has the only label. -/
theorem sound_start (hw : Workspace.Ready w) (hroom : c.network.nodeCount ≤ w.capacity)
    (hstart : start < c.network.nodeCount) {w₀ : Workspace ℚ}
    (hr : w.Relabeled start 0 none w₀) :
    Sound c (c.initial ((Tree.empty c.network.nodeCount).connect start none) w₀) := by
  have hsized := Tree.sized_empty c.network.nodeCount
  have hzero : (0 : ℚ) ≤ Weight.faraway := Weight.isWhole_faraway.nonneg
  have hcontains : ∀ {v}, ((Tree.empty c.network.nodeCount).connect start none).contains v = true ↔
      v = start := Tree.contains_start hstart
  have hdist : ∀ v, w₀.distOf v = 0 ∨ w₀.distOf v = Weight.faraway := by
    intro v
    by_cases hv : v = start
    · exact Or.inl (hv ▸ hr.dist_self)
    · exact Or.inr ((hr.dist_ne v hv).trans (hw.distOf_eq v))
  exact
    { sized := hr.sized
      room := hr.capacity ▸ hroom
      treeSized := hsized.connect
      consistent := hr.queued.consistent
      whole := fun v => by
        rcases hdist v with hv | hv
        · exact (congrArg Weight.IsWhole hv).mpr Weight.isWhole_zero
        · exact (congrArg Weight.IsWhole hv).mpr Weight.isWhole_faraway
      near := fun v => by
        rcases hdist v with hv | hv
        · exact hv.trans_le hzero
        · exact hv.le
      blank := fun v hv => by
        have hne : v ≠ start := fun heq =>
          Bool.false_ne_true (hv.symm.trans ((hr.isVisited_iff hw).mpr heq))
        exact ⟨(hr.dist_ne v hne).trans (hw.distOf_eq v), mt (hr.waits_iff hw).mp hne,
          Bool.eq_false_iff.mpr (mt hcontains.mp hne)⟩
      node := fun v hv => ((hr.isVisited_iff hw).mp hv).trans_lt hstart
      joined := fun v hv => hcontains.mp hv ▸ hr.dist_self
      entered := fun v hv hout => by
        have hin := hcontains.mpr ((hr.isVisited_iff hw).mp hv)
        exact absurd (hout.symm.trans hin) Bool.false_ne_true
      branch := fun v hv => ⟨[], .stop (hcontains.mpr ((hr.isVisited_iff hw).mp hv))⟩
      count := rfl }

/-- The one node that is labeled waits, so that no arc was used and no terminal settled. -/
theorem closed_start (hw : Workspace.Ready w) (hroom : c.network.nodeCount ≤ w.capacity)
    (hstart : start < c.network.nodeCount) :
    ∃ w₀, seed w start = .ok w₀ ∧ Closed c start (fun _ => False)
      (c.initial ((Tree.empty c.network.nodeCount).connect start none) w₀) := by
  have hcap : start < w.capacity := lt_of_lt_of_le hstart hroom
  have hr := hw.relabeled (d := 0) (p := none) hcap
  have hwaits : ∀ {v}, ((w.setLabel start 0 none).enqueue start).isVisited v = true →
      ((w.setLabel start 0 none).enqueue start).queue.Waits v := fun hv =>
    (hr.waits_iff hw).mpr ((hr.isVisited_iff hw).mp hv)
  refine ⟨(w.setLabel start 0 none).enqueue start, ?_, ?_⟩
  · rw [seed, checkNode, if_pos hcap]
    rfl
  · exact
      { sound_start hw hroom hstart hr with
        rooted := Tree.rootedAt_start hstart
        used := fun a _ _ htail hwait _ => absurd (hwaits htail) hwait
        required := fun v hv _ hwait => absurd (hwaits hv) hwait }

/-! ### The end -/

/-- When nothing waits, no marked path from the start is shorter than the label of its
end. -/
theorem Closed.dist_le (hc : Measured c) (h : Closed c start (fun _ => False) s)
    (hempty : ∀ v, ¬ s.space.queue.Waits v) {as : List Nat} :
    ∀ {v}, c.network.IsMarkedPath start as v →
      s.space.distOf v ≤ Network.pathLength c.arcCost as := by
  induction as using List.reverseRecOn with
  | nil =>
    intro v hpath
    obtain rfl := Network.isMarkedPath_nil.mp hpath
    rw [h.joined _ h.rooted.root.1, Network.pathLength_nil]
  | append_singleton as a ih =>
    intro v hpath
    obtain ⟨hprev, ha, rfl, hmark⟩ := Network.isMarkedPath_concat.mp hpath
    have htail := ih hprev
    have hcost := hc.nonneg ha
    rw [Network.pathLength_concat]
    cases hv : s.space.isVisited (c.network.tailOf a) with
    | true =>
      have hused := h.used a ha not_false hv (hempty _) hmark
      linarith
    | false =>
      -- the tail is as far away as can be, and so is the path
      rw [(h.blank _ hv).1] at htail
      have hnear := h.near (c.network.headOf a)
      linarith

/-- At the end the tree has the marked required terminals that can be reached, and no
others. -/
theorem Closed.contains_iff (hc : Measured c)
    (hreach : c.network.DistancesInReach c.arcCost) (h : Closed c start (fun _ => False) s)
    (hend : s.openRequired = 0 ∨ ∀ v, ¬ s.space.queue.Waits v) {v : Nat}
    (hv : v ∈ c.network.markedRequired) :
    s.tree.contains v = true ↔ c.network.IsReachable start v := by
  refine ⟨h.rooted.isReachable, ?_⟩
  rintro ⟨as, has⟩
  rcases hend with hzero | hempty
  · rw [h.count, openRequired, List.length_eq_zero_iff, List.filter_eq_nil_iff] at hzero
    simpa using hzero v hv
  · obtain ⟨d, hd⟩ := Network.exists_isDistance (fun a ha => hc.isWhole ha) has
    obtain ⟨u, hu, bs, hbs, hlen⟩ := hd.attained
    rw [List.mem_singleton] at hu
    subst hu
    have hlt : s.space.distOf v < Weight.faraway := by
      calc s.space.distOf v ≤ Network.pathLength c.arcCost bs := h.dist_le hc hempty hbs
        _ = d := hlen
        _ < Weight.faraway := hreach u v d hd
    have hvisited : s.space.isVisited v = true := by
      by_contra hnot
      rw [(h.blank v (Bool.eq_false_iff.mpr hnot)).1] at hlt
      exact lt_irrefl _ hlt
    exact h.required v hvisited (mem_markedRequired.mp hv).2.1 (hempty v)

/-- The counter is the number of marked required terminals that cannot be reached. -/
theorem Closed.openRequired_eq (hc : Measured c)
    (hreach : c.network.DistancesInReach c.arcCost) (h : Closed c start (fun _ => False) s)
    (hend : s.openRequired = 0 ∨ ∀ v, ¬ s.space.queue.Waits v) :
    ∃ missing : Finset ℕ, (∀ v, v ∈ missing ↔
      v ∈ c.network.markedRequired ∧ ¬ c.network.IsReachable start v) ∧
      missing.card = s.openRequired := by
  refine ⟨(c.network.markedRequired.filter fun v => !s.tree.contains v).toFinset,
    fun v => ?_, ?_⟩
  · rw [List.mem_toFinset, List.mem_filter, Bool.not_eq_true']
    refine and_congr_right fun hv => ?_
    rw [← h.contains_iff hc hreach hend hv, Bool.not_eq_true]
  · rw [h.count, List.toFinset_card_of_nodup ((nodup_markedRequired _).filter _)]
    rfl

/-- A node that is to join has a label. -/
theorem Joining.sound (hc : Measured c) {s₀ : State ℚ} {v : Nat}
    (h₀ : Closed c start (fun _ => False) s₀) (h : Joining c s₀ v s) :
    Sound c s ∧ s.space.isVisited v = true := by
  induction h with
  | first hs hpop =>
    have hclosed := hs.ensures (I := Closed c start fun _ => False) h₀ fun _ _ hs =>
      hs.settleNext hc
    obtain ⟨hsound, hk, q, rfl, -⟩ := hclosed.toSound.popMin? hpop
    exact ⟨hsound, hk⟩
  | next _ hopen hpred ih =>
    obtain ⟨hsound, hv⟩ := ih
    obtain ⟨b, hb, -, -, -, htail, -⟩ := hsound.entered _ hv hopen
    rw [hpred] at hb
    obtain rfl := Option.some.inj hb
    exact ⟨hsound.join hv hopen, htail⟩

/-- A growth from a state in which the invariant holds ends by itself, and long before its
fuel is used up. -/
theorem Closed.run_ends (hc : Measured c) (h : Closed c start (fun _ => False) s) :
    ∃ s', Progress.Ends c.settleNext s () s' ∧
      Progress.run c.settleNext () (fuel c.network) s = .ok ((), s') ∧
      Closed c start (fun _ => False) s' ∧
      (s'.openRequired = 0 ∨ ∀ v, ¬ s'.space.queue.Waits v) := by
  obtain ⟨s', hends, hrun, -⟩ := h.toSound.ends hc
  obtain ⟨s₁, hclosed, hdone⟩ := hends.ensures h fun _ _ hs => hs.settleNext hc
  obtain ⟨rfl, hend⟩ := hclosed.of_done hc hdone
  exact ⟨s', hends, hrun, hclosed, hend⟩

/-- What is left of a run that ends in `s`. -/
theorem grow_eq {t : Tree} {w : Workspace ℚ}
    (hrun : Progress.run c.settleNext () (fuel c.network) (c.initial t w) = .ok ((), s)) :
    c.grow t w = .ok { s with space := s.space.reset } := by
  -- the fuel is a number that must not be computed, so the run is kept out of the reduction
  have h : ∀ r, r = .ok ((), s) → (do
      let ((), s) ← r
      return { s with space := s.space.reset } : Except Fault (State ℚ)) =
        .ok { s with space := s.space.reset } := by
    rintro r rfl
    rfl
  exact h _ hrun

theorem growFrom_eq {w w₀ : Workspace ℚ} (hstart : start < c.network.nodeCount)
    (hseed : seed w start = .ok w₀)
    (hrun : Progress.run c.settleNext () (fuel c.network)
      (c.initial ((Tree.empty c.network.nodeCount).connect start none) w₀) = .ok ((), s)) :
    c.growFrom start w = .ok (.ofMissing s.openRequired, s.tree, s.space.reset) := by
  rw [growFrom, hseed, checkNode, if_pos hstart, ok_bind, ok_bind, grow_eq hrun, ok_bind]
  rfl

/-- The outcome is complete if nothing is missing. -/
theorem ofMissing_eq_complete_iff {n : Nat} : GrowthOutcome.ofMissing n = .complete ↔ n = 0 := by
  unfold GrowthOutcome.ofMissing
  split <;> simp_all

theorem eq_of_ofMissing_eq_unreachable {n k : Nat}
    (h : GrowthOutcome.ofMissing n = .unreachable k) : n = k := by
  unfold GrowthOutcome.ofMissing at h
  split at h
  · cases h
  · exact GrowthOutcome.unreachable.inj h

/-- A growth ends by itself, with a tree that is rooted at its start.  The count of open
terminals is positive whenever one joins, and the outcome says exactly whether the marked
required terminals can be reached, and how many cannot; those that can are in the tree. -/
theorem growFrom_spans {w : Workspace ℚ} (hnet : c.network.Built)
    (hcost : ∀ a, a < c.network.arcCount → ∃ n : ℕ, c.costs a = some (n : ℚ))
    (hreach : c.network.DistancesInReach c.arcCost) (hstart : start < c.network.nodeCount)
    (hw : w.Ready) (hroom : c.network.nodeCount ≤ w.capacity) :
    ∃ w₀ s outcome, seed w start = .ok w₀ ∧
      Progress.Ends c.settleNext
        (c.initial ((Tree.empty c.network.nodeCount).connect start none) w₀) () s ∧
      c.growFrom start w = .ok (outcome, s.tree, s.space.reset) ∧
      s.tree.RootedAt c.network start ∧
      (∀ v s', Joining c
          (c.initial ((Tree.empty c.network.nodeCount).connect start none) w₀) v s' →
        s'.tree.contains v = false → c.network.isRequired v = true → 0 < s'.openRequired) ∧
      (outcome = .complete ↔
        ∀ v ∈ c.network.markedRequired, c.network.IsReachable start v) ∧
      (∀ k, outcome = .unreachable k → ∃ missing : Finset ℕ, missing.card = k ∧ ∀ v,
        v ∈ missing ↔ v ∈ c.network.markedRequired ∧ ¬ c.network.IsReachable start v) ∧
      ∀ v ∈ c.network.markedRequired, c.network.IsReachable start v →
        s.tree.contains v = true := by
  have hc : Measured c := ⟨hnet.wellFormed.toLinked, hcost⟩
  obtain ⟨w₀, hseed, hclosed₀⟩ := closed_start hw hroom hstart
  obtain ⟨s, hends, hrun, hclosed, hend⟩ := hclosed₀.run_ends hc
  obtain ⟨missing, hmissing, hcard⟩ := hclosed.openRequired_eq hc hreach hend
  refine ⟨w₀, s, .ofMissing s.openRequired, hseed, hends, ?_, hclosed.rooted,
    fun v s' hjoining hopen hreq => ?_, ?_, fun k hk => ⟨missing, ?_, hmissing⟩,
    fun v hv => (hclosed.contains_iff hc hreach hend hv).mpr⟩
  · exact growFrom_eq hstart hseed hrun
  · obtain ⟨hsound, hv⟩ := hjoining.sound hc hclosed₀
    exact hsound.openRequired_pos hv hopen hreq
  · rw [ofMissing_eq_complete_iff, ← hcard, Finset.card_eq_zero]
    constructor
    · intro hnone v hv
      by_contra hnot
      have hmem := (hmissing v).mpr ⟨hv, hnot⟩
      rw [hnone] at hmem
      exact Finset.notMem_empty v hmem
    · intro hall
      refine Finset.eq_empty_of_forall_notMem fun v hv => ?_
      obtain ⟨hmem, hnot⟩ := (hmissing v).mp hv
      exact hnot (hall v hmem)
  · rw [hcard, eq_of_ofMissing_eq_unreachable hk]

/-- From node 0 over an edge of length 3 to the terminal 1. -/
theorem growFrom_spans_on_edge :
    let g₀ := ((Network.empty 2).pushArc 0 1 (3 : ℚ)).pushArc 1 0 3
    let g := { g₀ with kind := #[.steiner, .proper] }
    let c : Growth ℚ := ⟨g, .ofArray g.cost, .required⟩
    ∃ (outcome : GrowthOutcome) (s : State ℚ),
      c.growFrom 0 (.fresh 2 0) = .ok (outcome, s.tree, s.space.reset) ∧
      s.tree.RootedAt g 0 ∧ s.tree.contains 1 = true := by
  intro g₀ g c
  have hadd : (Network.empty 2).addArcPair 0 1 (3 : ℚ) 3 = .ok (0, g₀) := rfl
  have hkind : g₀.setTerminal 1 .proper = .ok g := rfl
  have hcost : ∀ a, a < g.arcCount → ∃ n : ℕ, c.costs a = some (n : ℚ) := by
    intro a ha
    change a < 2 at ha
    obtain rfl | rfl : a = 0 ∨ a = 1 := by omega
    · exact ⟨3, rfl⟩
    · exact ⟨3, rfl⟩
  have hreach : g.DistancesInReach c.arcCost := by
    refine Network.distancesInReach_of_sum (fun a ha => ?_) ?_
    · obtain ⟨n, hn⟩ := hcost a ha
      rw [arcCost, hn, Option.getD_some]
      exact Nat.cast_nonneg n
    · change (3 : ℚ) + (3 + 0) < 1000000000000000
      norm_num
  have hbuilt : c.network.Built := ((Network.Built.empty 2).addArcPair hadd).setTerminal hkind
  have hstart : 0 < c.network.nodeCount := by decide
  obtain ⟨w₀, s, outcome, -, -, hgrow, hrooted, -, -, -, hspans⟩ :=
    growFrom_spans hbuilt hcost hreach hstart (Workspace.fresh_ready 2 0) (by decide)
  have hpath : g.IsReachable 0 1 :=
    ⟨[0], Network.isMarkedPath_cons.mpr
      ⟨⟨by decide, rfl⟩, rfl, Network.isMarkedPath_nil.mpr rfl⟩⟩
  exact ⟨outcome, s, hgrow, hrooted, hspans 1 (by decide) hpath⟩

end Growth

end SteinerSearch
