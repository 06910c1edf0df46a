import SteinerSearch.Proofs.Stepping
import SteinerSearch.Proofs.Tree.Rooted

/-!
# The steps of a growth

A step extracts a node, and either connects it or takes the arcs out of it.  What that
comes to is said here once, for every rule: what holds of a state is then kept by a growth
if one arc that is taken keeps it and one branch that joins does.

## Main definitions

* `Growth.connect c k s` — `s` with the branch of `k` in the tree.
* `Growth.Move c s p` — a step from `s` comes to `p`.
* `Growth.Took c a s s'` — taking the arc `a` in `s` comes to `s'`.
* `Growth.Used c due s` — only the arcs that are due can have a better label to give.

## Main results

* `Growth.settleNext_cases` — there are four things a step can do.
* `Growth.Sound.take`, `Growth.Sound.expand` — the arcs out of a node are taken one by one.
* `Growth.Sound.ends` — every growth ends by itself.
-/

namespace SteinerSearch

namespace Progress

/-- What every step keeps holds before the last one. -/
theorem Ends.ensures {σ ω : Type} {step : σ → Progress σ ω} {I : σ → Prop} {s s' : σ} {a : ω}
    (h : Ends step s a s') (start : I s) (more : ∀ s s', I s → step s = .more s' → I s') :
    ∃ s₁, I s₁ ∧ step s₁ = .done a s' := by
  induction h with
  | done h => exact ⟨_, start, h⟩
  | more h _ ih => exact ih (more _ _ start h)

end Progress

/-- The node that is extracted is the one that would be. -/
theorem Workspace.peekMin?_of_popMin? {α : Type} [Weight α] {w w' : Workspace α} {k : Nat}
    (h : w.popMin? = some (k, w')) : w.queue.peekMin? = some k := by
  obtain ⟨q, hq, -⟩ := Workspace.popMin?_eq_some h
  obtain ⟨top, htop, heq⟩ := Option.map_eq_some_iff.mp hq
  rw [htop, (Prod.mk.injEq ..).mp heq |>.1]

namespace Growth

variable {c : Growth ℚ} {s s' : State ℚ} {k a : Nat} {d : ℚ} {due : Nat → Prop}

/-! ### The cases of a step -/

/-- The state in which the branch of `k` has joined the tree. -/
def connect (c : Growth ℚ) (k : Nat) (s : State ℚ) : State ℚ :=
  let s' := splice c.network c.network.nodeCount k s
  { s' with bound := c.prizeBound s'.tree }

/-- What a step can come to. -/
inductive Move (c : Growth ℚ) (s : State ℚ) : Progress (State ℚ) Unit → Prop
  /-- Nothing waits. -/
  | idle (hempty : ∀ v, ¬ s.space.queue.Waits v) : Move c s (.done () s)
  /-- Nothing that waits can be worth connecting. -/
  | givesUp {top : Nat} (hpeek : s.space.queue.peekMin? = some top)
      (hover : c.isOver s top = true) : Move c s (.done () s)
  /-- The extracted node is connected. -/
  | joins {k : Nat} {w : Workspace ℚ} (hpop : s.space.popMin? = some (k, w))
      (hgoing : c.isOver s k = false) (hout : s.tree.contains k = false)
      (hworth : c.isWorth w s.tree k = true) :
      Move c s (.more (c.connect k { s with space := w }))
  /-- The arcs out of the extracted node are taken. -/
  | expands {k : Nat} {w : Workspace ℚ} {p : Progress (State ℚ) Unit}
      (hpop : s.space.popMin? = some (k, w)) (hgoing : c.isOver s k = false)
      (hworth : s.tree.contains k = false → c.isWorth w s.tree k = false)
      (hexpand : c.expand k { s with space := w } = p) : Move c s p

/-- There are four things a step can do. -/
theorem settleNext_cases (c : Growth ℚ) (s : State ℚ) : Move c s (c.settleNext s) := by
  unfold settleNext
  split
  · next hpeek =>
    exact .idle (NodeQueue.not_waits_of_size (NodeQueue.peekMin?_eq_none_iff.mp hpeek))
  · next top hpeek =>
    split
    · next hover => exact .givesUp hpeek hover
    · next hgoing =>
      split
      · next hpop =>
        exact .idle (NodeQueue.not_waits_of_size (Workspace.popMin?_eq_none_iff.mp hpop))
      · next k w hpop =>
        obtain rfl := Option.some.inj ((Workspace.peekMin?_of_popMin? hpop).symm.trans hpeek)
        rw [Bool.not_eq_true] at hgoing
        dsimp only
        split
        · next hworth =>
          rw [Bool.and_eq_true, Bool.not_eq_true'] at hworth
          exact .joins hpop hgoing hworth.1 hworth.2
        · next hworth =>
          refine .expands hpop hgoing (fun hout => ?_) rfl
          rw [hout, Bool.not_false, Bool.true_and, Bool.not_eq_true] at hworth
          exact hworth

/-! ### Taking an arc -/

/-- What taking the arc `a` can come to: its head has no use for a label over it, or gets
one. -/
inductive Took (c : Growth ℚ) (a : Nat) (s : State ℚ) : State ℚ → Prop
  /-- The head is not marked, or its label is good enough. -/
  | kept (hused : c.network.isMarked (c.network.headOf a) = true →
      s.space.distOf (c.network.headOf a) ≤
        s.space.distOf (c.network.tailOf a) + c.arcCost a) : Took c a s s
  /-- The head gets a better label. -/
  | labeled {d : ℚ} (hi : Improves c s a d) : Took c a s (c.relabel a d s)

/-- An arc out of a labeled node is taken in one of the two ways. -/
theorem Sound.take (hc : Measured c) (h : Sound c s) (ha : a < c.network.arcCount)
    (htail : s.space.isVisited (c.network.tailOf a) = true) :
    ∃ s', c.take (s.space.distOf (c.network.tailOf a)) s a = .ok s' ∧ Took c a s s' := by
  unfold Growth.take
  dsimp only
  split
  · next hskip =>
    refine ⟨s, rfl, .kept fun hmark => ?_⟩
    have hin : s.tree.contains (c.network.headOf a) = true := by
      simpa [hmark] using hskip
    rw [h.joined _ hin]
    have hcost := hc.nonneg ha
    have hdist := (h.whole (c.network.tailOf a)).nonneg
    linarith
  · next htake =>
    simp only [Bool.or_eq_true, Bool.not_eq_true', not_or, Bool.not_eq_false,
      Bool.not_eq_true] at htake
    obtain ⟨hmark, hopen⟩ := htake
    have hhead : c.network.headOf a < s.space.capacity :=
      lt_of_lt_of_le (hc.linked.head_lt a ha) h.room
    have hwhole : Weight.IsWhole (s.space.distOf (c.network.tailOf a) + c.arcCost a) :=
      (h.whole _).add (hc.isWhole ha)
    have hbelow := Weight.below_iff (hwhole.apart (h.whole (c.network.headOf a)))
    rw [hc.arcCost_eq ha, checkNode, if_pos hhead]
    simp only [bind, Except.bind, pure, Except.pure]
    split
    · next hlt => exact ⟨_, rfl, .labeled ⟨ha, hmark, hopen, htail, rfl, hbelow.mp hlt⟩⟩
    · next hlt => exact ⟨s, rfl, .kept fun _ => not_lt.mp (mt hbelow.mpr hlt)⟩

section Took

variable (ht : Took c a s s')

include ht

theorem Took.tree : s'.tree = s.tree := by
  cases ht <;> rfl

theorem Took.added : s'.added = s.added := by
  cases ht <;> rfl

theorem Took.sound (hc : Measured c) (h : Sound c s) : Sound c s' := by
  cases ht with
  | kept _ => exact h
  | labeled hi => exact h.relabel hc hi

theorem Took.work_le (hc : Measured c) (h : Sound c s) :
    work c.network.nodeCount s' ≤ work c.network.nodeCount s := by
  cases ht with
  | kept _ => exact le_rfl
  | labeled hi => exact h.work_relabel_le hc hi

/-- The tail of the arc keeps its label. -/
theorem Took.tail (hc : Measured c) (h : Sound c s) (ha : a < c.network.arcCount) :
    s'.space.distOf (c.network.tailOf a) = s.space.distOf (c.network.tailOf a) ∧
      s'.space.isVisited (c.network.tailOf a) = s.space.isVisited (c.network.tailOf a) := by
  cases ht with
  | kept _ => exact ⟨rfl, rfl⟩
  | @labeled d hi =>
    have hne := (hc.linked.head_ne_tail a ha).symm
    have hr := h.reopened (d := d) hc ha
    exact ⟨hr.dist_ne _ hne, hr.visited_ne _ hne⟩

end Took

/-- What each arc that is taken keeps is kept by taking all arcs out of a node. -/
theorem Sound.expand (hc : Measured c) (h : Sound c s) (hk : s.space.isVisited k = true)
    {J : List Nat → State ℚ → Prop} (start : J [] s)
    (take : ∀ done a s₁ s₂, done ++ [a] <+: c.network.outArcs k → a < c.network.arcCount →
      c.network.tailOf a = k → Sound c s₁ → J done s₁ → Took c a s₁ s₂ → J (done ++ [a]) s₂) :
    ∃ s', c.expand k s = .more s' ∧ Sound c s' ∧ J (c.network.outArcs k) s' := by
  -- the extracted node keeps its label, which all labels of the fold are based on
  have hfold := foldlM_ok (f := c.take (s.space.distOf k))
    (J := fun done s₁ => (Sound c s₁ ∧ s₁.space.distOf k = s.space.distOf k ∧
      s₁.space.isVisited k = true) ∧ J done s₁)
    (c.network.outArcs k) (fun done a s₁ hdone hs₁ => ?_) ⟨⟨h, rfl, hk⟩, start⟩
  · obtain ⟨s', hfold, ⟨hs', -⟩, hJ⟩ := hfold
    refine ⟨s', ?_, hs', hJ⟩
    rw [Growth.expand, hfold]
  · obtain ⟨⟨hsound, hdist, hvisited⟩, hJ⟩ := hs₁
    obtain ⟨ha, htail⟩ := hc.linked.mem_outArcs.mp (mem_of_appended hdone)
    rw [← htail] at hvisited hdist
    obtain ⟨s₂, htake, htook⟩ := hsound.take hc ha hvisited
    have hkeeps := htook.tail hc hsound ha
    rw [hdist, htail] at htake
    rw [htail] at hkeeps hdist hvisited
    exact ⟨s₂, htake, ⟨htook.sound hc hsound, hkeeps.1.trans hdist, hkeeps.2.trans hvisited⟩,
      take done a s₁ s₂ hdone ha htail hsound hJ htook⟩

/-- Taking the arcs out of a node leaves the tree alone and causes no new work. -/
theorem Sound.expand_frame (hc : Measured c) (h : Sound c s) (hk : s.space.isVisited k = true) :
    ∃ s', c.expand k s = .more s' ∧ Sound c s' ∧ s'.tree = s.tree ∧ s'.added = s.added ∧
      work c.network.nodeCount s' ≤ work c.network.nodeCount s := by
  refine h.expand hc hk (J := fun _ s' => s'.tree = s.tree ∧ s'.added = s.added ∧
    work c.network.nodeCount s' ≤ work c.network.nodeCount s) ⟨rfl, rfl, le_rfl⟩ ?_
  rintro done a s₁ s₂ - - - hsound ⟨htree, hadded, hwork⟩ htook
  exact ⟨htook.tree.trans htree, htook.added.trans hadded, (htook.work_le hc hsound).trans hwork⟩

/-! ### Connecting a node -/

/-- What optional terminals could pay is not part of the invariant. -/
theorem Sound.withBound (h : Sound c s) (b : ℚ) : Sound c { s with bound := b } :=
  ⟨h.sized, h.room, h.treeSized, h.consistent, h.whole, h.near, h.blank, h.node, h.joined,
    h.entered, h.branch, h.count⟩

/-- A node that is connected joins with the nodes of its branch. -/
theorem Sound.connect_eq (h : Sound c s) (hk : s.space.isVisited k = true) {vs : List Nat}
    (hbranch : Branch c.network s k vs) :
    c.connect k s = { Growth.joinAll c.network vs s with
      bound := c.prizeBound (Growth.joinAll c.network vs s).tree } := by
  have hvisited := h.isVisited_of_branch hbranch hk
  have hlen : vs.length ≤ c.network.nodeCount :=
    hbranch.length_le fun u hu => h.node u (hvisited u hu)
  rw [Growth.connect, splice_eq hbranch hlen]

theorem predOf_joinAll (vs : List Nat) (u : Nat) :
    (joinAll c.network vs s).space.predOf u = s.space.predOf u := by
  induction vs generalizing s with
  | nil => rfl
  | cons v vs ih => rw [joinAll_cons, ih, predOf_join]

theorem added_joinAll (vs : List Nat) : (joinAll c.network vs s).added = s.added + vs.length := by
  induction vs generalizing s with
  | nil => rfl
  | cons v vs ih =>
    rw [joinAll_cons, ih, List.length_cons, ← Nat.add_assoc, Nat.add_right_comm]
    rfl

/-- The nodes of the branch are counted. -/
theorem Sound.added_connect (h : Sound c s) (hk : s.space.isVisited k = true) {vs : List Nat}
    (hbranch : Branch c.network s k vs) : (c.connect k s).added = s.added + vs.length := by
  rw [h.connect_eq hk hbranch]
  exact added_joinAll vs

/-- A node that is connected joins with its whole branch. -/
theorem Sound.connect (h : Sound c s) (hk : s.space.isVisited k = true)
    (hout : s.tree.contains k = false) :
    ∃ vs, Branch c.network s k vs ∧ k ∈ vs ∧ Sound c (c.connect k s) ∧
      Joined vs s (c.connect k s) ∧
      work c.network.nodeCount (c.connect k s) ≤ work c.network.nodeCount s := by
  obtain ⟨vs, hbranch, hs', hj, hwork⟩ := h.splice hk
  refine ⟨vs, hbranch, ?_, hs'.withBound _, ?_, hwork⟩
  · cases hbranch with
    | stop hstop => exact absurd (hout.symm.trans hstop) Bool.false_ne_true
    | cons _ _ _ => exact List.mem_cons_self
  · exact ⟨hj.contains, hj.entered, hj.kept, hj.visited, hj.dist_ne, hj.dist_le, hj.waits⟩

/-- Labels are left as they are, but for their distances. -/
theorem Sound.predOf_connect (h : Sound c s) (hk : s.space.isVisited k = true) (u : Nat) :
    (c.connect k s).space.predOf u = s.space.predOf u := by
  obtain ⟨vs, hbranch⟩ := h.branch k hk
  rw [h.connect_eq hk hbranch]
  exact predOf_joinAll vs u

/-! ### Runs -/

/-- Every step but the last does some of the work, and the last one changes nothing. -/
theorem Sound.settleNext (hc : Measured c) (h : Sound c s) :
    (∃ s', c.settleNext s = .more s' ∧ Sound c s' ∧
      work c.network.nodeCount s' + 1 ≤ work c.network.nodeCount s) ∨
    c.settleNext s = .done () s := by
  have hmove := settleNext_cases c s
  generalize hp : c.settleNext s = p at hmove ⊢
  cases hmove with
  | idle _ => exact Or.inr rfl
  | givesUp _ _ => exact Or.inr rfl
  | joins hpop _ hout _ =>
    obtain ⟨hsound, hk, -⟩ := h.popMin? hpop
    obtain ⟨vs, -, -, hs', -, hwork⟩ := hsound.connect hk hout
    have hpopped := h.work_popMin?_le hpop
    exact Or.inl ⟨_, rfl, hs', by linarith⟩
  | expands hpop _ _ hexpand =>
    obtain ⟨hsound, hk, -⟩ := h.popMin? hpop
    obtain ⟨s', hs', hsound', -, -, hwork⟩ := hsound.expand_frame hc hk
    have hpopped := h.work_popMin?_le hpop
    rw [← hexpand, hs']
    exact Or.inl ⟨s', rfl, hsound', by linarith⟩

/-- The last step finds that nothing waits, or that nothing that waits can be worth
connecting. -/
theorem Sound.of_done (hc : Measured c) (h : Sound c s) (hstep : c.settleNext s = .done () s') :
    s' = s ∧ ((∀ v, ¬ s.space.queue.Waits v) ∨
      ∃ top, s.space.queue.peekMin? = some top ∧ c.isOver s top = true) := by
  have hmove := settleNext_cases c s
  rw [hstep] at hmove
  cases hmove with
  | idle hempty => exact ⟨rfl, Or.inl hempty⟩
  | givesUp hpeek hover => exact ⟨rfl, Or.inr ⟨_, hpeek, hover⟩⟩
  | expands hpop _ _ hexpand =>
    obtain ⟨hsound, hk, -⟩ := h.popMin? hpop
    obtain ⟨s₁, hs₁, -⟩ := hsound.expand_frame hc hk
    rw [hs₁] at hexpand
    cases hexpand

/-- Every growth ends by itself, and long before its fuel is used up. -/
theorem Sound.ends (hc : Measured c) (h : Sound c s) :
    ∃ s', Progress.Ends c.settleNext s () s' ∧
      Progress.run c.settleNext () (fuel c.network) s = .ok ((), s') ∧ Sound c s' := by
  have hrun : ∃ a s', Progress.Ends c.settleNext s a s' ∧
      Progress.run c.settleNext () (fuel c.network) s = .ok (a, s') ∧ Sound c s' := by
    refine Progress.run_ends (I := fun n s => Sound c s ∧ work c.network.nodeCount s < (n : ℚ))
      (fun s hs => ?_) (fun n s hs => ?_) (fuel c.network) s ⟨h, h.work_lt_fuel⟩
    · have hnonneg := work_nonneg (n := c.network.nodeCount) hs.1
      have hwork := hs.2
      rw [Nat.cast_zero] at hwork
      linarith
    · obtain ⟨hs, hwork⟩ := hs
      push_cast at hwork
      rcases hs.settleNext hc with ⟨s', hmore, hs', hwork'⟩ | hdone
      · exact Or.inl ⟨s', hmore, hs', by linarith⟩
      · exact Or.inr ⟨(), s, hdone, hs⟩
  obtain ⟨_, s', hends, hrun, hs'⟩ := hrun
  exact ⟨s', hends, hrun, hs'⟩

/-! ### Arcs that are used -/

/-- Only the arcs that are due, and those out of waiting nodes, can have a better label to
give. -/
def Used (c : Growth ℚ) (due : Nat → Prop) (s : State ℚ) : Prop :=
  ∀ a, a < c.network.arcCount → ¬ due a →
    s.space.isVisited (c.network.tailOf a) = true →
    ¬ s.space.queue.Waits (c.network.tailOf a) →
    c.network.isMarked (c.network.headOf a) = true →
    s.space.distOf (c.network.headOf a) ≤ s.space.distOf (c.network.tailOf a) + c.arcCost a

theorem Used.mono {due' : Nat → Prop} (h : Used c due s) (hdue : ∀ a, due a → due' a) :
    Used c due' s :=
  fun a ha hnot => h a ha fun hd => hnot (hdue a hd)

/-- A node that does not wait after another one got a label is as it was. -/
theorem Sound.of_not_waits_relabel (hc : Measured c) (h : Sound c s) (hi : Improves c s a d)
    {v : Nat} (hv : (c.relabel a d s).space.isVisited v = true)
    (hwaits : ¬ (c.relabel a d s).space.queue.Waits v) :
    v ≠ c.network.headOf a ∧ s.space.isVisited v = true ∧ ¬ s.space.queue.Waits v := by
  have hr := h.reopened (d := d) hc hi.arc
  rw [hr.queued.waits, not_or] at hwaits
  exact ⟨hwaits.2, (hr.visited_ne v hwaits.2).symm.trans hv, hwaits.1⟩

/-- A node that does not wait after an arc was taken did not wait before. -/
theorem Took.of_not_waits (hc : Measured c) (h : Sound c s) (ht : Took c a s s') {v : Nat}
    (hv : s'.space.isVisited v = true) (hwaits : ¬ s'.space.queue.Waits v) :
    s.space.isVisited v = true ∧ ¬ s.space.queue.Waits v := by
  cases ht with
  | kept _ => exact ⟨hv, hwaits⟩
  | labeled hi => exact (h.of_not_waits_relabel hc hi hv hwaits).2

/-- An arc that was taken is no longer due. -/
theorem Used.take (hc : Measured c) (hs : Sound c s) (h : Used c due s) (ht : Took c a s s') :
    Used c (fun b => due b ∧ b ≠ a) s' := by
  intro b hb hnot hvisited hwaits hmark
  cases ht with
  | kept hused =>
    by_cases hba : b = a
    · rw [hba] at hmark ⊢
      exact hused hmark
    · exact h b hb (fun hd => hnot ⟨hd, hba⟩) hvisited hwaits hmark
  | @labeled d hi =>
    obtain ⟨hne, hvisited, hwaits⟩ := hs.of_not_waits_relabel hc hi hvisited hwaits
    have hr := hs.reopened (d := d) hc hi.arc
    rw [hr.dist_ne _ hne]
    by_cases hba : b = a
    · rw [hba, hr.dist_self, hi.dist]
    · exact (hs.dist_relabel_le hc hi _).trans
        (h b hb (fun hd => hnot ⟨hd, hba⟩) hvisited hwaits hmark)

/-- After an extraction the arcs out of the extracted node are due. -/
theorem Used.popMin? (hs : Sound c s) (h : Used c (fun _ => False) s) {w : Workspace ℚ}
    (hpop : s.space.popMin? = some (k, w)) :
    Used c (fun a => c.network.tailOf a = k) { s with space := w } := by
  obtain ⟨-, -, q, rfl, hex⟩ := hs.popMin? hpop
  intro a ha hnot hvisited hwaits hmark
  refine h a ha not_false hvisited (fun hw => hwaits ?_) hmark
  exact (hex.waits _).mpr ⟨hw, hnot⟩

/-- Once all arcs out of a node were taken, none is due. -/
theorem Used.of_expand (hc : Measured c)
    (h : Used c (fun a => c.network.tailOf a = k ∧ a ∉ c.network.outArcs k) s) :
    Used c (fun _ => False) s := by
  intro a ha _
  refine h a ha ?_
  rintro ⟨htail, hnot⟩
  exact hnot (hc.linked.mem_outArcs.mpr ⟨ha, htail⟩)

/-- A node that does not wait after a branch joined is not on it, and is as it was. -/
theorem Joined.of_not_waits {vs : List Nat} (hj : Joined vs s s') {v : Nat}
    (hv : s'.space.isVisited v = true) (hwaits : ¬ s'.space.queue.Waits v) :
    v ∉ vs ∧ s.space.isVisited v = true ∧ ¬ s.space.queue.Waits v := by
  rw [hj.waits, not_or] at hwaits
  exact ⟨hwaits.2, (hj.visited v).symm.trans hv, hwaits.1⟩

/-- The extracted node is on the branch that joins, so that no arc is due. -/
theorem Used.connect {vs : List Nat} (h : Used c (fun a => c.network.tailOf a = k) s)
    (hj : Joined vs s s') (hk : k ∈ vs) : Used c (fun _ => False) s' := by
  intro a ha _ hvisited hwaits hmark
  obtain ⟨hnot, hvisited, hwaits⟩ := hj.of_not_waits hvisited hwaits
  rw [hj.dist_ne _ hnot]
  refine (hj.dist_le _).trans (h a ha ?_ hvisited hwaits hmark)
  rintro rfl
  exact hnot hk

end Growth

end SteinerSearch
