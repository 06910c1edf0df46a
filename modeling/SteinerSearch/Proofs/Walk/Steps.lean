import SteinerSearch.Proofs.Walk.Passages

/-!
# Steps of a walk search

What a step of a search over whole costs and prizes can do: it finds nothing waiting, it
extracts the goal, or it scans the arcs of the extracted node.  Taking an arc leaves all
labels as they are, or gives the head of the arc a better one.

A credit lowers labels, so a label may be below those of nodes that were extracted before.
Nothing here depends on the order in which nodes are extracted.

## Main definitions

* `Walk.Measured t` — costs are natural numbers, and so are the prizes that may be credited.
* `Walk.Sound t w` — what holds at every moment of a search.
* `Walk.Improves t w a d` — the arc `a` gives its head the better label `d`.
* `Walk.Departed t w k q` — `q` is the queue after the extraction of `k`.
* `Walk.Move t s p`, `Walk.Took t a s s'` — the cases of a step, and of taking an arc.

## Main results

* `Walk.Sound.improve`, `Walk.Sound.depart` — both ways a search changes its state keep the
  invariant.
* `Walk.Sound.settleNext_cases`, `Walk.Sound.scan` — there are no other cases.
-/

namespace SteinerSearch

namespace Walk

/-- The cost of an arc that has one. -/
def priceOf (costs : CostView ℚ) (a : Nat) : ℚ := (costs a).getD 0

/-- The cost of an arc in a search. -/
def arcCost (t : Walk ℚ) (a : Nat) : ℚ := priceOf t.costs a

/-- Costs are natural numbers, and so are the prizes that may be credited. -/
structure Measured (t : Walk ℚ) : Prop extends Proper t where
  whole : ∀ a, a < t.network.arcCount → Weight.IsWhole (t.arcCost a)
  prize : ∀ v, t.network.isTerminal v = true → v ≠ t.query.start → v ≠ t.query.goal →
    Weight.IsWhole (t.network.prizeOf v)

/-- A label of this size may be given. -/
def Fits (t : Walk ℚ) (d : ℚ) : Prop :=
  d < Weight.faraway ∧ Weight.above d t.query.maxDistance = false

variable {t : Walk ℚ} {s s' : State ℚ} {w w' : Workspace ℚ} {q : NodeQueue} {k a v : Nat}
  {c d e : ℚ} {as : List Nat}

theorem Measured.nonneg (ht : Measured t) (ha : a < t.network.arcCount) : 0 ≤ t.arcCost a :=
  (ht.whole a ha).nonneg

theorem Measured.costs_eq (ht : Measured t) (ha : a < t.network.arcCount) :
    t.costs a = some (t.arcCost a) := by
  obtain ⟨c, hc⟩ := ht.cost a ha
  rw [arcCost, priceOf, hc, Option.getD_some]

/-- The start is neither the goal nor marked, so no arc that may be taken leads to it. -/
theorem Measured.head_ne_start (ht : Measured t) (ha : t.Passable a) :
    t.network.headOf a ≠ t.query.start := by
  intro hstart
  rcases ha.2 with hgoal | hmark
  · exact ht.ne (hstart.symm.trans hgoal)
  · rw [hstart, ht.start_unmarked] at hmark
    cases hmark

theorem Fits.mono (h : t.Fits d) (hle : e ≤ d) : t.Fits e := by
  refine ⟨hle.trans_lt h.1, Bool.eq_false_iff.mpr fun habove => ?_⟩
  exact Bool.false_ne_true (h.2.symm.trans (Weight.above_mono hle habove))

/-! ### Labels -/

/-- Credits are for terminals other than start and goal. -/
theorem Measured.prize_of_credits (ht : Measured t) (ha : t.Passable a)
    (h : t.credits w k (t.network.headOf a) = true) :
    Weight.IsWhole (t.network.prizeOf (t.network.headOf a)) := by
  simp only [Walk.credits, Bool.and_eq_true, decide_eq_true_eq] at h
  exact ht.prize _ h.1.1.2 (ht.head_ne_start ha) h.1.1.1

/-- A credit only lowers a label. -/
theorem labelOf_le {credit : Bool} (hnonneg : 0 ≤ d + c)
    (hprize : credit = true → 0 ≤ t.network.prizeOf v) : t.labelOf d c v credit ≤ d + c := by
  unfold labelOf
  split
  · next hcredit =>
    have hprize := hprize hcredit
    rw [Weight.max_rat]
    exact sup_le (by linarith) hnonneg
  · exact le_rfl

theorem isWhole_labelOf {credit : Bool} (hwhole : Weight.IsWhole (d + c))
    (hprize : credit = true → Weight.IsWhole (t.network.prizeOf v)) :
    Weight.IsWhole (t.labelOf d c v credit) := by
  unfold labelOf
  split
  · next hcredit =>
    rw [Weight.max_rat]
    rcases le_total (t.network.prizeOf v) (d + c) with hle | hle
    · rw [sup_of_le_left (by linarith)]
      exact hwhole.sub (hprize hcredit) hle
    · rw [sup_of_le_right (by linarith)]
      exact Weight.isWhole_zero
  · exact hwhole

/-- What holds at every moment of a search. -/
structure Sound (t : Walk ℚ) (w : Workspace ℚ) : Prop extends Backed t w where
  ordered : NodeQueue.Ordered w.distOf w.queue
  whole : ∀ v, Weight.IsWhole (w.distOf v)
  near : ∀ v, w.distOf v ≤ Weight.faraway
  /-- Untouched nodes are as far away as can be. -/
  blank : ∀ v, w.isVisited v = false → w.distOf v = Weight.faraway
  settled : ∀ v, w.isSettled v = true → w.isVisited v = true
  start : w.isVisited t.query.start = true ∧ w.distOf t.query.start = 0
  /-- The search is over once the goal is extracted. -/
  goal : w.isVisited t.query.goal = true → w.queue.Waits t.query.goal

theorem Sound.apart (h : Sound t w) (u v : Nat) : Weight.Apart (w.distOf u) (w.distOf v) :=
  (h.whole u).apart (h.whole v)

/-! ### Better labels -/

/-- The arc `a` gives its head a better label, which is `d`. -/
structure Improves (t : Walk ℚ) (w : Workspace ℚ) (a : Nat) (d : ℚ) : Prop where
  arc : a < t.network.arcCount
  passable : t.Passable a
  tail : w.isVisited (t.network.tailOf a) = true
  opened : w.isSettled (t.network.headOf a) = false
  label : d = t.labelOf (w.distOf (t.network.tailOf a)) (t.arcCost a) (t.network.headOf a)
    (t.credits w (t.network.tailOf a) (t.network.headOf a))
  limit : Weight.above d t.query.maxDistance = false
  lower : d < w.distOf (t.network.headOf a)

/-- The tables after the head of `a` was labeled. -/
def improve (t : Walk ℚ) (a : Nat) (d : ℚ) (w : Workspace ℚ) : Workspace ℚ :=
  t.relabeled (t.network.tailOf a) (t.network.headOf a) a d
    (t.credits w (t.network.tailOf a) (t.network.headOf a)) w

theorem Sound.relabeled_improve (h : Sound t w) (ht : Measured t) (hi : Improves t w a d) :
    w.Relabeled (t.network.headOf a) d (some a) (t.improve a d w) :=
  h.toBacked.relabeled (ht.linked.head_ne_tail a hi.arc).symm
    (lt_of_lt_of_le (ht.linked.head_lt a hi.arc) h.room) hi.opened

theorem Sound.label_le (h : Sound t w) (ht : Measured t) (hi : Improves t w a d) :
    d ≤ w.distOf (t.network.tailOf a) + t.arcCost a := by
  rw [hi.label]
  exact labelOf_le ((h.whole _).add (ht.whole a hi.arc)).nonneg fun hcredit =>
    (ht.prize_of_credits hi.passable hcredit).nonneg

theorem Sound.isWhole_label (h : Sound t w) (ht : Measured t) (hi : Improves t w a d) :
    Weight.IsWhole d := by
  rw [hi.label]
  exact isWhole_labelOf ((h.whole _).add (ht.whole a hi.arc)) (ht.prize_of_credits hi.passable)

/-- Labels never get worse. -/
theorem Sound.dist_improve_le (h : Sound t w) (ht : Measured t) (hi : Improves t w a d) (v : Nat) :
    (t.improve a d w).distOf v ≤ w.distOf v := by
  have hr := h.relabeled_improve ht hi
  by_cases hv : v = t.network.headOf a
  · rw [hv, hr.dist_self]
    exact hi.lower.le
  · exact (hr.dist_ne v hv).le

/-- A node that does not wait kept its label. -/
theorem Sound.of_not_waits_improve (h : Sound t w) (ht : Measured t) (hi : Improves t w a d)
    (hv : (t.improve a d w).isVisited v = true) (hwaits : ¬ (t.improve a d w).queue.Waits v) :
    v ≠ t.network.headOf a ∧ w.isVisited v = true ∧ ¬ w.queue.Waits v := by
  have hr := h.relabeled_improve ht hi
  rw [hr.queued.waits, not_or] at hwaits
  rw [hr.visited_ne v hwaits.2] at hv
  exact ⟨hwaits.2, hv, hwaits.1⟩

theorem Sound.improve (h : Sound t w) (ht : Measured t) (hi : Improves t w a d) :
    Sound t (t.improve a d w) := by
  have hr := h.relabeled_improve ht hi
  have hhead := ht.linked.head_lt a hi.arc
  have hroom : t.network.headOf a < w.capacity := lt_of_lt_of_le hhead h.room
  have hstart := (ht.head_ne_start hi.passable).symm
  have hvisited : ∀ {v}, w.isVisited v = true → (t.improve a d w).isVisited v = true := by
    intro v hv
    by_cases hva : v = t.network.headOf a
    · exact hva ▸ hr.visited_self
    · exact (hr.visited_ne v hva).trans hv
  have hwhole : ∀ v, Weight.IsWhole ((t.improve a d w).distOf v) := by
    intro v
    by_cases hv : v = t.network.headOf a
    · rw [hv, hr.dist_self]
      exact h.isWhole_label ht hi
    · rw [hr.dist_ne v hv]
      exact h.whole v
  obtain ⟨steps, hwalk, hlen, hknown⟩ := h.toBacked.extend ht.toProper hi.tail hi.passable.1 hi.arc
    rfl hi.passable.2 (ht.costs_eq hi.arc) rfl
  have hbacked : Backed t (t.improve a d w) :=
    h.toBacked.label hhead (ht.linked.head_ne_tail a hi.arc).symm hi.opened hi.limit hwalk
      (hlen.trans hi.label.symm) hknown
  refine { hbacked with
    ordered := ?_
    whole := hwhole
    near := fun v => (h.dist_improve_le ht hi v).trans (h.near v)
    blank := fun v hv => ?_
    settled := fun v hv => hvisited (h.settled v ((hr.settled v).symm.trans hv))
    start := ⟨hvisited h.start.1, (hr.dist_ne _ hstart).trans h.start.2⟩
    goal := fun hv => (hr.queued.waits _).mpr ?_ }
  · rw [hr.queue]
    refine NodeQueue.ordered_insert h.consistent (by rwa [h.sized.queue])
      (Workspace.stateOf_ne_settled hi.opened) (fun u v _ _ => (hwhole u).apart (hwhole v))
      hr.dist_ne (fun _ => ?_) h.ordered
    rw [hr.dist_self]
    exact hi.lower.le
  · have hva : v ≠ t.network.headOf a := by
      rintro rfl
      exact Bool.false_ne_true (hv.symm.trans hr.visited_self)
    rw [hr.dist_ne v hva]
    exact h.blank v ((hr.visited_ne v hva).symm.trans hv)
  · by_cases hva : t.query.goal = t.network.headOf a
    · exact Or.inr hva
    · exact Or.inl (h.goal ((hr.visited_ne _ hva).symm.trans hv))

/-! ### Extracting a node -/

/-- `q` is the queue after the extraction of `k`, which stays settled if it is required. -/
structure Departed (t : Walk ℚ) (w : Workspace ℚ) (k : Nat) (q : NodeQueue) : Prop where
  waited : w.queue.Waits k
  least : ∀ v, w.queue.Waits v → w.distOf k ≤ w.distOf v
  consistent : q.Consistent
  capacity : q.capacity = w.queue.capacity
  ordered : NodeQueue.Ordered w.distOf q
  waits : ∀ v, q.Waits v ↔ w.queue.Waits v ∧ v ≠ k
  visited : ∀ v, q.isSettled v = true → w.isVisited v = true
  /-- Required nodes that were settled stay so. -/
  settled : ∀ v, t.network.isRequired v = true → w.isSettled v = true → q.isSettled v = true
  settled_self : t.network.isRequired k = true → q.isSettled k = true

theorem Sound.depart (h : Sound t w) (hk : k ≠ t.query.goal) (hd : Departed t w k q) :
    Sound t { w with queue := q } := by
  have hbacked : Backed t { w with queue := q } :=
    h.toBacked.withQueue hd.capacity hd.consistent fun v hv => ((hd.waits v).mp hv).1
  exact { hbacked with
    ordered := hd.ordered
    whole := h.whole
    near := h.near
    blank := h.blank
    settled := hd.visited
    start := h.start
    goal := fun hv => (hd.waits _).mpr ⟨h.goal hv, hk.symm⟩ }

/-- What the queue of a search gives. -/
theorem Sound.popMin? (h : Sound t w) (hpop : w.popMin? = some (k, w')) :
    ∃ q, w' = { w with queue := q } ∧ Departed t w k q := by
  obtain ⟨q, hq, rfl⟩ := Workspace.popMin?_eq_some hpop
  have hex := NodeQueue.extracted_popMin? h.consistent hq
  refine ⟨q, rfl, ?_⟩
  exact
    { waited := hex.waited
      least := fun v hv => NodeQueue.popMin?_le h.ordered hq hv
      consistent := hex.consistent
      capacity := hex.capacity
      ordered := NodeQueue.ordered_popMin? h.consistent (fun u v _ _ => h.apart u v) h.ordered hq
      waits := hex.waits
      visited := fun v hv => by
        rcases (hex.isSettled_iff h.consistent v).mp hv with hv | rfl
        · exact h.settled v hv
        · exact h.waiting v hex.waited
      settled := fun v _ hv => (hex.isSettled_iff h.consistent v).mpr (Or.inl hv)
      settled_self := fun _ => (hex.isSettled_iff h.consistent k).mpr (Or.inr rfl) }

/-- A node that is not required may be unknown again. -/
theorem Departed.unsettle (h : Departed t w k q) (hk : t.network.isRequired k = false) :
    Departed t w k (q.setState k .unknown) := by
  have hother : ∀ {v}, v ≠ k → (q.setState k .unknown).isSettled v = q.isSettled v := by
    intro v hv
    simp only [NodeQueue.isSettled, NodeQueue.stateOf_setState_of_ne hv]
  have hrequired : ∀ {v}, t.network.isRequired v = true → v ≠ k := by
    rintro v hv rfl
    rw [hk] at hv
    cases hv
  exact
    { waited := h.waited
      least := h.least
      consistent := h.consistent.setState_unknown fun hw => ((h.waits k).mp hw).2 rfl
      capacity := NodeQueue.capacity_setState.trans h.capacity
      ordered := h.ordered
      waits := h.waits
      visited := fun v hv => by
        have hvk : v ≠ k := by
          rintro rfl
          rw [NodeQueue.isSettled_iff, NodeQueue.stateOf_setState_unknown] at hv
          cases hv
        exact h.visited v ((hother hvk).symm.trans hv)
      settled := fun v hreq hv => (hother (hrequired hreq)).trans (h.settled v hreq hv)
      settled_self := fun hreq => absurd rfl (hrequired hreq) }

/-! ### The cases of a step -/

/-- What a step can come to. -/
inductive Move (t : Walk ℚ) (s : State ℚ) : Progress (State ℚ) (WalkOutcome ℚ) → Prop
  /-- Nothing waits. -/
  | idle (hempty : ∀ v, ¬ s.space.queue.Waits v) : Move t s (.done .notFound s)
  /-- The goal is extracted. -/
  | arrives {s' : State ℚ} (hwaited : s.space.queue.Waits t.query.goal)
      (hleast : ∀ v, s.space.queue.Waits v → s.space.distOf t.query.goal ≤ s.space.distOf v) :
      Move t s (.done (.reached (s.space.distOf t.query.goal)) s')
  /-- The arcs out of the extracted node are scanned. -/
  | scans {k : Nat} {q : NodeQueue} (hk : k ≠ t.query.goal) (hd : Departed t s.space k q) :
      Move t s (.ofScan .overBudget ((t.network.outArcs k).foldlM
        (t.scan k (s.space.distOf k)) { s with space := { s.space with queue := q } }))

theorem Sound.settleNext_cases (h : Sound t s.space) : Move t s (t.settleNext s) := by
  unfold Walk.settleNext
  split
  · next hpop =>
    exact .idle (NodeQueue.not_waits_of_size (Workspace.popMin?_eq_none_iff.mp hpop))
  · next k w' hpop =>
    obtain ⟨q, rfl, hd⟩ := h.popMin? hpop
    dsimp only
    split
    · next hk =>
      subst hk
      exact .arrives hd.waited hd.least
    · next hk =>
      split
      · exact .scans hk hd
      · next hreq => exact .scans hk (hd.unsettle (Bool.eq_false_iff.mpr hreq))

/-! ### Taking an arc -/

/-- A passable arc to an open node gives the head a better label, or is of no use to it. -/
theorem Sound.take_cases (h : Sound t w) (ht : Measured t) (ha : a < t.network.arcCount)
    (hpass : t.Passable a) (htail : w.isVisited (t.network.tailOf a) = true)
    (hopen : w.isSettled (t.network.headOf a) = false) :
    (∃ d, Improves t w a d ∧ t.take (t.network.tailOf a) (t.network.headOf a) a
      (w.distOf (t.network.tailOf a)) (t.arcCost a) w = t.improve a d w) ∨
    (t.Fits (w.distOf (t.network.tailOf a) + t.arcCost a) →
      w.distOf (t.network.headOf a) ≤ w.distOf (t.network.tailOf a) + t.arcCost a) ∧
      t.take (t.network.tailOf a) (t.network.headOf a) a (w.distOf (t.network.tailOf a))
        (t.arcCost a) w = w := by
  have hwhole : Weight.IsWhole (w.distOf (t.network.tailOf a) + t.arcCost a) :=
    (h.whole _).add (ht.whole a ha)
  have hle : t.labelOf (w.distOf (t.network.tailOf a)) (t.arcCost a) (t.network.headOf a)
      (t.credits w (t.network.tailOf a) (t.network.headOf a)) ≤
        w.distOf (t.network.tailOf a) + t.arcCost a :=
    labelOf_le hwhole.nonneg fun hcredit => (ht.prize_of_credits hpass hcredit).nonneg
  have hlabel : Weight.IsWhole (t.labelOf (w.distOf (t.network.tailOf a)) (t.arcCost a)
      (t.network.headOf a) (t.credits w (t.network.tailOf a) (t.network.headOf a))) :=
    isWhole_labelOf hwhole (ht.prize_of_credits hpass)
  have hbelow := Weight.below_iff (hlabel.apart (h.whole (t.network.headOf a)))
  unfold Walk.take
  dsimp only
  split
  · next habove =>
    refine Or.inr ⟨fun hfits => ?_, rfl⟩
    exact absurd (hfits.2.symm.trans (Weight.above_mono hle habove)) Bool.false_ne_true
  · next hbound =>
    split
    · next hlt =>
      exact Or.inl ⟨_, ⟨ha, hpass, htail, hopen, rfl, Bool.eq_false_iff.mpr hbound,
        hbelow.mp hlt⟩, rfl⟩
    · next hge => exact Or.inr ⟨fun _ => (not_lt.mp (mt hbelow.mpr hge)).trans hle, rfl⟩

/-- What scanning the arc `a` can come to, unless the search is over its budget. -/
inductive Took (t : Walk ℚ) (a : Nat) (s : State ℚ) : State ℚ → Prop
  /-- The arc may not be taken, or its head has its last label. -/
  | skipped (hhead : t.Passable a → s.space.isSettled (t.network.headOf a) = true) : Took t a s s
  /-- The head of the arc has no use for a label over it. -/
  | kept (hused : t.Fits (s.space.distOf (t.network.tailOf a) + t.arcCost a) →
      s.space.distOf (t.network.headOf a) ≤
        s.space.distOf (t.network.tailOf a) + t.arcCost a) :
      Took t a s { s with scanned := s.scanned + 1 }
  /-- The head of the arc gets a better label. -/
  | labeled {d : ℚ} (hi : Improves t s.space a d) :
      Took t a s ⟨t.improve a d s.space, s.scanned + 1⟩

/-- An arc out of a labeled node is scanned in one of the three ways, unless the search is over
its budget.  Here `hrefused` says that what the ledger refuses is of no use. -/
theorem Sound.scan (h : Sound t s.space) (ht : Measured t) (ha : a < t.network.arcCount)
    (htail : s.space.isVisited (t.network.tailOf a) = true)
    (hleaves : t.network.tailOf a ≠ t.query.goal)
    (hrefused : t.Passable a → s.space.isSettled (t.network.headOf a) = false →
      t.network.headOf a ≠ t.query.goal →
      t.ledger.refuses t.network s.space (t.network.tailOf a) (t.network.headOf a) a = true →
      s.space.distOf (t.network.headOf a) ≤
        s.space.distOf (t.network.tailOf a) + t.arcCost a) :
    (∃ s', t.scan (t.network.tailOf a) (s.space.distOf (t.network.tailOf a)) s a = .ok s' ∧
      Took t a s s') ∨
    ∃ s', t.scan (t.network.tailOf a) (s.space.distOf (t.network.tailOf a)) s a =
      .error (.overBudget s') ∧ t.query.isLimited = true ∧ t.query.arcLimit < s.scanned + 1 := by
  unfold Walk.scan
  dsimp only
  split
  · next hblock =>
    refine Or.inl ⟨s, rfl, .skipped fun hpass => ?_⟩
    rw [hpass.2.resolve_left hblock.1] at hblock
    exact absurd hblock.2 (by decide)
  · next hpass =>
    have hpass : t.Passable a := by
      refine ⟨hleaves, ?_⟩
      by_contra hnot
      rw [not_or] at hnot
      exact hpass ⟨hnot.1, by simpa using hnot.2⟩
    split
    · next hsettled => exact Or.inl ⟨s, rfl, .skipped fun _ => hsettled⟩
    · next hopen =>
      rw [Bool.not_eq_true] at hopen
      split
      · next hover => exact Or.inr ⟨_, rfl, hover⟩
      · split
        · next hrefuses =>
          exact Or.inl ⟨_, rfl, .kept fun _ => hrefused hpass hopen hrefuses.1 hrefuses.2⟩
        · rw [ht.costs_eq ha]
          refine Or.inl ⟨_, rfl, ?_⟩
          rcases h.take_cases ht ha hpass htail hopen with ⟨d, hi, htake⟩ | ⟨hused, htake⟩
          · rw [htake]
            exact .labeled hi
          · rw [htake]
            exact .kept hused

end Walk

end SteinerSearch
