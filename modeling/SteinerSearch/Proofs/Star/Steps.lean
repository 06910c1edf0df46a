import SteinerSearch.Proofs.Star.Seeding

/-!
# Steps of a star search

A step takes a node out of the queue, counts the arc to it as decided, and scans its row.  An
arc that is scanned to a node that is still open first has the arc of the center to this node
reported, if a path replaces it, and then gives the node a shorter distance, if it is shorter.
What a step does is said here once, for any weights; all invariants are proved from it.

## Main definitions

* `StarSearch.take`, `StarSearch.meet` — a node taken out, and an arc to an open node.
* `StarSearch.Decided`, `StarSearch.Reported`, `StarSearch.Improved`, `StarSearch.Scanned`,
  `StarSearch.Settled` — what each part of a step comes to.

## Main results

* `StarSearch.scan_cases`, `StarSearch.settleNext_cases` — there is nothing else.
* `StarSearch.Tables.take`, `StarSearch.Tables.label` — the tables stay in order.
* `StarSearch.runInto_eq_run` — what a buffer held before does not matter.
* `StarSearch.run_of_long` — the answer of a search that takes steps.
-/

namespace SteinerSearch

namespace StarSearch

variable {α : Type} {t : StarSearch α} {s : State α}

/-! ### A node is taken out -/

/-- The state with `top` taken out of the queue and the arc to it counted. -/
def take (top : KeyedNode α) (r : KeyedQueue α) (s : State α) : State α :=
  decide top.node { s with space := { s.space with queue := r } }

/-- What counting the arc to `k` comes to. -/
inductive Decided (k : Nat) (s : State α) : State α → Prop
  /-- The arc was counted before, if there is one. -/
  | same (h : ∀ i, s.space.slotOf k = some i → s.isDeletable i = true) : Decided k s s
  /-- The arc is not reported, and counts. -/
  | more {i : Nat} (hslot : s.space.slotOf k = some i) (hopen : s.isDeletable i = false) :
      Decided k s { s with decided := s.decided + 1 }

theorem decide_cases (k : Nat) (s : State α) : Decided k s (decide k s) := by
  unfold decide
  cases hslot : s.space.slotOf k with
  | none => exact .same fun i hi => by rw [hslot] at hi; cases hi
  | some i =>
    dsimp only
    cases hopen : s.isDeletable i with
    | false => exact .more hslot hopen
    | true =>
      refine .same fun j hj => ?_
      rw [hslot] at hj
      rwa [← Option.some.inj hj]

theorem Decided.space_eq {k : Nat} {s s' : State α} (h : Decided k s s') : s'.space = s.space := by
  cases h with
  | same _ => rfl
  | more _ _ => rfl

theorem Decided.deletable_eq {k : Nat} {s s' : State α} (h : Decided k s s') :
    s'.deletable = s.deletable := by
  cases h with
  | same _ => rfl
  | more _ _ => rfl

theorem Decided.found_eq {k : Nat} {s s' : State α} (h : Decided k s s') : s'.found = s.found := by
  cases h with
  | same _ => rfl
  | more _ _ => rfl

theorem Decided.scanned_eq {k : Nat} {s s' : State α} (h : Decided k s s') :
    s'.scanned = s.scanned := by
  cases h with
  | same _ => rfl
  | more _ _ => rfl

@[simp] theorem found_take (top : KeyedNode α) (r : KeyedQueue α) (s : State α) :
    (take top r s).found = s.found :=
  (decide_cases top.node _).found_eq

@[simp] theorem scanned_take (top : KeyedNode α) (r : KeyedQueue α) (s : State α) :
    (take top r s).scanned = s.scanned :=
  (decide_cases top.node _).scanned_eq

@[simp] theorem space_take (top : KeyedNode α) (r : KeyedQueue α) (s : State α) :
    (take top r s).space = { s.space with queue := r } :=
  (decide_cases top.node _).space_eq

@[simp] theorem isDeletable_take (top : KeyedNode α) (r : KeyedQueue α) (s : State α) (i : Nat) :
    (take top r s).isDeletable i = s.isDeletable i := by
  unfold State.isDeletable take
  rw [(decide_cases top.node _).deletable_eq]

/-- The counters are not part of what the tables are. -/
theorem Tables.recount (h : Tables t s) (decided scanned : Nat) :
    Tables t { s with decided := decided, scanned := scanned } :=
  ⟨h.sized, h.room, h.consistent, h.flags, h.slot, h.found, h.waiting⟩

theorem Tables.decide (h : Tables t s) {k : Nat} {s' : State α} (hs' : Decided k s s') :
    Tables t s' := by
  cases hs' with
  | same _ => exact h
  | more _ _ => exact h.recount _ _

variable [Weight α]

theorem Tables.take (h : Tables t s) {top : KeyedNode α} {r : KeyedQueue α}
    (hpop : s.space.queue.popMin? = some (top, r)) :
    Tables t (take top r s) ∧ s.space.Dequeued top.node (StarSearch.take top r s).space := by
  have hdequeued := StarSpace.dequeued h.sized h.consistent hpop
  have htables : Tables t { s with space := { s.space with queue := r } } :=
    ⟨hdequeued.sized, h.room, hdequeued.consistent, h.flags, h.slot, h.found,
      fun v hv => h.waiting v ((hdequeued.waits v).mp hv).1⟩
  exact ⟨htables.decide (decide_cases top.node _), (space_take top r s).symm ▸ hdequeued⟩

/-! ### An arc to an open node -/

/-- A path of length `d` from the base `base?` leads over `k` to the open node `m`. -/
def meet (t : StarSearch α) (k : Nat) (base? : Option Nat) (m : Nat) (d : α) (s : State α) :
    State α :=
  { t.report base? m d s with space := improve k base? m d (t.report base? m d s).space }

/-- What the report of the arc to `m` comes to. -/
inductive Reported (t : StarSearch α) (base? : Option Nat) (m : Nat) (d : α) (s : State α) :
    State α → Prop
  /-- There is no arc, or it is not replaced, or it was reported before. -/
  | skip (h : ∀ i e, s.space.slotOf m = some i → t.centerRow[i]? = some e →
      base? = some m ∨ s.isDeletable i = true ∨ Weight.atMost d e.cost = false) :
      Reported t base? m d s s
  /-- The arc is reported. -/
  | delete {i : Nat} {e : RowEntry α} (hslot : s.space.slotOf m = some i)
      (he : t.centerRow[i]? = some e) (hbase : base? ≠ some m)
      (hopen : s.isDeletable i = false) (hle : Weight.atMost d e.cost = true) :
      Reported t base? m d s (s.delete i)

theorem report_cases (t : StarSearch α) (base? : Option Nat) (m : Nat) (d : α) (s : State α) :
    Reported t base? m d s (t.report base? m d s) := by
  unfold report
  cases hslot : s.space.slotOf m with
  | none => exact .skip fun i e hi => by rw [hslot] at hi; cases hi
  | some i =>
    dsimp only
    split
    · next hrep =>
      unfold replaces at hrep
      cases he : t.centerRow[i]? with
      | none => simp [he] at hrep
      | some e =>
        simp only [he, Bool.and_eq_true, decide_eq_true_eq, Bool.not_eq_true'] at hrep
        exact .delete hslot he hrep.1.1 hrep.1.2 hrep.2
    · next hrep =>
      refine .skip fun j e hj he => ?_
      rw [hslot] at hj
      obtain rfl := Option.some.inj hj
      by_contra hnot
      simp only [not_or, Bool.not_eq_true, Bool.not_eq_false] at hnot
      refine hrep ?_
      simp [replaces, he, hnot]

theorem Reported.space_eq {base? : Option Nat} {m : Nat} {d : α} {s s' : State α}
    (h : Reported t base? m d s s') : s'.space = s.space := by
  cases h with
  | skip _ => rfl
  | delete _ _ _ _ _ => rfl

theorem scanned_report (t : StarSearch α) (base? : Option Nat) (m : Nat) (d : α) (s : State α) :
    (t.report base? m d s).scanned = s.scanned := by
  have hreport := report_cases t base? m d s
  generalize t.report base? m d s = s' at hreport
  cases hreport with
  | skip _ => rfl
  | delete _ _ _ _ _ => rfl

theorem space_report (t : StarSearch α) (base? : Option Nat) (m : Nat) (d : α) (s : State α) :
    (t.report base? m d s).space = s.space :=
  (report_cases t base? m d s).space_eq

@[simp] theorem space_meet (t : StarSearch α) (k : Nat) (base? : Option Nat) (m : Nat) (d : α)
    (s : State α) : (t.meet k base? m d s).space = improve k base? m d s.space :=
  congrArg (improve k base? m d) (space_report t base? m d s)

/-- What a new path to `m` comes to. -/
inductive Improved (k : Nat) (base? : Option Nat) (m : Nat) (d : α) (w : StarSpace α) :
    StarSpace α → Prop
  /-- It is not shorter. -/
  | skip (h : Weight.below d (w.distOf m) = false) : Improved k base? m d w w
  /-- It is shorter, and `m` is labeled with it. -/
  | label (h : Weight.below d (w.distOf m) = true) :
      Improved k base? m d w ((w.label m d (base?.getD k) k).enqueue m d)

theorem improve_cases (k : Nat) (base? : Option Nat) (m : Nat) (d : α) (w : StarSpace α) :
    Improved k base? m d w (improve k base? m d w) := by
  unfold improve
  cases h : Weight.below d (w.distOf m) with
  | true => exact .label h
  | false => exact .skip h

theorem Improved.capacity_eq {k m : Nat} {base? : Option Nat} {d : α} {w w' : StarSpace α}
    (h : Improved k base? m d w w') : w'.capacity = w.capacity := by
  cases h with
  | skip _ => rfl
  | label _ => exact StarSpace.capacity_label (b := base?.getD k) (p := k)

/-- A label on an open node leaves the tables in order. -/
theorem Tables.label (h : Tables t s) {m : Nat} (hm : m ≠ t.center ∧ m < t.rows.nodeCount)
    (hopen : ¬ s.space.Removed m) (d : α) (b p : Nat) :
    Tables t { s with space := (s.space.label m d b p).enqueue m d } ∧
      s.space.Labeled m d b ((s.space.label m d b p).enqueue m d) := by
  have hmc : m < s.space.capacity := lt_of_lt_of_le hm.2 h.room
  obtain ⟨htables, henqueued⟩ := h.enqueue (w := s.space.label m d b p) h.sized.label
    StarSpace.capacity_label rfl h.slot hm hopen d
  exact ⟨htables, {
    toEnqueued := henqueued
    dist_self := StarSpace.distOf_label_self (b := b) (p := p) hmc
    dist_ne := fun u hu => StarSpace.distOf_label_of_ne (b := b) (p := p) hu
    base_self := StarSpace.baseOf_label_self (d := d) (p := p) h.sized hmc
    base_ne := fun u hu => StarSpace.baseOf_label_of_ne (d := d) (p := p) hu
    slot := fun _ => rfl }⟩

/-! ### Scans and steps -/

/-- The state with one more arc scanned. -/
def State.count (s : State α) : State α := { s with scanned := s.scanned + 1 }

/-- The length of the path over the arc `e` out of `k`. -/
def lengthOver (t : StarSearch α) (k : Nat) (dist : α) (came? : Option Nat) (e : RowEntry α) : α :=
  dist + e.cost - t.discount k e.head came? e.cost

/-- What scanning an arc comes to. -/
inductive Scanned (t : StarSearch α) (k : Nat) (dist : α) (base? came? : Option Nat)
    (s : State α) (e : RowEntry α) : Except (Halt (State α)) (State α) → Prop
  /-- The arc leads to the center, or to a node that was taken out. -/
  | skips (h : e.head = t.center ∨ s.space.Removed e.head) :
      Scanned t k dist base? came? s e (.ok s)
  /-- There are more scans than are allowed. -/
  | exceeds (h : t.arcLimit < s.count.scanned) :
      Scanned t k dist base? came? s e (.error (.overBudget s.count))
  /-- The path is too long. -/
  | passes (hc : e.head ≠ t.center) (hopen : ¬ s.space.Removed e.head)
      (hfar : Weight.above (t.lengthOver k dist came? e) t.radius = true) :
      Scanned t k dist base? came? s e (.ok s.count)
  /-- The path reaches an open node. -/
  | meets (hc : e.head ≠ t.center) (hopen : ¬ s.space.Removed e.head)
      (hnear : Weight.above (t.lengthOver k dist came? e) t.radius = false) :
      Scanned t k dist base? came? s e
        (.ok (t.meet k base? e.head (t.lengthOver k dist came? e) s.count))

theorem scan_cases (t : StarSearch α) (k : Nat) (dist : α) (base? came? : Option Nat)
    (s : State α) (e : RowEntry α) :
    Scanned t k dist base? came? s e (t.scan k dist base? came? s e) := by
  unfold scan
  dsimp only
  split
  · next h => exact .skips h
  · next h =>
    rw [not_or] at h
    split
    · next hlimit => exact .exceeds hlimit
    · split
      · next hfar => exact .passes h.1 h.2 hfar
      · next hfar => exact .meets h.1 h.2 (Bool.eq_false_iff.mpr hfar)

/-- What a step comes to. -/
inductive Settled (t : StarSearch α) (s : State α) : Progress (State α) Unit → Prop
  /-- Nothing waits. -/
  | ends (hnone : s.space.queue.popMin? = none) : Settled t s (.done () s)
  /-- Every arc is decided. -/
  | stops {top : KeyedNode α} {r : KeyedQueue α} (hpop : s.space.queue.popMin? = some (top, r))
      (hall : t.centerRow.length ≤ (take top r s).decided) :
      Settled t s (.done () (take top r s))
  /-- The row of the node that was taken out is scanned. -/
  | scans {top : KeyedNode α} {r : KeyedQueue α} (hpop : s.space.queue.popMin? = some (top, r)) :
      Settled t s (.ofScan () ((t.rows.row top.node).foldlM
        (t.scan top.node top.key (s.space.baseOf top.node) (s.space.prevOf top.node))
        (take top r s)))

theorem settleNext_cases (t : StarSearch α) (s : State α) : Settled t s (t.settleNext s) := by
  unfold settleNext
  cases hpop : s.space.queue.popMin? with
  | none => exact .ends hpop
  | some popped =>
    obtain ⟨top, r⟩ := popped
    have hspace := space_take top r s
    dsimp only
    rw [← take]
    split
    · next hall => exact .stops hpop hall
    · rw [hspace]
      exact .scans hpop

/-! ### Answers -/

/-- What the buffer for the reports held before is overwritten. -/
theorem runInto_eq_run {buffer : Array Bool} (hbuffer : buffer.size = t.centerRow.length)
    (w : StarSpace α) : t.runInto buffer w = t.run w := by
  have hblank : buffer.map (fun _ => false) =
      (Array.replicate t.centerRow.length false).map fun _ => false := by
    rw [Array.map_const', Array.map_const', hbuffer, Array.size_replicate]
  unfold run runInto
  rw [hblank]

theorem run_of_short (hc : t.center < t.rows.nodeCount) (hshort : t.centerRow.length ≤ 1)
    (w : StarSpace α) : t.run w =
      .ok ⟨false, Array.replicate t.centerRow.length false, { w with scanned := 0 }⟩ := by
  unfold run runInto
  rw [checkNode, if_pos hc, ok_bind, Array.map_replicate]
  dsimp only
  rw [if_pos hshort]
  rfl

theorem run_of_long (hc : t.center < t.rows.nodeCount) (hlong : ¬ t.centerRow.length ≤ 1)
    {w : StarSpace α}
    (hrun : Progress.run t.settleNext () (w.capacity + 1) (t.seeded w) = .ok ((), s)) :
    t.run w = .ok ⟨s.found, s.deletable, { s.space with scanned := s.scanned }.reset⟩ := by
  unfold seeded start at hrun
  unfold run runInto
  rw [checkNode, if_pos hc, ok_bind, Array.map_replicate]
  dsimp only
  rw [if_neg hlong]
  change (Progress.run t.settleNext () (w.capacity + 1) _ >>= _) = _
  rw [hrun]
  rfl

end StarSearch

end SteinerSearch
