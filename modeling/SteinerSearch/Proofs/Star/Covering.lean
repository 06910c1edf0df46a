import SteinerSearch.Proofs.Star.Steps

/-!
# Covered nodes of a star search

An arc is reported against the state of the moment.  That no later report spoils its
replacement is due to the order: a path on which a report rests starts at a neighbour
that was taken out, and arcs to such neighbours are never reported.  So the paths that
reports rest on never form a circle, whatever weights are, whatever a bias gives, and
in whatever order nodes are taken out.

What the distance of a node says about the path to it is left open: `fits x es` is any
relation that arcs of the center start and longer paths keep.

## Main definitions

* `StarSearch.Covered t fits s v x` — a path to `v` starts with the unreported arc to a
  neighbour that was taken out, and the distance `x` fits it.
* `StarSearch.Fitting t fits` — the relation is kept by all steps of the search.
* `StarSearch.Sound t fits s` — what holds after the start.

## Main results

* `StarSearch.Sound.delete` — a report that rests on a covered path keeps the invariant.
* `StarSearch.Sound.settleNext` — each step keeps it.
* `StarSearch.run_covers` — all reported arcs lead to covered nodes.
-/

namespace SteinerSearch

namespace StarSearch

variable {α : Type} {t : StarSearch α} {s s' s'' : State α}
  {fits : α → List (RowEntry α) → Prop}

/-! ### What steps keep -/

/-- Slots stay, nodes that were taken out stay so, and no arc to one of them is reported. -/
structure Keeps (s s' : State α) : Prop where
  slot : ∀ m, s'.space.slotOf m = s.space.slotOf m
  removed : ∀ m, s.space.Removed m → s'.space.Removed m
  unreported : ∀ m j, s.space.Removed m → s.space.slotOf m = some j →
    s.isDeletable j = false → s'.isDeletable j = false

theorem Keeps.refl (s : State α) : Keeps s s :=
  ⟨fun _ => rfl, fun _ h => h, fun _ _ _ _ h => h⟩

theorem Keeps.trans (h : Keeps s s') (h' : Keeps s' s'') : Keeps s s'' where
  slot m := (h'.slot m).trans (h.slot m)
  removed m hm := h'.removed m (h.removed m hm)
  unreported m j hm hj hopen := h'.unreported m j (h.removed m hm) ((h.slot m).trans hj)
    (h.unreported m j hm hj hopen)

/-- Reporting the arc to a node that was not taken out touches no other arc. -/
theorem keeps_delete (h : Tables t s) {m i : Nat} (hslot : s.space.slotOf m = some i)
    (hopen : ¬ s.space.Removed m) : Keeps s (s.delete i) := by
  obtain ⟨e, he, -⟩ := h.slot m i hslot
  have hsize : i < s.deletable.size := by
    rw [h.flags]
    exact lt_length_of_getElem? he
  refine ⟨fun _ => rfl, fun _ hu => hu, fun u j hu hj hdel => ?_⟩
  refine (isDeletable_delete_eq_false hsize).mpr ⟨hdel, fun hji => hopen ?_⟩
  rwa [← h.head_injective (hji ▸ hj) hslot]

/-! ### Covered nodes -/

/-- A path to `v` starts with the unreported arc to a neighbour that was taken out, never
comes back to the center, and is one that the distance `x` fits. -/
def Covered (t : StarSearch α) (fits : α → List (RowEntry α) → Prop) (s : State α) (v : Nat)
    (x : α) : Prop :=
  ∃ j first es, t.centerRow[j]? = some first ∧ s.isDeletable j = false ∧
    s.space.slotOf first.head = some j ∧ s.space.Removed first.head ∧
    t.rows.IsPath t.center (first :: es) v ∧ (∀ e ∈ first :: es, e.head ≠ t.center) ∧
    fits x (first :: es)

theorem Covered.imp {v : Nat} {x y : α} (h : Covered t fits s v x)
    (hxy : ∀ es, fits x es → fits y es) : Covered t fits s v y := by
  obtain ⟨j, first, es, hfirst, hopen, hslot, hrem, hpath, haway, hfits⟩ := h
  exact ⟨j, first, es, hfirst, hopen, hslot, hrem, hpath, haway, hxy _ hfits⟩

/-- A node stays covered. -/
theorem Covered.mono {v : Nat} {x : α} (h : Covered t fits s v x) (hs : Keeps s s') :
    Covered t fits s' v x := by
  obtain ⟨j, first, es, hfirst, hopen, hslot, hrem, hrest⟩ := h
  exact ⟨j, first, es, hfirst, hs.unreported _ j hrem hslot hopen, (hs.slot _).trans hslot,
    hs.removed _ hrem, hrest⟩

variable [Weight α]

/-- The relation is kept by all steps of the search. -/
structure Fitting (t : StarSearch α) (fits : α → List (RowEntry α) → Prop) : Prop where
  /-- The cost of an arc of the center fits the arc. -/
  own : ∀ e ∈ t.centerRow, fits e.cost [e]
  /-- A path can be longer by an arc. -/
  extend : ∀ k x came? es, ∀ e ∈ t.rows.row k, fits x es →
    fits (t.lengthOver k x came? e) (es ++ [e])
  /-- An arc of the center may be reported for a path. -/
  within : ∀ x es, ∀ e ∈ t.centerRow, Weight.atMost x e.cost = true → fits x es → fits e.cost es
  /-- An arc of the center may give its place to another one. -/
  beyond : ∀ x ∈ t.centerRow, ∀ y ∈ t.centerRow, Weight.atMost x.cost y.cost = false →
    ∀ es, fits y.cost es → fits x.cost es

/-- Of parallel arcs, what fits the one that is kept fits the others. -/
theorem Fitting.ranks (h : Fitting t fits) :
    Ranks t fun a b => ∀ es, fits a es → fits b es where
  keep x _ y hy hle es := h.within x.cost es y hy hle
  replace x hx y hy hle := h.beyond x hx y hy hle
  trans _ _ _ hab hbc es hes := hbc es (hab es hes)

theorem Covered.extend {v : Nat} {x : α} {e : RowEntry α} (h : Covered t fits s v x)
    (hf : Fitting t fits) (he : e ∈ t.rows.row v) (hc : e.head ≠ t.center) (came? : Option Nat) :
    Covered t fits s e.head (t.lengthOver v x came? e) := by
  obtain ⟨j, first, es, hfirst, hopen, hslot, hrem, hpath, haway, hfits⟩ := h
  refine ⟨j, first, es ++ [e], hfirst, hopen, hslot, hrem, ?_, fun y hy => ?_,
    hf.extend v x came? _ e he hfits⟩
  · show t.rows.IsPath t.center ((first :: es) ++ [e]) e.head
    exact Rows.isPath_concat.mpr ⟨v, hpath, he, rfl⟩
  · rcases List.mem_append (s := first :: es).mp hy with hy | hy
    · exact haway y hy
    · rwa [List.mem_singleton.mp hy]

/-! ### The invariant -/

/-- What holds after the start. -/
structure Sound (t : StarSearch α) (fits : α → List (RowEntry α) → Prop) (s : State α) : Prop
    extends Tables t s where
  /-- Every arc is in a slot, or reported for one that fits no worse. -/
  seeded : ∀ i e, t.centerRow[i]? = some e → Seated t (fun a b => ∀ es, fits a es → fits b es) s i e
  /-- Nodes that were taken out are covered by their distance. -/
  settled : ∀ v, s.space.Removed v → Covered t fits s v (s.space.distOf v)
  /-- So are waiting ones, unless they have the cost of their own arc. -/
  pending : ∀ v, s.space.Waits v → Covered t fits s v (s.space.distOf v) ∨
    ∃ j e, s.space.slotOf v = some j ∧ t.centerRow[j]? = some e ∧ s.space.distOf v = e.cost
  /-- A reported arc in a slot leads to a node that is covered by its cost. -/
  reported : ∀ v j e, s.space.slotOf v = some j → t.centerRow[j]? = some e →
    s.isDeletable j = true → Covered t fits s v e.cost

theorem Seeding.sound (h : Seeding t (fun a b => ∀ es, fits a es → fits b es)
    t.centerRow.length s) : Sound t fits s where
  toTables := h.toTables
  seeded i e he := h.seeded i e (lt_length_of_getElem? he) he
  settled v hv := absurd hv (h.removed v)
  pending v hv := by
    obtain ⟨j, hj⟩ := (h.slot_waits v).mp hv
    obtain ⟨e, he, -⟩ := h.slot v j hj
    exact Or.inr ⟨j, e, hj, he, (h.slot_cost v j e hj he).2.1⟩
  reported v j e hj he hdel := by
    rw [(h.slot_cost v j e hj he).2.2] at hdel
    cases hdel

/-! ### Steps -/

/-- The counters are not part of what holds. -/
theorem Sound.count (h : Sound t fits s) : Sound t fits s.count :=
  ⟨h.toTables.recount _ _, h.seeded, h.settled, h.pending, h.reported⟩

/-- A node that is taken out is covered: by its distance, or by its own arc, or by what this
arc was reported for. -/
theorem Sound.take (h : Sound t fits s) (hf : Fitting t fits) {top : KeyedNode α}
    {r : KeyedQueue α} (hpop : s.space.queue.popMin? = some (top, r)) :
    Sound t fits (take top r s) ∧
      Covered t fits (StarSearch.take top r s) top.node (s.space.distOf top.node) := by
  obtain ⟨htables, hdequeued⟩ := h.toTables.take hpop
  have hopen := isDeletable_take top r s
  generalize StarSearch.take top r s = s' at htables hdequeued hopen ⊢
  have hkeeps : Keeps s s' := ⟨hdequeued.slot, fun m hm => (hdequeued.removed m).mpr (Or.inl hm),
    fun m j _ _ hj => (hopen j).trans hj⟩
  have htop : s'.space.Removed top.node := (hdequeued.removed _).mpr (Or.inr rfl)
  have hcov : Covered t fits s' top.node (s.space.distOf top.node) := by
    rcases h.pending _ hdequeued.waited with hcov | ⟨j, e, hj, he, hcost⟩
    · exact hcov.mono hkeeps
    · rw [hcost]
      cases hdel : s.isDeletable j with
      | true => exact (h.reported _ j e hj he hdel).mono hkeeps
      | false =>
        obtain ⟨e', he', hhead⟩ := h.slot _ j hj
        rw [he] at he'
        obtain rfl := Option.some.inj he'
        rw [← hhead] at hj htop
        refine ⟨j, e, [], he, (hopen j).trans hdel, (hdequeued.slot _).trans hj, htop,
          ⟨mem_centerRow he, hhead⟩, fun y hy => ?_, hf.own e (mem_centerRow he)⟩
        rw [List.mem_singleton.mp hy, hhead]
        exact (h.waiting _ hdequeued.waited).1
  refine ⟨⟨htables, fun i e he => ?_, fun v hv => ?_, fun v hv => ?_,
    fun v j e hj he hdel => ?_⟩, hcov⟩
  · exact (h.seeded i e he).mono (hdequeued.slot _) (hopen i).trans
  · rw [hdequeued.dist]
    rcases (hdequeued.removed v).mp hv with hv | rfl
    · exact (h.settled v hv).mono hkeeps
    · exact hcov
  · rw [hdequeued.dist, hdequeued.slot]
    exact (h.pending v ((hdequeued.waits v).mp hv).1).imp_left fun hv => hv.mono hkeeps
  · exact (h.reported v j e ((hdequeued.slot v).symm.trans hj) he
      ((hopen j).symm.trans hdel)).mono hkeeps

/-- Reporting the arc to a node that was not taken out, but is covered by its cost. -/
theorem Sound.delete (h : Sound t fits s) {m i : Nat} {e : RowEntry α}
    (hslot : s.space.slotOf m = some i) (he : t.centerRow[i]? = some e)
    (hopen : ¬ s.space.Removed m) (hcov : Covered t fits s m e.cost) :
    Sound t fits (s.delete i) := by
  have hi := lt_length_of_getElem? he
  have hsize : i < s.deletable.size := by rwa [h.flags]
  have hkeeps := keeps_delete h.toTables hslot hopen
  refine ⟨h.toTables.delete hi, fun j x hx => ?_, fun v hv => (h.settled v hv).mono hkeeps,
    fun v hv => (h.pending v hv).imp_left fun hv => hv.mono hkeeps, fun v j x hj hx hdel => ?_⟩
  · exact (h.seeded j x hx).mono rfl fun hdel => (isDeletable_delete hsize).mpr (Or.inl hdel)
  · rcases (isDeletable_delete hsize).mp hdel with hdel | rfl
    · exact (h.reported v j x hj hx hdel).mono hkeeps
    · rw [he] at hx
      obtain rfl := Option.some.inj hx
      rw [h.head_injective hj hslot]
      exact hcov.mono hkeeps

/-- A path of length `d` is found to `m`, which it covers: its arc may be reported. -/
theorem Sound.report (h : Sound t fits s) (hf : Fitting t fits) {m : Nat}
    (hopen : ¬ s.space.Removed m) {d : α} (hcov : Covered t fits s m d) {base? : Option Nat}
    (hs' : Reported t base? m d s s') : Sound t fits s' ∧ Keeps s s' := by
  cases hs' with
  | skip _ => exact ⟨h, Keeps.refl s⟩
  | delete hslot he _ _ hle =>
    exact ⟨h.delete hslot he hopen (hcov.imp fun es => hf.within d es _ (mem_centerRow he) hle),
      keeps_delete h.toTables hslot hopen⟩

/-- A node gets the distance of a path that covers it. -/
theorem Sound.improve (h : Sound t fits s) {m : Nat} (hm : m ≠ t.center ∧ m < t.rows.nodeCount)
    (hopen : ¬ s.space.Removed m) {d : α} (hcov : Covered t fits s m d) {k : Nat}
    {base? : Option Nat} {w : StarSpace α} (hw : Improved k base? m d s.space w) :
    Sound t fits { s with space := w } ∧ Keeps s { s with space := w } := by
  cases hw with
  | skip _ => exact ⟨h, Keeps.refl s⟩
  | label _ =>
    obtain ⟨htables, hlabeled⟩ := h.toTables.label hm hopen d (base?.getD k) k
    set w := (s.space.label m d (base?.getD k) k).enqueue m d with hw
    have hkeeps : Keeps s { s with space := w } :=
      ⟨hlabeled.slot, fun u hu => (hlabeled.removed u).mpr hu, fun _ _ _ _ hdel => hdel⟩
    refine ⟨⟨htables, h.seeded, fun v hv => ?_, fun v hv => ?_,
      fun v j e hj he hdel => (h.reported v j e hj he hdel).mono hkeeps⟩, hkeeps⟩
    · have hv := (hlabeled.removed v).mp hv
      have hvm : v ≠ m := fun heq => hopen (heq ▸ hv)
      change Covered t fits _ v (w.distOf v)
      rw [hlabeled.dist_ne v hvm]
      exact (h.settled v hv).mono hkeeps
    · change Covered t fits _ v (w.distOf v) ∨ ∃ j, ∃ e : RowEntry α, _ ∧ _ ∧ w.distOf v = e.cost
      by_cases hvm : v = m
      · left
        rw [hvm, hlabeled.dist_self]
        exact hcov.mono hkeeps
      · rw [hlabeled.dist_ne v hvm]
        exact (h.pending v (((hlabeled.waits v).mp hv).resolve_right hvm)).imp_left
          fun hv => hv.mono hkeeps

/-- A path that covers an open node reaches it. -/
theorem Sound.meet (h : Sound t fits s) (hf : Fitting t fits) {m : Nat}
    (hm : m ≠ t.center ∧ m < t.rows.nodeCount) (hopen : ¬ s.space.Removed m) {d : α}
    (hcov : Covered t fits s m d) {k : Nat} {base? : Option Nat}
    (hs' : Reported t base? m d s s') {w : StarSpace α} (hw : Improved k base? m d s'.space w) :
    Sound t fits { s' with space := w } ∧ Keeps s { s' with space := w } := by
  obtain ⟨hreported, hkeeps⟩ := h.report hf hopen hcov hs'
  obtain ⟨himproved, hkeeps'⟩ := hreported.improve hm (hs'.space_eq ▸ hopen)
    (hcov.mono hkeeps) hw
  exact ⟨himproved, hkeeps.trans hkeeps'⟩

/-- The scan of the row of `k`, which was taken out with the key `dist`. -/
structure Scanning (t : StarSearch α) (fits : α → List (RowEntry α) → Prop) (k : Nat) (dist : α)
    (s : State α) : Prop where
  sound : Sound t fits s
  covered : Covered t fits s k dist

theorem Scanning.scan {k : Nat} {dist : α} {base? came? : Option Nat} {e : RowEntry α}
    {o : Except (Halt (State α)) (State α)} (h : Scanning t fits k dist s)
    (hf : Fitting t fits) (hr : t.rows.WellFormed) (he : e ∈ t.rows.row k)
    (ho : Scanned t k dist base? came? s e o) :
    (∃ s', o = .ok s' ∧ Scanning t fits k dist s') ∨
      ∃ s', o = .error (.overBudget s') ∧ Sound t fits s' := by
  have hcount : Keeps s s.count := ⟨fun _ => rfl, fun _ hu => hu, fun _ _ _ _ hdel => hdel⟩
  cases ho with
  | skips _ => exact Or.inl ⟨s, rfl, h⟩
  | exceeds _ => exact Or.inr ⟨_, rfl, h.sound.count⟩
  | passes _ _ _ => exact Or.inl ⟨_, rfl, h.sound.count, h.covered.mono hcount⟩
  | meets hc hopen _ =>
    obtain ⟨hmet, hkeeps⟩ := h.sound.count.meet hf ⟨hc, hr.head_lt k e he⟩ hopen
      ((h.covered.mono hcount).extend hf he hc came?) (report_cases ..) (improve_cases ..)
    exact Or.inl ⟨_, rfl, hmet, h.covered.mono (hcount.trans hkeeps)⟩

/-- One step of a run.  Keys only have to fit what the distances fit. -/
theorem Sound.settleNext (h : Sound t fits s) (hf : Fitting t fits) (hr : t.rows.WellFormed)
    (hkey : ∀ top r, s.space.queue.popMin? = some (top, r) →
      ∀ es, fits (s.space.distOf top.node) es → fits top.key es) :
    (∃ s', t.settleNext s = .more s' ∧ Sound t fits s') ∨
      ∃ s', t.settleNext s = .done () s' ∧ Sound t fits s' := by
  have hstep := settleNext_cases t s
  generalize t.settleNext s = p at hstep ⊢
  cases hstep with
  | ends _ => exact Or.inr ⟨s, rfl, h⟩
  | stops hpop _ => exact Or.inr ⟨_, rfl, (h.take hf hpop).1⟩
  | scans hpop =>
    rename_i top r
    obtain ⟨htaken, hcov⟩ := h.take hf hpop
    rcases Progress.ofScan_ensures (J := fun _ => Scanning t fits top.node top.key)
      (B := Sound t fits) () (t.rows.row top.node)
      (f := t.scan top.node top.key (s.space.baseOf top.node) (s.space.prevOf top.node))
      (fun _ e s₁ he hs₁ => hs₁.scan hf hr he (scan_cases t _ _ _ _ s₁ e))
      ⟨htaken, hcov.imp (hkey top r hpop)⟩ with ⟨s', hs', hJ⟩ | ⟨s', hs', hB⟩
    · exact Or.inl ⟨s', hs', hJ.sound⟩
    · exact Or.inr ⟨s', hs', hB⟩

/-! ### Answers -/

/-- At any moment the reported arcs lead to nodes that are covered by their costs: an arc in
a slot by what it was reported for, any other by the arc in the slot. -/
theorem Sound.exists_path (h : Sound t fits s) (hf : Fitting t fits) (hr : t.rows.WellFormed)
    {i : Nat} {e : RowEntry α} (he : t.centerRow[i]? = some e) :
    ∃ j first es, t.centerRow[j]? = some first ∧ s.isDeletable j = false ∧
      t.rows.IsPath t.center (first :: es) e.head ∧
      (∀ x ∈ first :: es, x.head ≠ t.center) ∧ fits e.cost (first :: es) := by
  obtain ⟨j, x, hj, hx, hor⟩ := h.seeded i e he
  have hfits : ∀ es, fits x.cost es → fits e.cost es := by
    rcases hor with rfl | ⟨-, hfits⟩
    · rw [he] at hx
      obtain rfl := Option.some.inj hx
      exact fun _ hes => hes
    · exact hfits
  have hhead : x.head = e.head := by
    obtain ⟨y, hy, hyhead⟩ := h.slot _ _ hj
    rw [hx] at hy
    rw [Option.some.inj hy, hyhead]
  cases hxdel : s.isDeletable j with
  | true =>
    obtain ⟨k, first, es, hfirst, hdel, -, -, hpath, haway, hcost⟩ := h.reported _ j x hj hx hxdel
    exact ⟨k, first, es, hfirst, hdel, hpath, haway, hfits _ hcost⟩
  | false =>
    refine ⟨j, x, [], hx, hxdel, ⟨mem_centerRow hx, hhead⟩, fun y hy => ?_,
      hfits _ (hf.own x (mem_centerRow hx))⟩
    rw [List.mem_singleton.mp hy]
    exact (head_ok hr hx).1

/-- Whatever cuts a search short and whatever arc of the center is taken, the node it leads to is
reached over an arc that is not reported.  The distances may be followed along the run by an
invariant of their own. -/
theorem run_covers {K : State α → Prop} (hf : Fitting t fits) (hr : t.rows.WellFormed)
    (hc : t.center < t.rows.nodeCount) {w : StarSpace α} (hw : w.Ready)
    (hroom : t.rows.nodeCount ≤ w.capacity) (hfirst : K (t.start w))
    (hnext : ∀ n s e s', Seeding t (fun a b => ∀ es, fits a es → fits b es) n s →
      t.centerRow[n]? = some e → Seeded t s e n s' → K s → K s')
    (hmore : ∀ s s', Tables t s → K s → t.settleNext s = .more s' → K s')
    (hkey : ∀ s top r, K s → s.space.queue.popMin? = some (top, r) →
      ∀ es, fits (s.space.distOf top.node) es → fits top.key es) :
    ∃ answer, t.run w = .ok answer ∧ answer.deletable.size = t.centerRow.length ∧
      (∀ (i : Nat) (e : RowEntry α), t.centerRow[i]? = some e →
        ∃ j first es, t.centerRow[j]? = some first ∧ answer.deletable.getD j false = false ∧
          t.rows.IsPath t.center (first :: es) e.head ∧
          (∀ x ∈ first :: es, x.head ≠ t.center) ∧ fits e.cost (first :: es)) ∧
      (answer.found = true ↔ ∃ i, answer.deletable.getD i false = true) := by
  by_cases hshort : t.centerRow.length ≤ 1
  · have hblank := isDeletable_start t w
    refine ⟨_, run_of_short hc hshort w, Array.size_replicate, fun i e he => ?_,
      fun hf => absurd hf Bool.false_ne_true, fun ⟨i, hi⟩ => ?_⟩
    · refine ⟨i, e, [], he, hblank i, ⟨mem_centerRow he, rfl⟩, fun y hy => ?_,
        hf.own e (mem_centerRow he)⟩
      rw [List.mem_singleton.mp hy]
      exact (head_ok hr he).1
    · have hi : (t.start w).isDeletable i = true := hi
      rw [hblank i] at hi
      cases hi
  · obtain ⟨hseeding, hK⟩ := seeding_ensures hf.ranks hr hw hroom hfirst hnext
    obtain ⟨_, s, hrun, hsound⟩ := Progress.run_ensures (e := ())
      (I := fun _ s => Sound t fits s ∧ K s) (Q := fun _ => Sound t fits) (fun s hs => hs.1)
      (fun n s hs => by
        rcases hs.1.settleNext hf hr (hkey s · · hs.2) with ⟨s', hs', h⟩ | ⟨s', h⟩
        · exact Or.inl ⟨s', hs', h, hmore s s' hs.1.toTables hs.2 hs'⟩
        · exact Or.inr ⟨(), s', h⟩) (w.capacity + 1) _ ⟨hseeding.sound, hK⟩
    exact ⟨_, run_of_long hc hshort hrun, hsound.flags, fun i e he => hsound.exists_path hf hr he,
      hsound.found⟩

end StarSearch

end SteinerSearch
