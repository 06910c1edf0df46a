import SteinerSearch.Proofs.Star.Counting
import SteinerSearch.Proofs.Truncation

/-!
# What a star search leaves in its tables

A star search restores the entries of touched nodes only.  A node is listed as touched when it
is labeled while its distance looks like that of an unreached node and it has no slot.  So a node
whose label does not show, because the cost of its arc is that very distance, must have a slot,
and a node that waits or was taken out must have been labeled.  With this in hand the reset
restores whatever the search changed, at whatever moment it ends.

## Main definitions

* `StarSpace.BlankAt w v` — the entries of `v` are those of new tables.
* `StarSpace.Tracked w` — nodes that are not listed are blank.
* `StarSearch.Tidy t w₀ n s` — what holds at every moment, when `n` nodes were taken out.

## Main results

* `StarSpace.Tracked.label` and its companions — what a search writes is tracked.
* `StarSpace.Tracked.ready_reset` — a reset restores all that was written.
* `StarSearch.Tidy.scan`, `StarSearch.Tidy.settleNext` — each step is tidy, and takes out a node.
-/

namespace SteinerSearch

namespace StarSpace

variable {α : Type} [Weight α] {w : StarSpace α} {u v : Nat}

/-- The entries of `v` are those of new tables. -/
structure BlankAt (w : StarSpace α) (v : Nat) : Prop where
  dist : Weight.LooksFar (w.distOf v)
  base : w.baseOf v = none
  prev : w.prevOf v = none
  slot : w.slotOf v = none
  place : w.queue.placeOf v = .unknown

theorem isBlankAt_iff : w.isBlankAt v = true ↔ w.BlankAt v := by
  constructor
  · intro h
    simp only [isBlankAt, Bool.and_eq_true, Option.isNone_iff_eq_none, decide_eq_true_eq] at h
    obtain ⟨⟨⟨⟨hdist, hbase⟩, hprev⟩, hslot⟩, hplace⟩ := h
    exact ⟨hdist, hbase, hprev, hslot, hplace⟩
  · intro h
    have hdist : Weight.same (w.distOf v) Weight.faraway = true := h.dist
    simp [isBlankAt, hdist, h.base, h.prev, h.slot, h.place]

/-- Nodes that are not listed as touched are blank. -/
def Tracked (w : StarSpace α) : Prop := ∀ v, v ∉ w.touched.toList → w.BlankAt v

/-! ### Before a search -/

theorem Ready.blankAt (hw : w.Ready) (hfar : Weight.LooksFar (Weight.faraway : α)) (v : Nat) :
    w.BlankAt v := by
  by_cases hv : v < w.capacity
  · exact isBlankAt_iff.mp (hw.isBlankAt hv)
  · -- a table says of a node that it has no entry for what it says of a blank one
    have hv := Nat.le_of_not_lt hv
    refine ⟨?_, hw.baseOf_eq v, ?_, hw.slotOf_eq v, hw.placeOf_eq v⟩
    · rw [distOf, Array.getD_of_size_le hv]
      exact hfar
    · exact Array.getD_of_size_le (by rwa [hw.sized.prev]) _

theorem Ready.tracked (hw : w.Ready) (hfar : Weight.LooksFar (Weight.faraway : α)) :
    w.Tracked := fun v _ => hw.blankAt hfar v

theorem ready_of_blankAt (hsized : w.Sized) (htouched : w.touched = #[])
    (hqueue : w.queue.size = 0) (hblank : ∀ v, w.BlankAt v) : w.Ready := by
  refine ⟨hsized, ?_⟩
  simp only [isPristine, Bool.and_eq_true, List.all_eq_true, beq_iff_eq]
  refine ⟨⟨?_, hqueue⟩, fun v _ => isBlankAt_iff.mpr (hblank v)⟩
  rw [htouched]
  rfl

theorem capacity_fresh (n : Nat) : (fresh n : StarSpace α).capacity = n := Array.size_replicate

/-- New tables are ready for any weights among which the distance of an unreached node can be
compared with itself. -/
theorem ready_fresh (hfar : Weight.LooksFar (Weight.faraway : α)) (n : Nat) :
    (fresh n : StarSpace α).Ready := by
  refine ready_of_blankAt ⟨?_, ?_, ?_, ?_⟩ rfl rfl fun v => ⟨?_, ?_, ?_, ?_, ?_⟩
  · simp [fresh, capacity, KeyedQueue.ofCapacity, KeyedQueue.capacity]
  · simp [fresh, capacity]
  · simp [fresh, capacity]
  · simp [fresh, capacity]
  · have hdist : (fresh n : StarSpace α).distOf v = Weight.faraway := Array.getD_replicate ..
    rwa [hdist]
  · exact Array.getD_replicate ..
  · exact Array.getD_replicate ..
  · exact Array.getD_replicate ..
  · exact Array.getD_replicate ..

/-! ### Labels -/

section Labels

variable {b p i : Nat} {d x : α}

/-- A node that does not look blank is listed. -/
theorem Tracked.mem_touched_of_slot (h : w.Tracked) (hv : w.slotOf v = some i) :
    v ∈ w.touched.toList := by
  by_contra hnot
  rw [(h v hnot).slot] at hv
  cases hv

/-- A labeled node is listed afterwards, whether or not it was before. -/
theorem Tracked.mem_touched_label (h : w.Tracked) :
    u ∈ (w.label v d b p).touched.toList ↔ u ∈ w.touched.toList ∨ u = v := by
  unfold label
  dsimp only
  split
  · rw [Array.toList_push, List.mem_append, List.mem_singleton]
  · next hshows =>
    -- it shows that the node was touched
    have hv : v ∈ w.touched.toList := by
      by_contra hnot
      have hblank := h v hnot
      have hdist : Weight.same (w.distOf v) Weight.faraway = true := hblank.dist
      rw [hdist, hblank.slot] at hshows
      exact hshows rfl
    refine (or_iff_left_of_imp ?_).symm
    rintro rfl
    exact hv

theorem BlankAt.label (h : w.BlankAt u) (hu : u ≠ v) : (w.label v d b p).BlankAt u where
  dist := by
    rw [distOf_label_of_ne hu]
    exact h.dist
  base := (baseOf_label_of_ne hu).trans h.base
  prev := (Array.getD_setIfInBounds_of_ne hu _ _).trans h.prev
  slot := h.slot
  place := h.place

theorem Tracked.label (h : w.Tracked) : (w.label v d b p).Tracked := by
  intro u hu
  rw [h.mem_touched_label, not_or] at hu
  exact (h u hu.1).label hu.2

omit [Weight α] in
theorem ne_of_mem_touched (hv : v ∈ w.touched.toList) (hu : u ∉ w.touched.toList) : u ≠ v := by
  rintro rfl
  exact hu hv

theorem Tracked.setSlot (h : w.Tracked) (hv : v ∈ w.touched.toList) :
    (w.setSlot v i).Tracked := fun u hu =>
  { h u hu with slot := (slotOf_setSlot_of_ne (ne_of_mem_touched hv hu)).trans (h u hu).slot }

theorem Tracked.setDist (h : w.Tracked) (hv : v ∈ w.touched.toList) :
    (w.setDist v d).Tracked := fun u hu =>
  { h u hu with
    dist := by
      rw [distOf_setDist_of_ne (ne_of_mem_touched hv hu)]
      exact (h u hu).dist }

end Labels

/-- The number of scans is not an entry of a node. -/
theorem Tracked.setScanned (h : w.Tracked) (i : Nat) : { w with scanned := i }.Tracked :=
  fun v hv => ⟨(h v hv).dist, (h v hv).base, (h v hv).prev, (h v hv).slot, (h v hv).place⟩

/-! ### The queue -/

section Queue

variable {q : KeyedQueue α} {x : α}

omit [Weight α] in
/-- Only a node without a place has an unknown state. -/
theorem placeOf_eq_unknown_iff : q.placeOf v = .unknown ↔ q.bare.stateOf v = .unknown := by
  rw [KeyedQueue.stateOf_bare]
  cases q.placeOf v <;> simp [Place.toState]

/-- A node without a place does not wait. -/
theorem BlankAt.not_waits (h : w.BlankAt v) (hq : w.queue.bare.Consistent) : ¬ w.Waits v := by
  unfold Waits
  rw [hq.waits_iff, placeOf_eq_unknown_iff.mp h.place]
  rintro ⟨i, hi⟩
  cases hi

/-- The queue may change as long as it says nothing new of nodes that are not listed. -/
theorem Tracked.withQueue (h : w.Tracked)
    (hstate : ∀ u, u ∉ w.touched.toList → q.bare.stateOf u = w.queue.bare.stateOf u) :
    { w with queue := q }.Tracked := fun u hu =>
  { h u hu with
    place := by
      rw [placeOf_eq_unknown_iff]
      exact (hstate u hu).trans (placeOf_eq_unknown_iff.mp (h u hu).place) }

theorem Tracked.enqueue (h : w.Tracked) (hq : w.queue.bare.Consistent)
    (hv : v ∈ w.touched.toList) (hcap : v < w.queue.capacity) : (w.enqueue v x).Tracked := by
  have hqueued := KeyedQueue.queued_insert_any hq hcap x
  exact h.withQueue fun u hu =>
    hqueued.frame u ((h u hu).not_waits hq) (ne_of_mem_touched hv hu)

theorem Tracked.popMin? {top : KeyedNode α} (h : w.Tracked) (hq : w.queue.bare.Consistent)
    (hpop : w.queue.popMin? = some (top, q)) : { w with queue := q }.Tracked := by
  have hx := KeyedQueue.extracted_popMin?_any hq hpop
  exact h.withQueue fun u hu => hx.frame u ((h u hu).not_waits hq)

end Queue

/-! ### Resets -/

/-- What is restored, table by table. -/
theorem foldl_restore (vs : List Nat) (w : StarSpace α) :
    vs.foldl restore w =
      { w with
        dist := vs.foldl (fun d v => d.setIfInBounds v Weight.faraway) w.dist
        base := vs.foldl (fun b v => b.setIfInBounds v none) w.base
        prev := vs.foldl (fun p v => p.setIfInBounds v none) w.prev
        slot := vs.foldl (fun s v => s.setIfInBounds v none) w.slot
        queue := vs.foldl KeyedQueue.forget w.queue } := by
  induction vs generalizing w with
  | nil => rfl
  | cons v vs ih =>
    rw [List.foldl_cons, ih]
    rfl

theorem reset_eq (w : StarSpace α) :
    w.reset =
      { w with
        dist := w.touched.toList.foldl (fun d v => d.setIfInBounds v Weight.faraway) w.dist
        base := w.touched.toList.foldl (fun b v => b.setIfInBounds v none) w.base
        prev := w.touched.toList.foldl (fun p v => p.setIfInBounds v none) w.prev
        slot := w.touched.toList.foldl (fun s v => s.setIfInBounds v none) w.slot
        queue := w.touched.toList.foldl KeyedQueue.forget w.queue.empty
        touched := #[] } := by
  unfold reset
  dsimp only
  rw [← Array.foldl_toList, foldl_restore]

omit [Weight α] in
theorem size_forgets (vs : List Nat) (q : KeyedQueue α) :
    (vs.foldl KeyedQueue.forget q).size = q.size := by
  induction vs generalizing q with
  | nil => rfl
  | cons v vs ih => exact ih (q.forget v)

omit [Weight α] in
theorem place_forgets (vs : List Nat) (q : KeyedQueue α) :
    (vs.foldl KeyedQueue.forget q).place =
      vs.foldl (fun ps v => ps.setIfInBounds v .unknown) q.place := by
  induction vs generalizing q with
  | nil => rfl
  | cons v vs ih => exact ih (q.forget v)

/-- After a reset only nodes that are neither listed nor wait may have a place. -/
theorem placeOf_reset (v : Nat) : w.reset.queue.placeOf v =
    if v ∈ w.touched.toList then .unknown
      else if v ∈ w.queue.waiting then .unknown else w.queue.placeOf v := by
  rw [reset_eq, KeyedQueue.placeOf]
  dsimp only
  rw [place_forgets, Array.getD_foldl_setIfInBounds, KeyedQueue.empty]
  dsimp only
  rw [Array.getD_foldl_setIfInBounds]
  rfl

theorem capacity_reset : w.reset.capacity = w.capacity := by
  rw [reset_eq]
  exact Array.size_foldl_setIfInBounds ..

theorem Sized.reset (hw : w.Sized) : w.reset.Sized := by
  refine ⟨?_, ?_, ?_, ?_⟩ <;> rw [capacity_reset, reset_eq]
  · dsimp only
    rw [KeyedQueue.capacity, place_forgets, Array.size_foldl_setIfInBounds, ← hw.queue]
    exact Array.size_foldl_setIfInBounds ..
  · exact (Array.size_foldl_setIfInBounds ..).trans hw.base
  · exact (Array.size_foldl_setIfInBounds ..).trans hw.prev
  · exact (Array.size_foldl_setIfInBounds ..).trans hw.slot

/-- A reset restores all that was written: entries of listed nodes by itself, and there is
nothing to restore at the others. -/
theorem Tracked.blankAt_reset (h : w.Tracked) (hfar : Weight.LooksFar (Weight.faraway : α))
    (v : Nat) : w.reset.BlankAt v := by
  have hplace : w.reset.queue.placeOf v = .unknown := by
    rw [placeOf_reset]
    split
    · rfl
    · next hv =>
      split
      · rfl
      · exact (h v hv).place
  refine ⟨?_, ?_, ?_, ?_, hplace⟩ <;> rw [reset_eq]
  · rw [distOf, Array.getD_foldl_setIfInBounds]
    split
    · exact hfar
    · next hv => exact (h v hv).dist
  · rw [baseOf, Array.getD_foldl_setIfInBounds]
    split
    · rfl
    · next hv => exact (h v hv).base
  · rw [prevOf, Array.getD_foldl_setIfInBounds]
    split
    · rfl
    · next hv => exact (h v hv).prev
  · rw [slotOf, Array.getD_foldl_setIfInBounds]
    split
    · rfl
    · next hv => exact (h v hv).slot

theorem Tracked.ready_reset (h : w.Tracked) (hfar : Weight.LooksFar (Weight.faraway : α))
    (hsized : w.Sized) : w.reset.Ready := by
  refine ready_of_blankAt hsized.reset ?_ ?_ (h.blankAt_reset hfar)
  · rw [reset_eq]
  · rw [reset_eq]
    exact size_forgets _ _

end StarSpace

namespace StarSearch

variable {α : Type} [Weight α] {t : StarSearch α} {s s' : State α} {w w₀ : StarSpace α} {n : Nat}

/-- What holds at every moment of a search that starts in `w₀`, when at least `n` nodes were
taken out. -/
structure Tidy (t : StarSearch α) (w₀ : StarSpace α) (n : Nat) (s : State α) : Prop where
  tables : Tables t s
  tracked : s.space.Tracked
  capacity : s.space.capacity = w₀.capacity
  removals : AtLeast n fun v => v < t.rows.nodeCount ∧ s.space.Removed v

/-! ### The start -/

/-- For the tables it does not matter which of two parallel arcs is kept. -/
theorem ranks_any (t : StarSearch α) : Ranks t fun _ _ => True :=
  ⟨fun _ _ _ _ _ => trivial, fun _ _ _ _ _ => trivial, fun _ _ _ _ _ => trivial⟩

/-- A neighbour is listed when it gets its slot, and all that is written later is written for
nodes with a slot. -/
theorem tracked_seed {e : RowEntry α} {i : Nat} (htables : Tables t s)
    (he : e.head < t.rows.nodeCount) (h : s.space.Tracked) (hs' : Seeded t s e i s') :
    s'.space.Tracked ∧ s'.space.capacity = s.space.capacity := by
  have hcap : e.head < s.space.queue.capacity := by
    rw [htables.sized.queue]
    exact lt_of_lt_of_le he htables.room
  cases hs' with
  | first _ hw =>
    subst hw
    have hlisted : e.head ∈
        (s.space.label e.head e.cost e.head t.center).touched.toList :=
      h.mem_touched_label.mpr (Or.inr rfl)
    exact ⟨(h.label.setSlot hlisted).enqueue htables.consistent hlisted hcap,
      StarSpace.capacity_label (b := e.head) (p := t.center)⟩
  | keep hslot _ =>
    exact ⟨h.enqueue htables.consistent (h.mem_touched_of_slot hslot) hcap, rfl⟩
  | replace hslot _ hw =>
    subst hw
    have hlisted := h.mem_touched_of_slot hslot
    exact ⟨((h.setSlot hlisted).setDist hlisted).enqueue htables.consistent hlisted hcap,
      StarSpace.capacity_setDist⟩

theorem tidy_seeded (hfar : Weight.LooksFar (Weight.faraway : α)) (hr : t.rows.WellFormed)
    (hw : w.Ready) (hroom : t.rows.nodeCount ≤ w.capacity) : Tidy t w 0 (t.seeded w) := by
  have hstart := hw.setScanned 0
  obtain ⟨hseeding, htracked, hcapacity⟩ := seeding_ensures
    (P := fun s => s.space.Tracked ∧ s.space.capacity = w.capacity) (ranks_any t) hr hw hroom
    ⟨hstart.tracked hfar, rfl⟩ fun i s e s' hs he hs' h => by
      obtain ⟨htracked, hcapacity⟩ := tracked_seed hs.toTables (head_ok hr he).2 h.1 hs'
      exact ⟨htracked, hcapacity.trans h.2⟩
  exact ⟨hseeding.toTables, htracked, hcapacity, AtLeast.zero⟩

/-! ### Steps -/

theorem Tidy.count (h : Tidy t w₀ n s) : Tidy t w₀ n s.count :=
  ⟨h.tables.recount _ _, h.tracked, h.capacity, h.removals⟩

/-- How many nodes were taken out may be forgotten. -/
theorem Tidy.some_removals (h : Tidy t w₀ n s) : Tidy t w₀ 0 s :=
  ⟨h.tables, h.tracked, h.capacity, AtLeast.zero⟩

/-- One more node is taken out. -/
theorem Tidy.take (h : Tidy t w₀ n s) {top : KeyedNode α} {r : KeyedQueue α}
    (hpop : s.space.queue.popMin? = some (top, r)) : Tidy t w₀ (n + 1) (take top r s) := by
  obtain ⟨htables, hdequeued⟩ := h.tables.take hpop
  refine ⟨htables, ?_, ?_, ?_⟩
  · rw [space_take]
    exact h.tracked.popMin? h.tables.consistent hpop
  · rw [space_take]
    exact h.capacity
  · exact h.removals.succ (fun v hv => ⟨hv.1, (hdequeued.removed v).mpr (Or.inl hv.2)⟩)
      (fun hv => hdequeued.not_removed h.tables.consistent hv.2)
      ⟨(h.tables.waiting _ hdequeued.waited).2, (hdequeued.removed _).mpr (Or.inr rfl)⟩

/-- An arc to an open node writes for this node, and takes nothing out. -/
theorem Tidy.meet (h : Tidy t w₀ n s) {k m : Nat} (hm : m ≠ t.center ∧ m < t.rows.nodeCount)
    (hopen : ¬ s.space.Removed m) (base? : Option Nat) (d : α) :
    Tidy t w₀ n (t.meet k base? m d s) := by
  have hreport := report_cases t base? m d s
  have htables : Tables t (t.report base? m d s) := by
    generalize t.report base? m d s = s₁ at hreport
    cases hreport with
    | skip _ => exact h.tables
    | delete _ he _ _ _ => exact h.tables.delete (lt_length_of_getElem? he)
  have hspace := hreport.space_eq
  have himprove := improve_cases k base? m d (t.report base? m d s).space
  unfold StarSearch.meet
  generalize improve k base? m d _ = w at himprove
  cases himprove with
  | skip _ =>
    rw [hspace]
    exact ⟨hspace ▸ htables, h.tracked, h.capacity, h.removals⟩
  | label _ =>
    obtain ⟨hlabel, hlabeled⟩ := htables.label hm (hspace ▸ hopen) d (base?.getD k) k
    rw [hspace] at hlabel hlabeled ⊢
    have hlisted : m ∈ (s.space.label m d (base?.getD k) k).touched.toList :=
      h.tracked.mem_touched_label.mpr (Or.inr rfl)
    refine ⟨hlabel, h.tracked.label.enqueue h.tables.consistent hlisted ?_, ?_, ?_⟩
    · rw [StarSpace.label, h.tables.sized.queue]
      exact lt_of_lt_of_le hm.2 h.tables.room
    · exact (StarSpace.capacity_label (b := base?.getD k) (p := k)).trans h.capacity
    · exact h.removals.mono fun v hv => ⟨hv.1, (hlabeled.removed v).mpr hv.2⟩

theorem Tidy.scan (h : Tidy t w₀ n s) (hr : t.rows.WellFormed) {k : Nat} {e : RowEntry α}
    (he : e ∈ t.rows.row k) (dist : α) (base? came? : Option Nat) :
    Halt.Leads (Tidy t w₀ n) (t.scan k dist base? came? s e) := by
  have hscan := scan_cases t k dist base? came? s e
  generalize t.scan k dist base? came? s e = x at hscan
  cases hscan with
  | skips _ => exact h
  | exceeds _ => exact h.count
  | passes _ _ _ => exact h.count
  | meets hc hopen _ => exact h.count.meet ⟨hc, hr.head_lt k e he⟩ hopen base? _

/-- A step that goes on has taken out one more node. -/
theorem Tidy.settleNext (h : Tidy t w₀ n s) (hr : t.rows.WellFormed) :
    (∃ s', t.settleNext s = .more s' ∧ Tidy t w₀ (n + 1) s') ∨
      ∃ s', t.settleNext s = .done () s' ∧ Tidy t w₀ 0 s' := by
  have hstep := settleNext_cases t s
  generalize t.settleNext s = p at hstep
  cases hstep with
  | ends _ => exact Or.inr ⟨s, rfl, h.some_removals⟩
  | stops hpop _ => exact Or.inr ⟨_, rfl, (h.take hpop).some_removals⟩
  | @scans top r hpop =>
    have hscan : Progress.Leads (Tidy t w₀ (n + 1)) (.ofScan () ((t.rows.row top.node).foldlM
        (t.scan top.node top.key (s.space.baseOf top.node) (s.space.prevOf top.node))
        (StarSearch.take top r s))) :=
      Progress.ofScan_leads (Halt.foldlM_leads _ (fun e he s₁ hs₁ => hs₁.scan hr he _ _ _) _
        (h.take hpop))
    rcases hscan.cases with ⟨s', hs', htidy⟩ | ⟨_, s', hs', htidy⟩
    · exact Or.inl ⟨s', hs', htidy⟩
    · exact Or.inr ⟨s', hs', htidy.some_removals⟩

/-- There are only so many nodes to be taken out. -/
theorem Tidy.le_nodeCount (h : Tidy t w₀ n s) : n ≤ t.rows.nodeCount :=
  h.removals.le fun _ hv => hv.1

/-- In whatever way a search ends, its tables are ready for the next one. -/
theorem Tidy.ready_reset (h : Tidy t w₀ n s) (hfar : Weight.LooksFar (Weight.faraway : α))
    (i : Nat) : { s.space with scanned := i }.reset.Ready ∧
      { s.space with scanned := i }.reset.capacity = w₀.capacity := by
  have hsized : ({ s.space with scanned := i } : StarSpace α).Sized :=
    ⟨h.tables.sized.queue, h.tables.sized.base, h.tables.sized.prev, h.tables.sized.slot⟩
  exact ⟨(h.tracked.setScanned i).ready_reset hfar hsized,
    StarSpace.capacity_reset.trans h.capacity⟩

end StarSearch

end SteinerSearch
