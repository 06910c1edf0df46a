import SteinerSearch.Proofs.Network.Rows
import SteinerSearch.Proofs.Star.Space
import SteinerSearch.Proofs.Stepping
import SteinerSearch.Star.Search

/-!
# The start of a star search

A star search begins by giving each neighbour of the center one of the arcs to it.  Of
parallel arcs all others are reported at once, whatever order they come in.  None of this
depends on what weights are; where they are numbers, the arc that is kept is the cheapest.

## Main definitions

* `StarSearch.Tables t s` — what holds of the tables at every moment.
* `StarSearch.Seeded t s e n s'` — what starting at one arc comes to.
* `StarSearch.Ranks t le` — what the comparison of two arcs means.
* `StarSearch.Seated t le s i e` — the arc `e` is in a slot, or gave way to one that is.
* `StarSearch.Seeding t le n s` — the state after the first `n` arcs of the center.

## Main results

* `StarSearch.Seeding.seed` — one more arc.
* `StarSearch.seeding_ensures` — the state after all arcs.
-/

namespace SteinerSearch

namespace StarSearch

variable {α : Type} {t : StarSearch α} {s s' : State α}

/-! ### Tables -/

/-- What holds of the tables at every moment. -/
structure Tables (t : StarSearch α) (s : State α) : Prop where
  sized : s.space.Sized
  room : t.rows.nodeCount ≤ s.space.capacity
  consistent : s.space.queue.bare.Consistent
  flags : s.deletable.size = t.centerRow.length
  /-- The slot of a neighbour is the place of an arc to it. -/
  slot : ∀ m j, s.space.slotOf m = some j → ∃ e, t.centerRow[j]? = some e ∧ e.head = m
  found : s.found = true ↔ ∃ i, s.isDeletable i = true
  /-- The center never waits. -/
  waiting : ∀ v, s.space.Waits v → v ≠ t.center ∧ v < t.rows.nodeCount

theorem mem_centerRow {n : Nat} {e : RowEntry α} (he : t.centerRow[n]? = some e) :
    e ∈ t.rows.row t.center :=
  List.mem_of_getElem? he

theorem head_ok {n : Nat} {e : RowEntry α} (hr : t.rows.WellFormed)
    (he : t.centerRow[n]? = some e) : e.head ≠ t.center ∧ e.head < t.rows.nodeCount :=
  ⟨hr.head_ne _ e (mem_centerRow he), hr.head_lt _ e (mem_centerRow he)⟩

theorem lt_length_of_getElem? {β : Type} {l : List β} {i : Nat} {b : β} (h : l[i]? = some b) :
    i < l.length := (List.getElem?_eq_some_iff.mp h).1

theorem isDeletable_delete {i j : Nat} (hi : i < s.deletable.size) :
    (s.delete i).isDeletable j = true ↔ s.isDeletable j = true ∨ j = i := by
  unfold State.isDeletable State.delete
  by_cases hji : j = i
  · rw [hji, Array.getD_setIfInBounds_self hi]
    simp
  · rw [Array.getD_setIfInBounds_of_ne hji]
    simp [hji]

theorem isDeletable_delete_eq_false {i j : Nat} (hi : i < s.deletable.size) :
    (s.delete i).isDeletable j = false ↔ s.isDeletable j = false ∧ j ≠ i := by
  rw [← Bool.not_eq_true, isDeletable_delete hi, not_or, Bool.not_eq_true]

theorem Tables.delete (h : Tables t s) {i : Nat} (hi : i < t.centerRow.length) :
    Tables t (s.delete i) where
  sized := h.sized
  room := h.room
  consistent := h.consistent
  flags := (Array.size_setIfInBounds ..).trans h.flags
  slot := h.slot
  found := ⟨fun _ => ⟨i, (isDeletable_delete (h.flags ▸ hi)).mpr (Or.inr rfl)⟩, fun _ => rfl⟩
  waiting := h.waiting

/-- No slot is that of two neighbours. -/
theorem Tables.head_injective (h : Tables t s) {u v j : Nat} (hu : s.space.slotOf u = some j)
    (hv : s.space.slotOf v = some j) : u = v := by
  obtain ⟨e, he, rfl⟩ := h.slot u j hu
  obtain ⟨e', he', rfl⟩ := h.slot v j hv
  rw [he] at he'
  rw [Option.some.inj he']

variable [Weight α]

/-- A node with new entries is made to wait. -/
theorem Tables.enqueue (h : Tables t s) {w : StarSpace α} (hsized : w.Sized)
    (hcap : w.capacity = s.space.capacity) (hqueue : w.queue = s.space.queue)
    (hslot : ∀ m j, w.slotOf m = some j → ∃ e, t.centerRow[j]? = some e ∧ e.head = m) {m : Nat}
    (hm : m ≠ t.center ∧ m < t.rows.nodeCount) (hopen : ¬ s.space.Removed m) (x : α) :
    Tables t { s with space := w.enqueue m x } ∧ s.space.Enqueued m (w.enqueue m x) := by
  have hmc : m < w.capacity := hcap ▸ lt_of_lt_of_le hm.2 h.room
  have henqueued := StarSpace.enqueued hsized hqueue h.consistent hmc hopen x
  refine ⟨⟨henqueued.sized, hcap.symm ▸ h.room, henqueued.consistent, h.flags, hslot, h.found,
    fun v hv => ?_⟩, henqueued⟩
  rcases (henqueued.waits v).mp hv with hv | rfl
  · exact h.waiting v hv
  · exact hm

/-! ### One arc -/

section Step

variable {n : Nat} {e : RowEntry α} {w : StarSpace α} {le : α → α → Prop}

/-- What starting the search at the arc with place `n` comes to. -/
inductive Seeded (t : StarSearch α) (s : State α) (e : RowEntry α) (n : Nat) : State α → Prop
  /-- It is the first arc to its head, and goes into its slot. -/
  | first {w : StarSpace α} (hslot : s.space.slotOf e.head = none)
      (hw : w = (s.space.label e.head e.cost e.head t.center).setSlot e.head n) :
      Seeded t s e n { s with space := w.enqueue e.head (w.distOf e.head) }
  /-- It costs no less than the arc in the slot, and is reported. -/
  | keep {j : Nat} (hslot : s.space.slotOf e.head = some j)
      (hle : Weight.atMost (s.space.distOf e.head) e.cost = true) :
      Seeded t s e n { s.delete n with space := s.space.enqueue e.head (s.space.distOf e.head) }
  /-- It is cheaper and takes the slot, and the arc there is reported. -/
  | replace {j : Nat} {w : StarSpace α} (hslot : s.space.slotOf e.head = some j)
      (hlt : Weight.atMost (s.space.distOf e.head) e.cost = false)
      (hw : w = (s.space.setSlot e.head n).setDist e.head e.cost) :
      Seeded t s e n { s.delete j with space := w.enqueue e.head (w.distOf e.head) }

theorem seed_cases (t : StarSearch α) (s : State α) (e : RowEntry α) (n : Nat) :
    Seeded t s e n (t.seed s (e, n)) := by
  unfold StarSearch.seed
  dsimp only
  cases hslot : s.space.slotOf e.head with
  | none => exact .first hslot rfl
  | some j =>
    cases hle : Weight.atMost (s.space.distOf e.head) e.cost with
    | true => exact .keep hslot hle
    | false => exact .replace hslot hle rfl

/-! ### Seeding -/

/-- What it means that one of two arcs is kept: its cost comes before that of the other. -/
structure Ranks (t : StarSearch α) (le : α → α → Prop) : Prop where
  keep : ∀ x ∈ t.centerRow, ∀ y ∈ t.centerRow,
    Weight.atMost x.cost y.cost = true → le x.cost y.cost
  replace : ∀ x ∈ t.centerRow, ∀ y ∈ t.centerRow,
    Weight.atMost x.cost y.cost = false → le y.cost x.cost
  trans : ∀ a b c, le a b → le b c → le a c

/-- The arc `e` with place `i` is in the slot of its head, or reported for the arc there, which
comes before it. -/
def Seated (t : StarSearch α) (le : α → α → Prop) (s : State α) (i : Nat) (e : RowEntry α) :
    Prop :=
  ∃ j e', s.space.slotOf e.head = some j ∧ t.centerRow[j]? = some e' ∧
    (i = j ∨ s.isDeletable i = true ∧ le e'.cost e.cost)

omit [Weight α] in
/-- An arc stays seated while its head keeps its slot and reports are kept. -/
theorem Seated.mono {i : Nat} (h : Seated t le s i e)
    (hslot : s'.space.slotOf e.head = s.space.slotOf e.head)
    (hdel : s.isDeletable i = true → s'.isDeletable i = true) : Seated t le s' i e := by
  obtain ⟨j, x, hj, hx, hor⟩ := h
  exact ⟨j, x, hslot.trans hj, hx, hor.imp_right fun hr => ⟨hdel hr.1, hr.2⟩⟩

/-- The state after the first `n` arcs of the center. -/
structure Seeding (t : StarSearch α) (le : α → α → Prop) (n : Nat) (s : State α) : Prop
    extends Tables t s where
  /-- The arc in the slot of a neighbour is not reported, and the neighbour has its cost. -/
  slot_cost : ∀ m j e, s.space.slotOf m = some j → t.centerRow[j]? = some e →
    j < n ∧ s.space.distOf m = e.cost ∧ s.isDeletable j = false
  /-- The neighbours with a slot wait, and nothing is taken out. -/
  slot_waits : ∀ v, s.space.Waits v ↔ ∃ j, s.space.slotOf v = some j
  removed : ∀ v, ¬ s.space.Removed v
  seeded : ∀ i e, i < n → t.centerRow[i]? = some e → Seated t le s i e
  /-- The arcs to come are not reported. -/
  fresh : ∀ i, n ≤ i → s.isDeletable i = false

/-- An arc that is placed in the slot of its head leaves the tables in order. -/
theorem Tables.place (h : Tables t s) (hr : t.rows.WellFormed) (he : t.centerRow[n]? = some e)
    (hw : s.space.Placed e.head n e.cost w) (hopen : ¬ s.space.Removed e.head) :
    Tables t { s with space := w.enqueue e.head (w.distOf e.head) } ∧
      s.space.Enqueued e.head (w.enqueue e.head (w.distOf e.head)) := by
  refine h.enqueue hw.sized hw.capacity hw.queue (fun m j hj => ?_) (head_ok hr he) hopen _
  rcases hw.slot_cases hj with ⟨rfl, rfl⟩ | ⟨-, hj⟩
  · exact ⟨e, he, rfl⟩
  · exact h.slot m j hj

/-- With a slot for `m`, the nodes that wait are those with a slot. -/
theorem Seeding.slot_waits_enqueued (h : Seeding t le n s) {m : Nat} {w' : StarSpace α}
    (hw : s.space.Enqueued m w') (hne : ∀ v, v ≠ m → w'.slotOf v = s.space.slotOf v)
    (hm : ∃ j, w'.slotOf m = some j) (v : Nat) : w'.Waits v ↔ ∃ j, w'.slotOf v = some j := by
  rw [hw.waits, h.slot_waits]
  by_cases hv : v = m
  · exact iff_of_true (Or.inr hv) (hv ▸ hm)
  · rw [hne v hv, or_iff_left hv]

/-- The first arc to a neighbour goes into its slot. -/
theorem Seeding.first (h : Seeding t le n s) (hr : t.rows.WellFormed)
    (he : t.centerRow[n]? = some e) (hslot : s.space.slotOf e.head = none)
    (hw : s.space.Placed e.head n e.cost w) :
    Seeding t le (n + 1) { s with space := w.enqueue e.head (w.distOf e.head) } := by
  have hne : ∀ {v j}, s.space.slotOf v = some j → v ≠ e.head := by
    rintro v j hj rfl
    rw [hslot] at hj
    cases hj
  obtain ⟨htables, henqueued⟩ := h.toTables.place hr he hw (h.removed _)
  refine ⟨htables, fun m j x hj hx => ?_,
    h.slot_waits_enqueued henqueued hw.slot_ne ⟨n, hw.slot_self⟩, fun v hv => ?_,
    fun i x hi hx => ?_, fun i hi => h.fresh i (by omega)⟩
  · rcases hw.slot_cases hj with ⟨rfl, rfl⟩ | ⟨hme, hj⟩
    · rw [he] at hx
      obtain rfl := Option.some.inj hx
      exact ⟨Nat.lt_succ_self _, hw.dist_self, h.fresh j le_rfl⟩
    · obtain ⟨hlt, hcost, hflag⟩ := h.slot_cost m j x hj hx
      exact ⟨Nat.lt_succ_of_lt hlt, (hw.dist_ne m hme).trans hcost, hflag⟩
  · exact h.removed v ((henqueued.removed v).mp hv)
  · rcases Nat.lt_succ_iff_lt_or_eq.mp hi with hi | rfl
    · obtain ⟨j, -, hj, -⟩ := h.seeded i x hi hx
      exact (h.seeded i x hi hx).mono (hw.slot_ne _ (hne hj)) id
    · rw [he] at hx
      obtain rfl := Option.some.inj hx
      exact ⟨i, e, hw.slot_self, he, Or.inl rfl⟩

/-- A further arc that does not come before the one in the slot is reported. -/
theorem Seeding.keep (h : Seeding t le n s) (hr : t.rows.WellFormed)
    (he : t.centerRow[n]? = some e) {j : Nat} {x : RowEntry α}
    (hslot : s.space.slotOf e.head = some j) (hx : t.centerRow[j]? = some x)
    (hle : le x.cost e.cost) :
    Seeding t le (n + 1)
      { s.delete n with space := s.space.enqueue e.head (s.space.distOf e.head) } := by
  have hn := lt_length_of_getElem? he
  obtain ⟨htables, henqueued⟩ := (h.toTables.delete hn).enqueue (w := s.space) h.sized rfl rfl
    h.slot (head_ok hr he) (h.removed _) (s.space.distOf e.head)
  have hsize : n < s.deletable.size := by rwa [h.flags]
  refine ⟨htables, fun m i y hi hy => ?_,
    h.slot_waits_enqueued henqueued (fun _ _ => rfl) ⟨j, hslot⟩, fun v hv => ?_,
    fun i y hi hy => ?_, fun i hi => ?_⟩
  · obtain ⟨hlt, hcost, hopen⟩ := h.slot_cost m i y hi hy
    exact ⟨Nat.lt_succ_of_lt hlt, hcost,
      (isDeletable_delete_eq_false hsize).mpr ⟨hopen, Nat.ne_of_lt hlt⟩⟩
  · exact h.removed v ((henqueued.removed v).mp hv)
  · rcases Nat.lt_succ_iff_lt_or_eq.mp hi with hi | rfl
    · exact (h.seeded i y hi hy).mono rfl fun hdel => (isDeletable_delete hsize).mpr (Or.inl hdel)
    · rw [he] at hy
      obtain rfl := Option.some.inj hy
      exact ⟨j, x, hslot, hx, Or.inr ⟨(isDeletable_delete hsize).mpr (Or.inr rfl), hle⟩⟩
  · exact (isDeletable_delete_eq_false hsize).mpr ⟨h.fresh i (by omega), by omega⟩

/-- A further arc that comes before the one in the slot takes the slot, and the arc there is
reported. -/
theorem Seeding.replace (h : Seeding t le n s) (hle : Ranks t le) (hr : t.rows.WellFormed)
    (he : t.centerRow[n]? = some e) {j : Nat} {x : RowEntry α}
    (hslot : s.space.slotOf e.head = some j) (hx : t.centerRow[j]? = some x)
    (hlt : le e.cost x.cost) (hw : s.space.Placed e.head n e.cost w) :
    Seeding t le (n + 1) { s.delete j with space := w.enqueue e.head (w.distOf e.head) } := by
  have hj := lt_length_of_getElem? hx
  obtain ⟨hjn, hjcost, -⟩ := h.slot_cost _ _ _ hslot hx
  obtain ⟨htables, henqueued⟩ := (h.toTables.delete hj).place hr he hw (h.removed _)
  have hsize : j < s.deletable.size := by rwa [h.flags]
  refine ⟨htables, fun m i y hi hy => ?_,
    h.slot_waits_enqueued henqueued hw.slot_ne ⟨n, hw.slot_self⟩, fun v hv => ?_,
    fun i y hi hy => ?_, fun i hi => ?_⟩
  · rcases hw.slot_cases hi with ⟨rfl, rfl⟩ | ⟨hme, hold⟩
    · rw [he] at hy
      obtain rfl := Option.some.inj hy
      exact ⟨Nat.lt_succ_self _, hw.dist_self,
        (isDeletable_delete_eq_false hsize).mpr ⟨h.fresh i le_rfl, by omega⟩⟩
    · obtain ⟨hin, hcost, hdel⟩ := h.slot_cost m i y hold hy
      refine ⟨Nat.lt_succ_of_lt hin, (hw.dist_ne m hme).trans hcost,
        (isDeletable_delete_eq_false hsize).mpr ⟨hdel, fun hij => hme ?_⟩⟩
      exact h.head_injective (hij ▸ hold) hslot
  · exact h.removed v ((henqueued.removed v).mp hv)
  · rcases Nat.lt_succ_iff_lt_or_eq.mp hi with hi | rfl
    · by_cases hye : y.head = e.head
      · obtain ⟨k, y', hk, hy', hor⟩ := h.seeded i y hi hy
        -- the new arc comes before the one in the slot, and so before this one
        rw [hye, hslot] at hk
        obtain rfl := Option.some.inj hk
        rw [hx] at hy'
        obtain rfl := Option.some.inj hy'
        refine ⟨n, e, hye ▸ hw.slot_self, he, Or.inr ?_⟩
        rcases hor with rfl | ⟨hdel, hcost⟩
        · rw [hx] at hy
          obtain rfl := Option.some.inj hy
          exact ⟨(isDeletable_delete hsize).mpr (Or.inr rfl), hlt⟩
        · exact ⟨(isDeletable_delete hsize).mpr (Or.inl hdel), hle.trans _ _ _ hlt hcost⟩
      · exact (h.seeded i y hi hy).mono (hw.slot_ne _ hye) fun hdel =>
          (isDeletable_delete hsize).mpr (Or.inl hdel)
    · rw [he] at hy
      obtain rfl := Option.some.inj hy
      exact ⟨i, e, hw.slot_self, he, Or.inl rfl⟩
  · exact (isDeletable_delete_eq_false hsize).mpr ⟨h.fresh i (by omega), by omega⟩

/-- One more arc of the center. -/
theorem Seeding.seed (h : Seeding t le n s) (hle : Ranks t le) (hr : t.rows.WellFormed)
    (he : t.centerRow[n]? = some e) (hseed : Seeded t s e n s') : Seeding t le (n + 1) s' := by
  have hmc : e.head < s.space.capacity := lt_of_lt_of_le (head_ok hr he).2 h.room
  have hmem : e ∈ t.centerRow := mem_centerRow he
  cases hseed with
  | first hslot hw =>
    subst hw
    exact h.first hr he hslot (StarSpace.placed_label h.sized hmc)
  | keep hslot hatMost =>
    obtain ⟨x, hx, -⟩ := h.slot _ _ hslot
    obtain ⟨-, hcost, -⟩ := h.slot_cost _ _ _ hslot hx
    rw [hcost] at hatMost
    exact h.keep hr he hslot hx (hle.keep x (mem_centerRow hx) e hmem hatMost)
  | replace hslot hatMost hw =>
    obtain ⟨x, hx, -⟩ := h.slot _ _ hslot
    obtain ⟨-, hcost, -⟩ := h.slot_cost _ _ _ hslot hx
    rw [hcost] at hatMost
    subst hw
    exact h.replace hle hr he hslot hx (hle.replace x (mem_centerRow hx) e hmem hatMost)
      (StarSpace.placed_setDist h.sized hmc)

end Step

/-! ### All arcs -/

/-- The state before the first arc. -/
def start (t : StarSearch α) (w : StarSpace α) : State α :=
  ⟨{ w with scanned := 0 }, Array.replicate t.centerRow.length false, 0, false, 0⟩

/-- The state after all arcs. -/
def seeded (t : StarSearch α) (w : StarSpace α) : State α :=
  t.centerRow.zipIdx.foldl t.seed (t.start w)

variable {le : α → α → Prop} {w : StarSpace α}

omit [Weight α] in
theorem isDeletable_start (t : StarSearch α) (w : StarSpace α) (i : Nat) :
    (t.start w).isDeletable i = false :=
  Array.getD_replicate _ i false

theorem seeding_start (hw : w.Ready) (hroom : t.rows.nodeCount ≤ w.capacity) :
    Seeding t le 0 (t.start w) := by
  have hw := hw.setScanned 0
  have hslot : ∀ {v j}, ({ w with scanned := 0 } : StarSpace α).slotOf v ≠ some j := by
    intro v j hj
    rw [hw.slotOf_eq] at hj
    cases hj
  refine ⟨⟨hw.sized, hroom, hw.consistent, Array.size_replicate, fun m j hj => absurd hj hslot,
    ⟨fun hf => absurd hf Bool.false_ne_true, fun ⟨i, hi⟩ => ?_⟩,
    fun v hv => absurd hv (hw.not_waits v)⟩, fun m j e hj => absurd hj hslot,
    fun v => iff_of_false (hw.not_waits v) fun ⟨j, hj⟩ => hslot hj, hw.not_removed,
    fun i e hi => absurd hi (Nat.not_lt_zero i), fun i _ => isDeletable_start t w i⟩
  rw [isDeletable_start] at hi
  cases hi

/-- The state after all arcs of the center, with whatever else starting at an arc preserves.  It
may be about the arcs that were started at. -/
theorem seeding_ensures_of_prefix {P : List (RowEntry α × Nat) → State α → Prop}
    (hle : Ranks t le) (hr : t.rows.WellFormed) (hw : w.Ready)
    (hroom : t.rows.nodeCount ≤ w.capacity) (hfirst : P [] (t.start w))
    (hnext : ∀ done s e, Seeding t le done.length s → t.centerRow[done.length]? = some e →
      P done s → P (done ++ [(e, done.length)]) (t.seed s (e, done.length))) :
    Seeding t le t.centerRow.length (t.seeded w) ∧ P t.centerRow.zipIdx (t.seeded w) := by
  have hall := foldl_ensures (f := t.seed)
    (J := fun done s => Seeding t le done.length s ∧ P done s) t.centerRow.zipIdx
    (fun done b s hprefix hs => ?_) ⟨seeding_start hw hroom, hfirst⟩
  · rwa [List.length_zipIdx] at hall
  · have hb : t.centerRow.zipIdx[done.length]? = some b := by
      obtain ⟨rest, hrest⟩ := hprefix
      rw [← hrest, List.append_assoc, List.getElem?_append_right le_rfl, Nat.sub_self]
      rfl
    rw [List.getElem?_zipIdx, Option.map_eq_some_iff] at hb
    obtain ⟨e, he, rfl⟩ := hb
    have hnext := hnext done s e hs.1 he hs.2
    rw [List.length_append, List.length_singleton, Nat.zero_add]
    exact ⟨hs.1.seed hle hr he (seed_cases t s e done.length), hnext⟩

theorem seeding_ensures {P : State α → Prop} (hle : Ranks t le) (hr : t.rows.WellFormed)
    (hw : w.Ready) (hroom : t.rows.nodeCount ≤ w.capacity) (hfirst : P (t.start w))
    (hnext : ∀ n s e s', Seeding t le n s → t.centerRow[n]? = some e → Seeded t s e n s' →
      P s → P s') :
    Seeding t le t.centerRow.length (t.seeded w) ∧ P (t.seeded w) :=
  seeding_ensures_of_prefix (P := fun _ => P) hle hr hw hroom hfirst fun done s e hs he =>
    hnext done.length s e _ hs he (seed_cases t s e done.length)

end StarSearch

end SteinerSearch
