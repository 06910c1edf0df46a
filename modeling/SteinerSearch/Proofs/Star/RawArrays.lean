import Mathlib.Tactic.IntervalCases
import SteinerSearch.Proofs.Network.Rearranging
import SteinerSearch.Proofs.Star.Reuse
import SteinerSearch.Star.RawEntry

/-!
# Star searches over raw arrays

A request is refused for the first thing wrong with it.  Any other is answered: every mark of the
center's row is written once, and says whether the search reported the entry at its position.  The
search itself does not look at positions, so the order in which the caller keeps the entries of a
row only shows in the order of the marks.

## Main definitions

* `StarSearch.renamed t f` — the search in rows with `f a` for every arc `a`.
* `RawStar.Request.Gives`, `RawStar.Request.Refuses`, `RawStar.Request.Accepts` — the arguments of
  a request, and what is wrong with them or read from them.
* `RawStar.write marks ws`, `RawStar.writes start row flags` — the marks that are written.
* `RawStar.Request.Answered`, `RawStar.Request.AnsweredAlike` — the answer to a request, and
  answers that differ by the order of the marks.

## Main results

* `StarSearch.run_renamed` — a search does not look at positions.
* `RawStar.run_refuses_or_answers` — what requests are answered.
-/

namespace SteinerSearch

/-! ### Positions are not looked at -/

namespace StarSearch

variable {α : Type}

/-- The search in rows with `f a` for every arc `a`. -/
def renamed (t : StarSearch α) (f : Nat → Nat) : StarSearch α :=
  { t with rows := t.rows.renamed f }

theorem centerRow_renamed (t : StarSearch α) (f : Nat → Nat) :
    (t.renamed f).centerRow = t.centerRow.map (RowEntry.renamed f) :=
  Rows.row_renamed t.rows f t.center

variable [Weight α]

theorem radius_renamed (t : StarSearch α) (f : Nat → Nat) : (t.renamed f).radius = t.radius := by
  rw [radius, centerRow_renamed, List.map_map]
  rfl

theorem report_renamed (t : StarSearch α) (f : Nat → Nat) (base? : Option Nat) (m : Nat) (d : α)
    (s : State α) : (t.renamed f).report base? m d s = t.report base? m d s := by
  unfold report replaces
  rw [centerRow_renamed]
  cases s.space.slotOf m with
  | none => rfl
  | some i =>
    dsimp only
    rw [List.getElem?_map]
    cases t.centerRow[i]? <;> rfl

theorem scan_renamed (t : StarSearch α) (f : Nat → Nat) (k : Nat) (dist : α)
    (base? came? : Option Nat) (s : State α) (e : RowEntry α) :
    (t.renamed f).scan k dist base? came? s (e.renamed f) = t.scan k dist base? came? s e := by
  unfold scan
  simp only [report_renamed, radius_renamed]
  rfl

theorem settleNext_renamed (t : StarSearch α) (f : Nat → Nat) (s : State α) :
    (t.renamed f).settleNext s = t.settleNext s := by
  unfold settleNext
  rw [centerRow_renamed, List.length_map]
  cases s.space.queue.popMin? with
  | none => rfl
  | some popped =>
    dsimp only
    split
    · rfl
    · rw [show (t.renamed f).rows = t.rows.renamed f from rfl, Rows.row_renamed, List.foldlM_map]
      simp only [scan_renamed]

/-- A search does not look at positions. -/
theorem run_renamed (t : StarSearch α) (f : Nat → Nat) (w : StarSpace α) :
    (t.renamed f).run w = t.run w := by
  have hcount : (t.renamed f).rows.nodeCount = t.rows.nodeCount := Rows.nodeCount_renamed ..
  have hseed : ∀ s, (t.renamed f).centerRow.zipIdx.foldl (t.renamed f).seed s =
      t.centerRow.zipIdx.foldl t.seed s := by
    intro s
    rw [centerRow_renamed, List.zipIdx_map, List.foldl_map]
    rfl
  unfold run runInto
  simp only [hcount, hseed, funext (settleNext_renamed t f)]
  rw [centerRow_renamed, List.length_map]
  rfl

/-- A search ends with a flag for each arc of the center, and has found something if it flagged
an arc. -/
theorem run_flags {t : StarSearch α} (hfar : Weight.LooksFar (Weight.faraway : α))
    (hr : t.rows.WellFormed) (hc : t.center < t.rows.nodeCount) {w : StarSpace α} (hw : w.Ready)
    (hroom : t.rows.nodeCount ≤ w.capacity) :
    ∃ answer, t.run w = .ok answer ∧ answer.deletable.size = t.centerRow.length ∧
      (answer.found = true ↔ true ∈ answer.deletable.toList) := by
  by_cases hshort : t.centerRow.length ≤ 1
  · exact ⟨_, run_of_short hc hshort w, by simp, by simp⟩
  · obtain ⟨s, hrun, hs⟩ := exists_run hr (tidy_seeded hfar hr hw hroom) (w.capacity + 1)
    refine ⟨_, run_of_long hc hshort hrun, hs.tables.flags, hs.tables.found.trans ?_⟩
    simp only [State.isDeletable, List.mem_iff_getElem?, Array.getElem?_toList,
      Array.getD_eq_getD_getElem?]
    refine exists_congr fun i => ?_
    cases s.deletable[i]? <;> simp

end StarSearch

namespace RawStar

/-! ### Writing marks -/

/-- The marks after some writes. -/
def write (marks : Array Nat) (ws : List (Nat × Nat)) : Array Nat :=
  ws.foldl (fun marks w => marks.setIfInBounds w.1 w.2) marks

@[simp] theorem size_write (marks : Array Nat) (ws : List (Nat × Nat)) :
    (write marks ws).size = marks.size := by
  unfold write
  induction ws generalizing marks with
  | nil => rfl
  | cons w ws ih => rw [List.foldl_cons, ih, Array.size_setIfInBounds]

/-- What is not written stays. -/
theorem getElem?_write_of_notMem {ws : List (Nat × Nat)} {j : Nat} (hj : j ∉ ws.map Prod.fst)
    (marks : Array Nat) : (write marks ws)[j]? = marks[j]? := by
  unfold write
  induction ws generalizing marks with
  | nil => rfl
  | cons w ws ih =>
    rw [List.map_cons, List.mem_cons, not_or] at hj
    rw [List.foldl_cons, ih hj.2, Array.getElem?_setIfInBounds_ne (Ne.symm hj.1)]

/-- What is written once is what was written. -/
theorem getElem?_write_of_mem {ws : List (Nat × Nat)} (hws : (ws.map Prod.fst).Nodup)
    {w : Nat × Nat} (hw : w ∈ ws) {marks : Array Nat} (hroom : w.1 < marks.size) :
    (write marks ws)[w.1]? = some w.2 := by
  induction ws generalizing marks with
  | nil => cases hw
  | cons x ws ih =>
    rw [List.map_cons, List.nodup_cons] at hws
    show (write (marks.setIfInBounds x.1 x.2) ws)[w.1]? = some w.2
    rcases List.mem_cons.mp hw with rfl | hw
    · rw [getElem?_write_of_notMem hws.1, Array.getElem?_setIfInBounds_self_of_lt hroom]
    · exact ih hws.2 hw (by rwa [Array.size_setIfInBounds])

/-- If the first `d` marks are written once each, they are what was written, in some order. -/
theorem perm_take_write {ws : List (Nat × Nat)} {d : Nat}
    (hws : (ws.map Prod.fst).Perm (List.range d)) {marks : Array Nat} (hroom : d ≤ marks.size) :
    ((write marks ws).toList.take d).Perm (ws.map Prod.snd) := by
  have htake : (write marks ws).toList.take d =
      (List.range d).map fun j => (write marks ws).getD j 0 := by
    refine List.ext_getElem (by simpa using hroom) fun j hj hj' => ?_
    have hjd : j < marks.size := by
      rw [List.length_take] at hj
      omega
    simp [hjd]
  have hsnd : (ws.map Prod.fst).map (fun j => (write marks ws).getD j 0) = ws.map Prod.snd := by
    rw [List.map_map]
    refine List.map_congr_left fun w hw => ?_
    have hlt := List.mem_range.mp (hws.mem_iff.mp (List.mem_map_of_mem hw))
    rw [Function.comp_apply, Array.getD_eq_getD_getElem?,
      getElem?_write_of_mem (hws.nodup_iff.mpr List.nodup_range) hw (hlt.trans_le hroom),
      Option.getD_some]
  rw [htake, ← hsnd]
  exact (hws.map _).symm

variable {α : Type}

/-- The writes for a row with these flags, whose positions start at `start`. -/
def writes (start : Nat) (row : List (RowEntry α)) (flags : List Bool) : List (Nat × Nat) :=
  (row.zip flags).map fun (e, flag) => (e.arc - start, flag.toNat)

theorem writeMarks_eq (start : Nat) (marks : Array Nat) (row : List (RowEntry α))
    (flags : List Bool) :
    writeMarks start marks (row.zip flags) = write marks (writes start row flags) := by
  rw [write, writes, List.foldl_map]
  rfl

theorem map_fst_writes (start : Nat) {row : List (RowEntry α)} {flags : List Bool}
    (hlength : flags.length = row.length) :
    (writes start row flags).map Prod.fst = row.map fun e => e.arc - start := by
  have hzip : (row.zip flags).map Prod.fst = row := List.map_fst_zip hlength.ge
  calc (writes start row flags).map Prod.fst
      = ((row.zip flags).map Prod.fst).map fun e => e.arc - start := by
        rw [writes, List.map_map, List.map_map]
        rfl
    _ = row.map fun e => e.arc - start := by rw [hzip]

theorem map_snd_writes (start : Nat) {row : List (RowEntry α)} {flags : List Bool}
    (hlength : flags.length = row.length) :
    (writes start row flags).map Prod.snd = flags.map Bool.toNat := by
  have hzip : (row.zip flags).map Prod.snd = flags := List.map_snd_zip hlength.le
  calc (writes start row flags).map Prod.snd
      = ((row.zip flags).map Prod.snd).map Bool.toNat := by
        rw [writes, List.map_map, List.map_map]
        rfl
    _ = flags.map Bool.toNat := by rw [hzip]

theorem mem_writes (start : Nat) {row : List (RowEntry α)} {flags : List Bool} {i : Nat}
    {e : RowEntry α} {flag : Bool} (he : row[i]? = some e) (hflag : flags[i]? = some flag) :
    (e.arc - start, flag.toNat) ∈ writes start row flags := by
  refine List.mem_map.mpr ⟨(e, flag), List.mem_of_getElem? (i := i) ?_, rfl⟩
  rw [List.getElem?_zip_eq_some]
  exact ⟨he, hflag⟩

/-- How many of the first `d` marks are set. -/
def ones (d : Nat) (marks : Array Nat) : Nat := (marks.toList.take d).count 1

section Row

variable {start : Nat} {row : List (RowEntry α)} {flags : List Bool} {marks : Array Nat}
  (hpos : (row.map RowEntry.arc).Perm (List.range' start row.length))
  (hlength : flags.length = row.length)

include hpos hlength

/-- Each of the first marks is written once, and no other one. -/
theorem perm_places : ((writes start row flags).map Prod.fst).Perm (List.range row.length) := by
  have hplaces := hpos.map fun p => p - start
  rw [List.map_map, List.map_sub_range' (Nat.le_refl _), Nat.sub_self] at hplaces
  rw [map_fst_writes _ hlength, List.range_eq_range']
  exact hplaces

theorem getElem?_write_rest {j : Nat} (hj : row.length ≤ j) :
    (write marks (writes start row flags))[j]? = marks[j]? := by
  refine getElem?_write_of_notMem (fun hmem => ?_) marks
  have hlt := List.mem_range.mp ((perm_places hpos hlength).mem_iff.mp hmem)
  omega

omit hlength in
theorem exists_entry {j : Nat} (hj : j < row.length) :
    ∃ (i : Nat) (e : RowEntry α), row[i]? = some e ∧ e.arc = start + j := by
  have hmem := hpos.mem_iff.mpr (List.mem_range'_1.mpr ⟨Nat.le_add_right start j, by omega⟩)
  obtain ⟨e, he, harc⟩ := List.mem_map.mp hmem
  obtain ⟨i, hi⟩ := List.getElem?_of_mem he
  exact ⟨i, e, hi, harc⟩

variable (hroom : row.length ≤ marks.size)

include hroom

/-- The mark at the place of an entry is its flag. -/
theorem getElem?_write_entry {i : Nat} {e : RowEntry α} (he : row[i]? = some e) {flag : Bool}
    (hflag : flags[i]? = some flag) :
    (write marks (writes start row flags))[e.arc - start]? = some flag.toNat := by
  have honce := perm_places hpos hlength
  have hmem := mem_writes start he hflag
  have hlt := List.mem_range.mp (honce.mem_iff.mp (List.mem_map_of_mem hmem))
  exact getElem?_write_of_mem (honce.nodup_iff.mpr List.nodup_range) hmem (hlt.trans_le hroom)

theorem ones_write : ones row.length (write marks (writes start row flags)) = flags.count true := by
  rw [ones, (perm_take_write (perm_places hpos hlength) hroom).count_eq,
    map_snd_writes _ hlength]
  exact List.count_map_of_injective flags Bool.toNat (by decide) true

end Row

/-! ### Requests -/

/-- The arguments are all there. -/
structure Request.Gives (r : Request α) (offsets targets : Array Nat) (weights : Array α)
    (marks : Array Nat) : Prop where
  /-- The offsets are there. -/
  offsets : r.offsets = some offsets
  /-- The targets are there. -/
  targets : r.targets = some targets
  /-- The weights are there. -/
  weights : r.weights = some weights
  /-- The marks are there. -/
  marks : r.marks = some marks

variable [Weight α]

/-- `refusal` is the first thing wrong with the request. -/
def Request.Refuses (r : Request α) : Refusal → Prop
  | .emptyNetwork => r.nodeCount = 0
  | .centerOutOfRange => r.nodeCount ≠ 0 ∧ r.nodeCount ≤ r.center
  | .argumentMissing => r.center < r.nodeCount ∧
      (r.offsets = none ∨ r.targets = none ∨ r.weights = none ∨ r.marks = none)
  | .malformed => r.center < r.nodeCount ∧ ∃ offsets targets weights marks err,
      r.Gives offsets targets weights marks ∧
        Rows.ofRaw (offsets.take (r.nodeCount + 1)) targets weights = .error err

/-- The center is a node, and `rows` are read from the arrays. -/
structure Request.Accepts (r : Request α) (offsets targets : Array Nat) (weights : Array α)
    (marks : Array Nat) (rows : Rows α) : Prop where
  /-- The arguments are there. -/
  gives : r.Gives offsets targets weights marks
  /-- The center is a node. -/
  center : r.center < r.nodeCount
  /-- The rows are those of the arrays. -/
  read : Rows.ofRaw (offsets.take (r.nodeCount + 1)) targets weights = .ok rows

theorem refuses_or_accepts (r : Request α) : (∃ refusal, r.Refuses refusal) ∨
    ∃ offsets targets weights marks rows, r.Accepts offsets targets weights marks rows := by
  by_cases hn : r.nodeCount = 0
  · exact Or.inl ⟨.emptyNetwork, hn⟩
  by_cases hc : r.nodeCount ≤ r.center
  · exact Or.inl ⟨.centerOutOfRange, hn, hc⟩
  have hc := Nat.lt_of_not_le hc
  by_cases hmissing : r.offsets = none ∨ r.targets = none ∨ r.weights = none ∨ r.marks = none
  · exact Or.inl ⟨.argumentMissing, hc, hmissing⟩
  simp only [not_or, ← ne_eq, Option.ne_none_iff_exists'] at hmissing
  obtain ⟨⟨offsets, ho⟩, ⟨targets, ht⟩, ⟨weights, hw⟩, marks, hm⟩ := hmissing
  cases hread : Rows.ofRaw (offsets.take (r.nodeCount + 1)) targets weights with
  | error err => exact Or.inl ⟨.malformed, hc, _, _, _, _, err, ⟨ho, ht, hw, hm⟩, hread⟩
  | ok rows => exact Or.inr ⟨_, _, _, _, rows, ⟨ho, ht, hw, hm⟩, hc, hread⟩

theorem Request.Accepts.not_refuses {r : Request α} {offsets targets : Array Nat}
    {weights : Array α} {marks : Array Nat} {rows : Rows α}
    (h : r.Accepts offsets targets weights marks rows) (refusal : Refusal) :
    ¬ r.Refuses refusal := by
  have hc := h.center
  intro hrefuses
  cases refusal with
  | emptyNetwork =>
    have hn : r.nodeCount = 0 := hrefuses
    omega
  | centerOutOfRange => exact hc.not_ge hrefuses.2
  | argumentMissing =>
    obtain ⟨-, hmissing⟩ := hrefuses
    simp [h.gives.offsets, h.gives.targets, h.gives.weights, h.gives.marks] at hmissing
  | malformed =>
    obtain ⟨-, _, _, _, _, err, ⟨ho, ht, hw, -⟩, herr⟩ := hrefuses
    obtain rfl := Option.some.inj (h.gives.offsets.symm.trans ho)
    obtain rfl := Option.some.inj (h.gives.targets.symm.trans ht)
    obtain rfl := Option.some.inj (h.gives.weights.symm.trans hw)
    rw [h.read] at herr
    cases herr

/-- A request is refused for the first thing wrong with it, and its marks are left alone. -/
theorem run_of_refuses {r : Request α} {refusal : Refusal} (h : r.Refuses refusal) :
    run r = ⟨refusal.code, r.marks, r.info.map fun _ => ⟨0, 0, refusal.code⟩⟩ := by
  have hsearch : search r = .error refusal := by
    cases refusal with
    | emptyNetwork => exact if_pos h
    | centerOutOfRange => simp [search, h.1, h.2]
    | argumentMissing =>
      obtain ⟨hc, h⟩ := h
      have hn : r.nodeCount ≠ 0 := by omega
      simp only [search, hn, hc.not_ge, if_false]
      split
      · next ho ht hw hm => simp [ho, ht, hw, hm] at h
      · rfl
    | malformed =>
      obtain ⟨hc, offsets, targets, weights, marks, err, hgives, hread⟩ := h
      have hn : r.nodeCount ≠ 0 := by omega
      simp [search, hn, hc.not_ge, hgives.offsets, hgives.targets, hgives.weights, hgives.marks,
        hread]
  rw [run, hsearch]

/-- The answer to a request whose rows start at these offsets. -/
structure Request.Answered (r : Request α) (offsets marks : Array Nat) (rows : Rows α)
    (answer : StarSearch.Answer α) (out : Array Nat) : Prop where
  /-- It is the answer of a search in the rows. -/
  search : StarSearch.run ⟨rows, none, r.center, r.arcLimit⟩ (.fresh r.nodeCount) = .ok answer
  /-- The search has a flag for each arc of the center. -/
  flags : answer.deletable.size = rows.degree r.center
  /-- The flags are written. -/
  written : out = write marks
    (writes (offsets.getD r.center 0) (rows.row r.center) answer.deletable.toList)
  /-- Each mark of the center's row is written once, and no other one. -/
  once : ((writes (offsets.getD r.center 0) (rows.row r.center) answer.deletable.toList).map
    Prod.fst).Perm (List.range (rows.degree r.center))
  /-- A mark is the flag of the entry at its position. -/
  mark : ∀ j, j < rows.degree r.center → ∃ i e, (rows.row r.center)[i]? = some e ∧
    e.arc = offsets.getD r.center 0 + j ∧ out[j]? = some (answer.deletable.getD i false).toNat
  /-- The other marks stay. -/
  rest : ∀ j, rows.degree r.center ≤ j → out[j]? = marks[j]?
  /-- The reply has the marks and their number, and tells whether some are set. -/
  reply : run r = ⟨if 0 < ones (rows.degree r.center) out then 1 else 0, some out,
    r.info.map fun _ => ⟨answer.space.scanned, ones (rows.degree r.center) out, 0⟩⟩

section Accepted

variable {r : Request α} {offsets targets : Array Nat} {weights : Array α} {marks : Array Nat}
  {rows : Rows α}

omit [Weight α] in
theorem getD_take {n v : Nat} (hv : v < n) : (offsets.take n).getD v 0 = offsets.getD v 0 := by
  by_cases hsize : v < offsets.size <;> simp [hsize, hv]

omit [Weight α] in
theorem size_take {n : Nat} (hn : n < offsets.size) : (offsets.take (n + 1)).size - 1 = n := by
  rw [Array.take_eq_extract, Array.size_extract]
  omega

theorem nodeCount_of_accepts (h : r.Accepts offsets targets weights marks rows)
    (hlength : r.nodeCount < offsets.size) : rows.nodeCount = r.nodeCount :=
  (Rows.reads_of_ofRaw h.read).nodeCount.trans (size_take hlength)

/-- The positions of the center's row. -/
theorem perm_positions (h : r.Accepts offsets targets weights marks rows)
    (hlength : r.nodeCount < offsets.size) :
    ((rows.row r.center).map RowEntry.arc).Perm
      (List.range' (offsets.getD r.center 0) (rows.degree r.center)) := by
  have hc := h.center
  have hperm := (Rows.reads_of_ofRaw h.read).arcs r.center (by rwa [size_take hlength])
  have hdegree := hperm.length_eq
  rw [List.length_map, List.length_range'] at hdegree
  rwa [← hdegree, getD_take (by omega)] at hperm

theorem exists_answer (hfar : Weight.LooksFar (Weight.faraway : α))
    (h : r.Accepts offsets targets weights marks rows) (hlength : r.nodeCount < offsets.size) :
    ∃ answer, StarSearch.run ⟨rows, none, r.center, r.arcLimit⟩ (.fresh r.nodeCount) =
      .ok answer ∧ answer.deletable.size = rows.degree r.center ∧
        (answer.found = true ↔ true ∈ answer.deletable.toList) := by
  have hcount := nodeCount_of_accepts h hlength
  refine StarSearch.run_flags hfar (Rows.wellFormed_ofRaw h.read) ?_ (StarSpace.ready_fresh hfar _)
    (hcount.trans (StarSpace.capacity_fresh _).symm).le
  rw [hcount]
  exact h.center

/-- Every request that is not refused is answered. -/
theorem answered_of_accepts (hfar : Weight.LooksFar (Weight.faraway : α))
    (h : r.Accepts offsets targets weights marks rows) (hlength : r.nodeCount < offsets.size)
    (hroom : rows.degree r.center ≤ marks.size) :
    ∃ answer out, r.Answered offsets marks rows answer out := by
  obtain ⟨answer, hrun, hflags, hfound⟩ := exists_answer hfar h hlength
  have hpos := perm_positions h hlength
  have hlen : answer.deletable.toList.length = rows.degree r.center := by
    rw [Array.length_toList, hflags]
  have hones := ones_write hpos hlen hroom
  refine ⟨answer, _, hrun, hflags, rfl, perm_places hpos hlen, fun j hj => ?_,
    fun j hj => getElem?_write_rest hpos hlen hj, ?_⟩
  · obtain ⟨i, e, he, harc⟩ := exists_entry hpos hj
    have hi : i < answer.deletable.size := by
      rw [hflags]
      exact (List.getElem?_eq_some_iff.mp he).1
    have hflag : answer.deletable.toList[i]? = some (answer.deletable.getD i false) := by
      simp [hi]
    have hmark := getElem?_write_entry hpos hlen hroom he hflag
    rw [harc, Nat.add_sub_cancel_left] at hmark
    exact ⟨i, e, he, harc, hmark⟩
  · rw [show rows.degree r.center = (rows.row r.center).length from rfl, hones]
    have hc := h.center
    have hn : r.nodeCount ≠ 0 := by omega
    have hpositive : answer.found = true ↔ 0 < answer.deletable.toList.count true :=
      hfound.trans List.count_pos_iff.symm
    simp only [run, search, hn, hc.not_ge, if_false, h.gives.offsets, h.gives.targets,
      h.gives.weights, h.gives.marks, h.read, hrun, writeMarks_eq]
    rw [getD_take (by omega)]
    cases hf : answer.found <;> simpa [hf] using hpositive

/-- In another order the arrays are read as rows that differ in the positions alone. -/
theorem accepts_rearranged {targets' : Array Nat} {weights' : Array α} {σ : Equiv.Perm Nat}
    (h : r.Accepts offsets targets weights marks rows)
    (hσ : Rows.Rearranged (offsets.take (r.nodeCount + 1)) targets weights σ targets' weights') :
    Request.Accepts { r with targets := some targets', weights := some weights' } offsets targets'
      weights' marks (rows.renamed σ) :=
  ⟨⟨h.gives.offsets, rfl, rfl, h.gives.marks⟩, h.center, (Rows.ofRaw_rearranged hσ).1 rows h.read⟩

/-- A request with the arrays in another order is refused for the same reason. -/
theorem refuses_rearranged {targets' : Array Nat} {weights' : Array α} {σ : Equiv.Perm Nat}
    (hgives : r.Gives offsets targets weights marks)
    (hσ : Rows.Rearranged (offsets.take (r.nodeCount + 1)) targets weights σ targets' weights')
    {refusal : Refusal} (h : r.Refuses refusal) :
    Request.Refuses { r with targets := some targets', weights := some weights' } refusal := by
  cases refusal with
  | emptyNetwork => exact h
  | centerOutOfRange => exact h
  | argumentMissing =>
    obtain ⟨-, h⟩ := h
    simp [hgives.offsets, hgives.targets, hgives.weights, hgives.marks] at h
  | malformed =>
    obtain ⟨hc, offsets₁, targets₁, weights₁, marks₁, err, ⟨ho, ht, hw, hm⟩, herr⟩ := h
    obtain rfl := Option.some.inj (hgives.offsets.symm.trans ho)
    obtain rfl := Option.some.inj (hgives.targets.symm.trans ht)
    obtain rfl := Option.some.inj (hgives.weights.symm.trans hw)
    obtain ⟨err', herr'⟩ := (Rows.ofRaw_rearranged hσ).2 err herr
    exact ⟨hc, offsets, targets', weights', marks, err', ⟨ho, rfl, rfl, hgives.marks⟩, herr'⟩

variable {answer : StarSearch.Answer α} {out : Array Nat}

theorem Request.Answered.mark_entry (ha : r.Answered offsets marks rows answer out)
    (h : r.Accepts offsets targets weights marks rows) (hlength : r.nodeCount < offsets.size)
    (hroom : rows.degree r.center ≤ marks.size) {i : Nat} {e : RowEntry α}
    (he : (rows.row r.center)[i]? = some e) :
    out[e.arc - offsets.getD r.center 0]? = some (answer.deletable.getD i false).toNat := by
  have hi : i < answer.deletable.size := by
    rw [ha.flags]
    exact (List.getElem?_eq_some_iff.mp he).1
  have hflag : answer.deletable.toList[i]? = some (answer.deletable.getD i false) := by simp [hi]
  rw [ha.written]
  exact getElem?_write_entry (perm_positions h hlength) ha.flags hroom he hflag

theorem Request.Answered.ones_eq (ha : r.Answered offsets marks rows answer out)
    (h : r.Accepts offsets targets weights marks rows) (hlength : r.nodeCount < offsets.size)
    (hroom : rows.degree r.center ≤ marks.size) :
    ones (rows.degree r.center) out = answer.deletable.toList.count true := by
  rw [ha.written]
  exact ones_write (perm_positions h hlength) ha.flags hroom

/-- Of two requests one is answered like the other, but for the order of the marks of the row of
`d` entries from position `start` on: a mark at the place of position `p` moves to that of `σ p`. -/
structure Request.AnsweredAlike (r r' : Request α) (start d : Nat) (σ : Equiv.Perm Nat) :
    Prop where
  /-- The codes are the same. -/
  code : (run r').code = (run r).code
  /-- So are the figures. -/
  info : (run r').info = (run r).info
  /-- The marks of the row have moved, and the other ones are the same. -/
  marks : ∃ out out', (run r).marks = some out ∧ (run r').marks = some out' ∧
    (∀ j, j < d → out'[σ (start + j) - start]? = out[j]?) ∧ ∀ j, d ≤ j → out'[j]? = out[j]?

/-- The order of the entries in the arrays only shows in the order of the marks. -/
theorem answeredAlike_rearranged (hfar : Weight.LooksFar (Weight.faraway : α))
    {targets' : Array Nat} {weights' : Array α} {σ : Equiv.Perm Nat}
    (h : r.Accepts offsets targets weights marks rows) (hlength : r.nodeCount < offsets.size)
    (hroom : rows.degree r.center ≤ marks.size)
    (hσ : Rows.Rearranged (offsets.take (r.nodeCount + 1)) targets weights σ targets' weights') :
    r.AnsweredAlike { r with targets := some targets', weights := some weights' }
      (offsets.getD r.center 0) (rows.degree r.center) σ := by
  have h' := accepts_rearranged h hσ
  have hrow : (rows.renamed σ).row r.center = (rows.row r.center).map (RowEntry.renamed σ) :=
    Rows.row_renamed ..
  have hdegree : (rows.renamed σ).degree r.center = rows.degree r.center := by
    rw [Rows.degree, hrow, List.length_map, Rows.degree]
  obtain ⟨answer, out, ha⟩ := answered_of_accepts hfar h hlength hroom
  obtain ⟨answer', out', ha'⟩ := answered_of_accepts hfar h' hlength (hdegree.trans_le hroom)
  obtain rfl : answer' = answer := by
    have hrun := (StarSearch.run_renamed ⟨rows, none, r.center, r.arcLimit⟩ σ
      (.fresh r.nodeCount)).symm.trans ha'.search
    exact Except.ok.inj (hrun.symm.trans ha.search)
  have hones : ones ((rows.renamed σ).degree r.center) out' = ones (rows.degree r.center) out := by
    rw [ha.ones_eq h hlength hroom]
    exact ha'.ones_eq h' hlength (hdegree.trans_le hroom)
  have hreply := ha'.reply
  rw [hones] at hreply
  refine ⟨?_, ?_, out, out', congrArg Reply.marks ha.reply, congrArg Reply.marks hreply,
    fun j hj => ?_, fun j hj => ?_⟩
  · rw [ha.reply, hreply]
  · rw [ha.reply, hreply]
  · obtain ⟨i, e, he, harc⟩ := exists_entry (perm_positions h hlength) hj
    have hmark := ha.mark_entry h hlength hroom he
    have he' : ((rows.renamed σ).row r.center)[i]? = some (e.renamed σ) := by
      rw [hrow, List.getElem?_map, he, Option.map_some]
    have hmark' := ha'.mark_entry h' hlength (hdegree.trans_le hroom) he'
    rw [harc, Nat.add_sub_cancel_left] at hmark
    rw [hmark, ← harc]
    exact hmark'
  · rw [ha.rest j hj]
    exact ha'.rest j (hdegree.trans_le hj)

end Accepted

/-- Requests, of which the offsets have an entry for each node and one for the end.  One is refused
for the first thing wrong with it, and then its marks are left alone.  Any other has rows that can
be read; if there is room for the marks of the center's row it is answered, in the order of the
arrays, and with the arrays in another order the marks are in that order and all else is the
same. -/
theorem run_refuses_or_answers (hfar : Weight.LooksFar (Weight.faraway : α)) (r : Request α)
    (hlength : ∀ offsets, r.offsets = some offsets → r.nodeCount < offsets.size) :
    (∀ refusal, r.Refuses refusal →
      run r = ⟨refusal.code, r.marks, r.info.map fun _ => ⟨0, 0, refusal.code⟩⟩) ∧
    ((¬ ∃ refusal, r.Refuses refusal) ↔ ∃ offsets targets weights marks rows,
      r.Accepts offsets targets weights marks rows) ∧
    (∀ offsets targets weights marks rows, r.Accepts offsets targets weights marks rows →
      rows.degree r.center ≤ marks.size →
      (∃ answer out, r.Answered offsets marks rows answer out) ∧
      ∀ targets' weights' σ, Rows.Rearranged (offsets.take (r.nodeCount + 1)) targets weights σ
          targets' weights' →
        r.AnsweredAlike { r with targets := some targets', weights := some weights' }
          (offsets.getD r.center 0) (rows.degree r.center) σ) ∧
    ∀ offsets targets weights marks targets' weights' σ refusal,
      r.Gives offsets targets weights marks → Rows.Rearranged (offsets.take (r.nodeCount + 1))
        targets weights σ targets' weights' → r.Refuses refusal →
      run { r with targets := some targets', weights := some weights' } = run r := by
  refine ⟨fun refusal h => run_of_refuses h, ⟨(refuses_or_accepts r).resolve_left, ?_⟩, ?_, ?_⟩
  · rintro ⟨_, _, _, _, _, h⟩ ⟨refusal, hrefuses⟩
    exact h.not_refuses refusal hrefuses
  · intro offsets targets weights marks rows h hroom
    have hlength := hlength offsets h.gives.offsets
    exact ⟨answered_of_accepts hfar h hlength hroom,
      fun _ _ _ hσ => answeredAlike_rearranged hfar h hlength hroom hσ⟩
  · intro offsets targets weights marks targets' weights' σ refusal hgives hσ h
    rw [run_of_refuses h, run_of_refuses (refuses_rearranged hgives hσ h)]

/-- The first two arcs of the center may change places, though its first and its third arc are
parallel.  With the third node for center there is nothing to answer. -/
theorem run_refuses_or_answers_triangle :
    let r : Request ℚ := ⟨3, some #[0, 3, 5, 8], some #[2, 1, 2, 0, 2, 1, 0, 0],
      some #[1, 5, 2, 5, 1, 1, 1, 2], 0, 100, some #[9, 9, 9], none⟩
    (∃ rows answer out, r.Answered #[0, 3, 5, 8] #[9, 9, 9] rows answer out ∧
      r.AnsweredAlike { r with
        targets := some #[1, 2, 2, 0, 2, 1, 0, 0]
        weights := some #[5, 1, 2, 5, 1, 1, 1, 2] } 0 3 (Equiv.swap 0 1)) ∧
    run { r with center := 3 } = ⟨-2, some #[9, 9, 9], none⟩ := by
  intro r
  have hlength : ∀ offsets, r.offsets = some offsets → r.nodeCount < offsets.size := by
    intro offsets h
    obtain rfl := Option.some.inj h
    decide
  obtain ⟨-, -, hanswered, -⟩ := run_refuses_or_answers Weight.looksFar_faraway r hlength
  obtain ⟨hrefused, -, -, -⟩ :=
    run_refuses_or_answers Weight.looksFar_faraway { r with center := 3 } hlength
  -- what is said of all entries only concerns the entries of three rows
  have hin : ∀ v e, Rows.InRow #[0, 3, 5, 8] v e → v < 3 ∧ e < 8 := by
    rintro v e ⟨hv, -, hhigh⟩
    change v < 3 at hv
    refine ⟨hv, lt_of_lt_of_le hhigh ?_⟩
    interval_cases v <;> decide
  have hall : ∀ P : Nat → Nat → Prop, (∀ v, v < 3 → ∀ e, e < 8 →
      Rows.InRow #[0, 3, 5, 8] v e → P v e) → ∀ v e, Rows.InRow #[0, 3, 5, 8] v e → P v e :=
    fun P h v e he => h v (hin v e he).1 e (hin v e he).2 he
  have hshape : Rows.WellShaped #[0, 3, 5, 8] #[2, 1, 2, 0, 2, 1, 0, 0]
      #[(1 : ℚ), 5, 2, 5, 1, 1, 1, 2] := by
    refine ⟨by decide, ⟨rfl, fun v hv => ?_⟩, by decide, by decide⟩
    replace hv : v < 3 := Nat.lt_of_succ_lt_succ hv
    interval_cases v <;> decide
  have hpass := hall (Rows.Passes 3 #[2, 1, 2, 0, 2, 1, 0, 0] #[(1 : ℚ), 5, 2, 5, 1, 1, 1, 2])
    (by decide)
  have hread := Rows.ofRaw_eq_ok_iff.mpr ⟨hshape, hpass, rfl⟩
  have haccepts : r.Accepts #[0, 3, 5, 8] _ _ #[9, 9, 9] _ :=
    ⟨⟨rfl, rfl, rfl, rfl⟩, by decide, hread⟩
  have hdegree := (Rows.reads_of_ofRaw hread).arcs 0 (by decide) |>.length_eq
  rw [List.length_map, List.length_range'] at hdegree
  have hσ : Rows.Rearranged #[0, 3, 5, 8] #[2, 1, 2, 0, 2, 1, 0, 0]
      #[(1 : ℚ), 5, 2, 5, 1, 1, 1, 2] (Equiv.swap 0 1) #[1, 2, 2, 0, 2, 1, 0, 0]
      #[5, 1, 2, 5, 1, 1, 1, 2] := by
    have hparallel : ∀ v, v < 3 → ∀ e, e < 8 → Rows.InRow #[0, 3, 5, 8] v e →
        ∀ e', e' < 8 → Rows.InRow #[0, 3, 5, 8] v e' ∧ e < e' ∧
          (#[2, 1, 2, 0, 2, 1, 0, 0] : Array Nat).getD e 0 = #[2, 1, 2, 0, 2, 1, 0, 0].getD e' 0 →
            Equiv.swap 0 1 e < Equiv.swap 0 1 e' := by
      set_option synthInstance.maxSize 256 in
      decide
    refine ⟨rfl, rfl, hall _ (by decide), hall _ (by decide), hall _ (by decide),
      fun v e e' he he' hlt heq => hall _ hparallel v e he e' (hin v e' he').2 ⟨he', hlt, heq⟩⟩
  obtain ⟨⟨answer, out, ha⟩, halike⟩ := hanswered _ _ _ _ _ haccepts hdegree.le
  refine ⟨⟨_, answer, out, ha, ?_⟩, hrefused .centerOutOfRange ⟨by decide, by decide⟩⟩
  rw [← show Rows.degree _ 0 = 3 from hdegree]
  exact halike _ _ _ hσ

end RawStar

end SteinerSearch
