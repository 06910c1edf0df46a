import SteinerSearch.Proofs.Stepping
import SteinerSearch.Proofs.Tables
import SteinerSearch.TraceLists

/-!
# What is known of bounded lists

Rows do not overlap, so that writing to the list of one node leaves the lists of
all others alone.  What a list may contain is never forgotten by a push, and a copy
takes over what its source may contain.

## Main definitions

* `TraceLists.Sized l n` — the lists are for `n` nodes.
* `TraceLists.WellFormed l n` — and none is longer than the bound.
* `TraceLists.Later l l'` — what is saturated in `l` is so in `l'`, and no list outgrew the bound.

## Main results

* `TraceLists.get?_push`, `TraceLists.get?_copy` — the list that is written to.
* `TraceLists.get?_push_of_ne`, `TraceLists.get?_copy_of_ne` — all other lists.
* `TraceLists.mayContain_push`, `TraceLists.mayContain_copy`.
* `TraceLists.later_push`, `TraceLists.later_copy` — whatever the lists are.
-/

namespace SteinerSearch

namespace TraceLists

/-- The lists are for `n` nodes, with a row for each. -/
structure Sized (l : TraceLists) (n : Nat) : Prop where
  fill : l.fill.size = n
  ids : l.ids.size = n * l.capacity

/-- The lists are for `n` nodes, and each fits into its row. -/
structure WellFormed (l : TraceLists) (n : Nat) : Prop extends Sized l n where
  bounded : ∀ v count, l.fillOf v = .holding count → count ≤ l.capacity

theorem sized_empty (n capacity : Nat) : (empty n capacity).Sized n :=
  ⟨Array.size_replicate, Array.size_replicate⟩

/-- Empty lists fit into any rows. -/
theorem Sized.wellFormed_of_empty {l : TraceLists} {n : Nat} (hl : l.Sized n)
    (hempty : ∀ v, l.fillOf v = .holding 0) : l.WellFormed n := by
  refine ⟨hl, fun v count hv => ?_⟩
  rw [hempty v] at hv
  cases hv
  exact Nat.zero_le _

/-- Entry `i` of the row of `v`. -/
def entry (l : TraceLists) (v i : Nat) : Nat := l.ids.getD (l.position v i) 0

variable {l : TraceLists} {n u v : Nat}

/-! ### Rows -/

theorem position_lt (hl : l.Sized n) (hv : v < n) {i : Nat} (hi : i < l.capacity) :
    l.position v i < l.ids.size := by
  have : (v + 1) * l.capacity ≤ n * l.capacity := Nat.mul_le_mul_right _ hv
  rw [Nat.succ_mul] at this
  rw [hl.ids, position]
  omega

/-- Rows do not overlap. -/
theorem position_injective {i j : Nat} (hi : i < l.capacity) (hj : j < l.capacity)
    (h : l.position u i = l.position v j) : u = v ∧ i = j := by
  unfold position at h
  rcases Nat.lt_trichotomy u v with huv | rfl | huv
  · have : (u + 1) * l.capacity ≤ v * l.capacity := Nat.mul_le_mul_right _ huv
    rw [Nat.succ_mul] at this
    omega
  · exact ⟨rfl, by omega⟩
  · have : (v + 1) * l.capacity ≤ u * l.capacity := Nat.mul_le_mul_right _ huv
    rw [Nat.succ_mul] at this
    omega

theorem entry_write_self (hl : l.Sized n) (hv : v < n) {i : Nat} (hi : i < l.capacity) (x : Nat) :
    (l.write v i x).entry v i = x :=
  Array.getD_setIfInBounds_self (position_lt hl hv hi) _ _

theorem entry_write_of_ne {i j : Nat} (hi : i < l.capacity) (hj : j < l.capacity)
    (h : u = v → j ≠ i) (x : Nat) : (l.write v i x).entry u j = l.entry u j := by
  refine Array.getD_setIfInBounds_of_ne (fun heq => ?_) _ _
  obtain ⟨huv, hji⟩ := position_injective hj hi heq
  exact h huv hji

theorem Sized.write (hl : l.Sized n) (v i x : Nat) : (l.write v i x).Sized n :=
  ⟨hl.fill, (Array.size_setIfInBounds ..).trans hl.ids⟩

theorem Sized.setFill (hl : l.Sized n) (v : Nat) (f : Fill) : (l.setFill v f).Sized n :=
  ⟨(Array.size_setIfInBounds ..).trans hl.fill, hl.ids⟩

theorem fillOf_setFill_self (hl : l.Sized n) (hv : v < n) (f : Fill) :
    (l.setFill v f).fillOf v = f :=
  Array.getD_setIfInBounds_self (by rwa [hl.fill]) _ _

theorem fillOf_setFill_of_ne (h : u ≠ v) (f : Fill) : (l.setFill v f).fillOf u = l.fillOf u :=
  Array.getD_setIfInBounds_of_ne h _ _

theorem WellFormed.setFill (hl : l.WellFormed n) (hv : v < n) {f : Fill}
    (hf : ∀ count, f = .holding count → count ≤ l.capacity) : (l.setFill v f).WellFormed n := by
  refine ⟨hl.toSized.setFill v f, fun u count hu => ?_⟩
  by_cases huv : u = v
  · rw [huv, fillOf_setFill_self hl.toSized hv] at hu
    exact hf count hu
  · rw [fillOf_setFill_of_ne huv] at hu
    exact hl.bounded u count hu

/-! ### Lists -/

theorem get?_of_holding {count : Nat} (h : l.fillOf v = .holding count) :
    l.get? v = some ((List.range count).map (l.entry v)) := by
  simp only [get?, h]
  rfl

theorem get?_of_saturated (h : l.fillOf v = .saturated) : l.get? v = none := by
  simp only [get?, h]

/-- A list depends on its fill and on the entries of its row. -/
theorem get?_congr {l' : TraceLists} (hl : l.WellFormed n) (hfill : l'.fillOf v = l.fillOf v)
    (hentry : ∀ i, i < l.capacity → l'.entry v i = l.entry v i) : l'.get? v = l.get? v := by
  cases h : l.fillOf v with
  | saturated => rw [get?_of_saturated h, get?_of_saturated (hfill.trans h)]
  | holding count =>
    rw [get?_of_holding h, get?_of_holding (hfill.trans h)]
    refine congrArg some (List.map_congr_left fun i hi => hentry i ?_)
    exact Nat.lt_of_lt_of_le (List.mem_range.mp hi) (hl.bounded v count h)

theorem get?_setFill_of_ne (hl : l.WellFormed n) (h : u ≠ v) (f : Fill) :
    (l.setFill v f).get? u = l.get? u :=
  get?_congr hl (fillOf_setFill_of_ne h f) fun _ _ => rfl

/-! ### Pushing -/

theorem WellFormed.push (hl : l.WellFormed n) (hv : v < n) (x : Nat) :
    (l.push v x).WellFormed n := by
  unfold TraceLists.push
  split
  · next count hcount =>
    split
    · next hlt =>
      have hw : (l.write v count x).WellFormed n := ⟨hl.toSized.write v count x, hl.bounded⟩
      refine hw.setFill hv fun c hc => ?_
      cases hc
      exact hlt
    · exact hl.setFill hv fun c hc => by cases hc
  · exact hl

@[simp] theorem capacity_push (x : Nat) : (l.push v x).capacity = l.capacity := by
  unfold push
  split
  · split <;> rfl
  · rfl

/-- The list grows by the id, unless it is full or saturated. -/
theorem get?_push (hl : l.WellFormed n) (hv : v < n) (x : Nat) :
    (l.push v x).get? v =
      (l.get? v).bind fun ids => if ids.length < l.capacity then some (ids ++ [x]) else none := by
  unfold push
  cases h : l.fillOf v with
  | saturated => rw [get?_of_saturated h, Option.bind_none]
  | holding count =>
    rw [get?_of_holding h, Option.bind_some, List.length_map, List.length_range]
    simp only
    by_cases hlt : count < l.capacity
    · have hold : (List.range count).map (((l.write v count x).setFill v
          (.holding (count + 1))).entry v) = (List.range count).map (l.entry v) := by
        refine List.map_congr_left fun i hi => ?_
        have := List.mem_range.mp hi
        exact entry_write_of_ne hlt (by omega) (fun _ => by omega) x
      have hnew : ((l.write v count x).setFill v (.holding (count + 1))).entry v count = x :=
        entry_write_self hl.toSized hv hlt x
      rw [if_pos hlt, if_pos hlt,
        get?_of_holding (fillOf_setFill_self (hl.toSized.write v count x) hv _),
        List.range_succ, List.map_append, List.map_singleton, hold, hnew]
    · rw [if_neg hlt, if_neg hlt, get?_of_saturated (fillOf_setFill_self hl.toSized hv _)]

theorem get?_push_of_ne (hl : l.WellFormed n) (h : u ≠ v) (x : Nat) :
    (l.push v x).get? u = l.get? u := by
  unfold push
  split
  · next count _ =>
    split
    · next hlt =>
      exact get?_congr hl (fillOf_setFill_of_ne h _) fun i hi =>
        entry_write_of_ne hlt hi (fun huv => absurd huv h) x
    · exact get?_setFill_of_ne hl h _
  · rfl

/-! ### Copying -/

/-- The row of `target` with the first `count` entries of the row of `source`. -/
def copied (l : TraceLists) (source target count : Nat) : TraceLists :=
  (List.range count).foldl (fun l i => l.write target i (l.ids.getD (l.position source i) 0)) l

section Copied

variable {source target count : Nat}

theorem copied_ensures (hl : l.Sized n) (ht : target < n) (hne : source ≠ target)
    (hcount : count ≤ l.capacity) :
    (l.copied source target count).capacity = l.capacity ∧
      (l.copied source target count).fill = l.fill ∧ (l.copied source target count).Sized n ∧
      (∀ i, i < count → (l.copied source target count).entry target i = l.entry source i) ∧
      ∀ u i, u ≠ target → i < l.capacity →
        (l.copied source target count).entry u i = l.entry u i := by
  have h := foldl_ensures (f := fun l i => TraceLists.write l target i
      (l.ids.getD (l.position source i) 0))
    (J := fun done l' => l'.capacity = l.capacity ∧ l'.fill = l.fill ∧ l'.Sized n ∧
      (∀ i ∈ done, i < count → l'.entry target i = l.entry source i) ∧
      ∀ u i, u ≠ target → i < l.capacity → l'.entry u i = l.entry u i)
    (List.range count) ?_ (s := l)
    ⟨rfl, rfl, hl, fun i hi => absurd hi List.not_mem_nil, fun _ _ _ _ => rfl⟩
  · obtain ⟨hcap, hfill, hsized, htarget, hother⟩ := h
    exact ⟨hcap, hfill, hsized, fun i hi => htarget i (List.mem_range.mpr hi) hi, hother⟩
  · rintro done i l' hi ⟨hcap, hfill, hsized, htarget, hother⟩
    have hic := Nat.lt_of_lt_of_le (List.mem_range.mp (mem_of_appended hi)) hcount
    refine ⟨hcap, hfill, hsized.write _ _ _, fun j hj hjc => ?_, fun u j hu hj => ?_⟩
    · by_cases hji : j = i
      · rw [hji, entry_write_self hsized ht (by rwa [hcap])]
        exact hother source i hne hic
      · rw [entry_write_of_ne (by omega) (by omega) fun _ => hji]
        rcases List.mem_append.mp hj with hj | hj
        · exact htarget j hj hjc
        · exact absurd (List.mem_singleton.mp hj) hji
    · rw [entry_write_of_ne (by omega) (by omega) fun hut => absurd hut hu]
      exact hother u j hu hj

end Copied

variable {source target : Nat}

theorem copy_of_holding {c count : Nat} (ht : l.fillOf target = .holding c)
    (hs : l.fillOf source = .holding count) :
    l.copy source target = (l.copied source target count).setFill target (.holding count) := by
  simp only [copy, ht, hs, copied]

theorem copy_of_saturated {c : Nat} (ht : l.fillOf target = .holding c)
    (hs : l.fillOf source = .saturated) : l.copy source target = l.setFill target .saturated := by
  simp only [copy, ht, hs]

theorem copy_to_saturated (ht : l.fillOf target = .saturated) : l.copy source target = l := by
  simp only [copy, ht]

theorem WellFormed.copy (hl : l.WellFormed n) (ht : target < n) (hne : source ≠ target) :
    (l.copy source target).WellFormed n := by
  cases hft : l.fillOf target with
  | saturated => rwa [copy_to_saturated hft]
  | holding c =>
    cases hfs : l.fillOf source with
    | saturated =>
      rw [copy_of_saturated hft hfs]
      exact hl.setFill ht fun c hc => by cases hc
    | holding count =>
      have hcount := hl.bounded source count hfs
      obtain ⟨hcap, hfill, hsized, -, -⟩ := copied_ensures hl.toSized ht hne hcount
      have hcopied : (l.copied source target count).WellFormed n := by
        refine ⟨hsized, fun v c hv => ?_⟩
        rw [fillOf, hfill] at hv
        rw [hcap]
        exact hl.bounded v c hv
      rw [copy_of_holding hft hfs]
      refine hcopied.setFill ht fun c hc => ?_
      cases hc
      rwa [hcap]

theorem capacity_copy (hl : l.WellFormed n) (ht : target < n) (hne : source ≠ target) :
    (l.copy source target).capacity = l.capacity := by
  cases hft : l.fillOf target with
  | saturated => rw [copy_to_saturated hft]
  | holding c =>
    cases hfs : l.fillOf source with
    | saturated =>
      rw [copy_of_saturated hft hfs]
      rfl
    | holding count =>
      rw [copy_of_holding hft hfs]
      exact (copied_ensures hl.toSized ht hne (hl.bounded source count hfs)).1

/-- The target has the list of the source, unless it was saturated. -/
theorem get?_copy (hl : l.WellFormed n) (ht : target < n) (hne : source ≠ target) :
    (l.copy source target).get? target = (l.get? target).bind fun _ => l.get? source := by
  cases hft : l.fillOf target with
  | saturated => rw [copy_to_saturated hft, get?_of_saturated hft, Option.bind_none]
  | holding c =>
    rw [get?_of_holding hft, Option.bind_some]
    cases hfs : l.fillOf source with
    | saturated =>
      rw [copy_of_saturated hft hfs, get?_of_saturated hfs,
        get?_of_saturated (fillOf_setFill_self hl.toSized ht _)]
    | holding count =>
      have hcount := hl.bounded source count hfs
      obtain ⟨-, -, hsized, htarget, -⟩ := copied_ensures hl.toSized ht hne hcount
      rw [copy_of_holding hft hfs, get?_of_holding hfs,
        get?_of_holding (fillOf_setFill_self hsized ht _)]
      exact congrArg some (List.map_congr_left fun i hi => htarget i (List.mem_range.mp hi))

theorem get?_copy_of_ne (hl : l.WellFormed n) (ht : target < n) (hne : source ≠ target)
    (h : u ≠ target) : (l.copy source target).get? u = l.get? u := by
  cases hft : l.fillOf target with
  | saturated => rw [copy_to_saturated hft]
  | holding c =>
    cases hfs : l.fillOf source with
    | saturated =>
      rw [copy_of_saturated hft hfs]
      exact get?_setFill_of_ne hl h _
    | holding count =>
      have hcount := hl.bounded source count hfs
      obtain ⟨-, hfill, -, -, hother⟩ := copied_ensures hl.toSized ht hne hcount
      rw [copy_of_holding hft hfs]
      refine get?_congr hl ((fillOf_setFill_of_ne h _).trans ?_) fun i hi => hother u i h hi
      rw [fillOf, hfill, fillOf]

/-! ### What stays -/

/-- No list is longer than the bound. -/
def Bounded (l : TraceLists) : Prop := ∀ v count, l.fillOf v = .holding count → count ≤ l.capacity

theorem Bounded.length_le (hl : l.Bounded) {ids : List Nat} (h : l.get? v = some ids) :
    ids.length ≤ l.capacity := by
  cases hfill : l.fillOf v with
  | saturated =>
    rw [get?_of_saturated hfill] at h
    cases h
  | holding count =>
    rw [get?_of_holding hfill] at h
    cases h
    rw [List.length_map, List.length_range]
    exact hl v count hfill

/-- Some writing leads from `l` to `l'`.  The bound is the same, and no list is saturated or too
long for a while only. -/
structure Later (l l' : TraceLists) : Prop where
  capacity : l'.capacity = l.capacity
  saturated : ∀ v, l.fillOf v = .saturated → l'.fillOf v = .saturated
  bounded : l.Bounded → l'.Bounded

theorem Later.refl (l : TraceLists) : l.Later l := ⟨rfl, fun _ h => h, fun h => h⟩

theorem Later.trans {l' l'' : TraceLists} (h : l.Later l') (h' : l'.Later l'') : l.Later l'' :=
  ⟨h'.capacity.trans h.capacity, fun v hv => h'.saturated v (h.saturated v hv),
    fun hl => h'.bounded (h.bounded hl)⟩

theorem later_of_fill {l' : TraceLists} (hcapacity : l'.capacity = l.capacity)
    (hfill : l'.fill = l.fill) : l.Later l' := by
  have hfillOf : ∀ v, l'.fillOf v = l.fillOf v := fun v => by rw [fillOf, hfill, fillOf]
  refine ⟨hcapacity, fun v hv => (hfillOf v).trans hv, fun hl v count hv => ?_⟩
  rw [hcapacity]
  exact hl v count ((hfillOf v).symm.trans hv)

/-- A list that is not saturated may use any part of its row. -/
theorem later_setFill {f : Fill} (hv : l.fillOf v ≠ .saturated)
    (hf : l.Bounded → ∀ count, f = .holding count → count ≤ l.capacity) :
    l.Later (l.setFill v f) := by
  refine ⟨rfl, fun u hu => ?_, fun hl u count hu => ?_⟩
  · have huv : u ≠ v := by
      rintro rfl
      exact hv hu
    rwa [fillOf_setFill_of_ne huv]
  · by_cases huv : u = v
    · subst huv
      by_cases hin : u < l.fill.size
      · exact hf hl count ((Array.getD_setIfInBounds_self hin _ _).symm.trans hu)
      · -- no row is there
        have hnone : (l.setFill u f).fillOf u = .holding 0 :=
          Array.getD_of_size_le (by simpa [TraceLists.setFill] using hin) _
        rw [hnone] at hu
        cases hu
        exact Nat.zero_le _
    · rw [fillOf_setFill_of_ne huv] at hu
      exact hl u count hu

theorem later_push (l : TraceLists) (v x : Nat) : l.Later (l.push v x) := by
  unfold TraceLists.push
  split
  · next count hcount =>
    have hopen : l.fillOf v ≠ .saturated := by
      rw [hcount]
      exact Fill.noConfusion
    split
    · next hlt =>
      have hwrite : l.Later (l.write v count x) := later_of_fill rfl rfl
      refine hwrite.trans (later_setFill hopen fun _ c hc => ?_)
      cases hc
      exact hlt
    · exact later_setFill hopen fun _ c hc => by cases hc
  · exact Later.refl l

theorem fill_copied (source target count : Nat) :
    (l.copied source target count).capacity = l.capacity ∧
      (l.copied source target count).fill = l.fill :=
  foldl_ensures (f := fun l i => TraceLists.write l target i (l.ids.getD (l.position source i) 0))
    (J := fun _ l' => l'.capacity = l.capacity ∧ l'.fill = l.fill) _ (fun _ _ _ _ h => h)
    ⟨rfl, rfl⟩

theorem later_copy (l : TraceLists) (source target : Nat) : l.Later (l.copy source target) := by
  cases ht : l.fillOf target with
  | saturated =>
    rw [copy_to_saturated ht]
    exact Later.refl l
  | holding c =>
    have hopen : l.fillOf target ≠ .saturated := by
      rw [ht]
      exact Fill.noConfusion
    cases hs : l.fillOf source with
    | saturated =>
      rw [copy_of_saturated ht hs]
      exact later_setFill hopen fun _ c hc => by cases hc
    | holding count =>
      obtain ⟨hcapacity, hfill⟩ := l.fill_copied source target count
      have hcopied := later_of_fill hcapacity hfill
      rw [copy_of_holding ht hs]
      refine hcopied.trans (later_setFill ?_ fun hl c hc => ?_)
      · rwa [fillOf, hfill]
      · cases hc
        refine hl source count ?_
        rw [fillOf, hfill]
        exact hs

/-! ### Membership -/

theorem mayContain_iff {x : Nat} :
    l.mayContain v x = true ↔ ∀ ids, l.get? v = some ids → x ∈ ids := by
  unfold mayContain
  split
  · next ids hids => simp [hids]
  · next hnone => simp [hnone]

theorem surelyContains_iff {x : Nat} :
    l.surelyContains v x = true ↔ ∃ ids, l.get? v = some ids ∧ x ∈ ids := by
  unfold surelyContains
  split
  · next ids hids => simp [hids]
  · next hnone => simp [hnone]

theorem mayContain_congr {l' : TraceLists} (h : l'.get? v = l.get? v) (x : Nat) :
    l'.mayContain v x = l.mayContain v x := by
  unfold mayContain
  rw [h]

/-- A push forgets nothing. -/
theorem mayContain_push (hl : l.WellFormed n) (hv : v < n) (x : Nat) {y : Nat}
    (h : l.mayContain v y = true ∨ y = x) : (l.push v x).mayContain v y = true := by
  rw [mayContain_iff, get?_push hl hv]
  intro ids hids
  obtain ⟨old, hold, hnew⟩ := Option.bind_eq_some_iff.mp hids
  split at hnew
  · obtain rfl := Option.some.inj hnew
    rcases h with h | rfl
    · exact List.mem_append_left _ (mayContain_iff.mp h old hold)
    · exact List.mem_append_right _ List.mem_cons_self
  · cases hnew

/-- A copy takes over what the source may contain. -/
theorem mayContain_copy (hl : l.WellFormed n) (ht : target < n) (hne : source ≠ target) {y : Nat}
    (h : l.mayContain source y = true) : (l.copy source target).mayContain target y = true := by
  rw [mayContain_iff, get?_copy hl ht hne]
  intro ids hids
  obtain ⟨_, -, hs⟩ := Option.bind_eq_some_iff.mp hids
  exact mayContain_iff.mp h ids hs

end TraceLists

end SteinerSearch
