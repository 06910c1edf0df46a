import SteinerSearch.Proofs.Network.Layout

/-!
# Rows of raw arrays

Raw arrays are read if and only if their shape is right and every entry passes its checks.
Otherwise the first thing wrong is reported: the shape is looked at first, then the entries from
the first position on.

## Main definitions

* `Rows.WellShaped offsets targets weights`, `Rows.Misshapen offsets targets weights err` — the
  shape of the arrays, and what is reported of it.
* `Rows.InRow offsets v e`, `Rows.Passes n targets weights v e`,
  `Rows.Refused n targets weights v e err` — the positions of a row, the checks of the entry at a
  position, and what is reported of it.
* `Rows.Reads offsets targets weights r` — `r` has the rows of the arrays.

## Main results

* `Rows.ofRaw_eq_ok_iff`, `Rows.ofRaw_eq_error_iff` — which arrays are read, and what is
  reported of the others.
* `Rows.reads_of_ofRaw` — the rows are those of the arrays.
-/

namespace SteinerSearch

namespace Rows

variable {α : Type}

/-! ### Checking a list -/

/-- What comes of a list whose entries are checked and changed one by one. -/
theorem mapM_eq_ok_iff {β γ ε : Type} {f : β → Except ε γ} {P : β → Prop} {g : β → γ}
    {bs : List β} (hf : ∀ b ∈ bs, ∀ c, f b = .ok c ↔ P b ∧ c = g b) {cs : List γ} :
    bs.mapM f = .ok cs ↔ (∀ b ∈ bs, P b) ∧ cs = bs.map g := by
  induction bs generalizing cs with
  | nil => simp [pure, Except.pure, eq_comm]
  | cons b bs ih =>
    obtain ⟨hhead, htail⟩ := List.forall_mem_cons.mp hf
    have ih := @ih htail
    rw [List.mapM_cons]
    cases hb : f b with
    | error e =>
      have hnot : ¬ P b := fun hP => by
        have := (hhead (g b)).mpr ⟨hP, rfl⟩
        rw [hb] at this
        cases this
      simp [bind, Except.bind, hnot]
    | ok c =>
      obtain ⟨hP, rfl⟩ := (hhead c).mp hb
      cases hbs : bs.mapM f with
      | error e =>
        have hnot : ¬ ∀ b ∈ bs, P b := fun h => by
          have := ih.mpr ⟨h, rfl⟩
          rw [hbs] at this
          cases this
        simp [bind, Except.bind, hP, hnot]
      | ok rest =>
        obtain ⟨hrest, rfl⟩ := ih.mp hbs
        have hall : ∀ x ∈ b :: bs, P x := List.forall_mem_cons.mpr ⟨hP, hrest⟩
        show Except.ok (g b :: bs.map g) = Except.ok cs ↔ _
        rw [Except.ok.injEq, List.map_cons, and_iff_right hall, eq_comm]

/-- The first entry of a list that does not pass is reported. -/
theorem mapM_eq_error_iff {β γ ε : Type} {f : β → Except ε γ} {bs : List β} {err : ε} :
    bs.mapM f = .error err ↔ ∃ pre b post, bs = pre ++ b :: post ∧
      (∀ x ∈ pre, ∃ c, f x = .ok c) ∧ f b = .error err := by
  induction bs with
  | nil => simp [pure, Except.pure]
  | cons b bs ih =>
    rw [List.mapM_cons]
    cases hb : f b with
    | error e =>
      constructor
      · intro h
        obtain rfl := Except.error.inj h
        exact ⟨[], b, bs, rfl, by simp, hb⟩
      · rintro ⟨pre, x, post, hsplit, hpre, hx⟩
        cases pre with
        | nil =>
          obtain ⟨rfl, rfl⟩ := List.cons.inj hsplit
          obtain rfl := Except.error.inj (hb.symm.trans hx)
          rfl
        | cons y pre =>
          obtain ⟨rfl, -⟩ := List.cons.inj hsplit
          obtain ⟨c, hc⟩ := hpre b List.mem_cons_self
          rw [hb] at hc
          cases hc
    | ok c =>
      have hstep : (Except.ok c >>= fun c => bs.mapM f >>= fun cs => pure (c :: cs)) =
          Except.error err ↔ bs.mapM f = .error err := by
        cases bs.mapM f <;> simp [bind, Except.bind, pure, Except.pure]
      rw [hstep, ih]
      constructor
      · rintro ⟨pre, x, post, rfl, hpre, hx⟩
        exact ⟨b :: pre, x, post, rfl, List.forall_mem_cons.mpr ⟨⟨c, hb⟩, hpre⟩, hx⟩
      · rintro ⟨pre, x, post, hsplit, hpre, hx⟩
        cases pre with
        | nil =>
          obtain ⟨rfl, rfl⟩ := List.cons.inj hsplit
          rw [hb] at hx
          cases hx
        | cons y pre =>
          obtain ⟨rfl, rfl⟩ := List.cons.inj hsplit
          exact ⟨pre, x, post, rfl, (List.forall_mem_cons.mp hpre).2, hx⟩

/-! ### Shape and checks -/

variable [Weight α] {offsets targets : Array Nat} {weights : Array α}

/-- Rows start at zero, and none starts before the one before it. -/
def StartsOrdered (offsets : Array Nat) : Prop :=
  offsets.getD 0 0 = 0 ∧ ∀ v, v + 1 < offsets.size → offsets.getD v 0 ≤ offsets.getD (v + 1) 0

/-- The arrays have the shape of rows. -/
structure WellShaped (offsets targets : Array Nat) (weights : Array α) : Prop where
  /-- There is an offset. -/
  nonempty : offsets.size ≠ 0
  /-- Rows start in order. -/
  ordered : StartsOrdered offsets
  /-- There is a target for every entry. -/
  targets_le : offsets.getD (offsets.size - 1) 0 ≤ targets.size
  /-- There is a weight for every entry. -/
  weights_le : offsets.getD (offsets.size - 1) 0 ≤ weights.size

/-- Of the checks of the shape, `err` reports the first that the arrays do not pass: there is no
offset, rows do not start in order, there are fewer targets or weights than entries. -/
def Misshapen (offsets targets : Array Nat) (weights : Array α) (err : NetworkError α) : Prop :=
  offsets.size = 0 ∧ err = .offsetsMissing ∨
    offsets.size ≠ 0 ∧ ¬ StartsOrdered offsets ∧ err = .offsetsUnordered ∨
      offsets.size ≠ 0 ∧ StartsOrdered offsets ∧
        (targets.size < offsets.getD (offsets.size - 1) 0 ∨
          weights.size < offsets.getD (offsets.size - 1) 0) ∧
        err = .entriesMissing (offsets.getD (offsets.size - 1) 0)

/-- Position `e` is in the row of `v`. -/
def InRow (offsets : Array Nat) (v e : Nat) : Prop :=
  v < offsets.size - 1 ∧ offsets.getD v 0 ≤ e ∧ e < offsets.getD (v + 1) 0

instance (offsets : Array Nat) (v e : Nat) : Decidable (InRow offsets v e) :=
  inferInstanceAs (Decidable (_ ∧ _ ∧ _))

/-- The entry at position `e` of the row of `v` leads to another one of `n` nodes, at a finite
cost that is not negative. -/
def Passes (n : Nat) (targets : Array Nat) (weights : Array α) (v e : Nat) : Prop :=
  targets.getD e 0 < n ∧ targets.getD e 0 ≠ v ∧ Weight.admissible (weights.getD e 0) = true

instance (n : Nat) (targets : Array Nat) (weights : Array α) (v e : Nat) :
    Decidable (Passes n targets weights v e) :=
  inferInstanceAs (Decidable (_ ∧ _ ∧ _))

/-- Of the checks of the entry at position `e` of the row of `v`, `err` reports the first that it
does not pass: its target is out of range, its target is `v`, its weight is not admissible. -/
def Refused (n : Nat) (targets : Array Nat) (weights : Array α) (v e : Nat)
    (err : NetworkError α) : Prop :=
  n ≤ targets.getD e 0 ∧ err = .nodeOutOfRange (targets.getD e 0) n ∨
    targets.getD e 0 < n ∧ targets.getD e 0 = v ∧ err = .selfLoop v ∨
      targets.getD e 0 < n ∧ targets.getD e 0 ≠ v ∧
        Weight.admissible (weights.getD e 0) = false ∧ err = .invalidCost (weights.getD e 0)

/-- The entry at position `e`. -/
def entryOf (targets : Array Nat) (weights : Array α) (e : Nat) : RowEntry α :=
  ⟨targets.getD e 0, weights.getD e 0, e⟩

theorem rawEntry_eq_ok_iff {n v e : Nat} {x : RowEntry α} :
    rawEntry n targets weights v e = .ok x ↔
      Passes n targets weights v e ∧ x = entryOf targets weights e := by
  unfold rawEntry Passes entryOf
  dsimp only
  generalize targets.getD e 0 = t, weights.getD e 0 = w
  split
  · next h =>
    have : ¬ t < n := by omega
    simp [this]
  · next h =>
    have : t < n := by omega
    by_cases hv : t = v
    · simp [hv]
    · by_cases hw : Weight.admissible w = true
      · simp [hv, hw, this, eq_comm]
      · simp [hv, hw]

theorem rawEntry_eq_error_iff {n v e : Nat} {err : NetworkError α} :
    rawEntry n targets weights v e = .error err ↔ Refused n targets weights v e err := by
  unfold rawEntry Refused
  dsimp only
  generalize targets.getD e 0 = t, weights.getD e 0 = w
  split
  · next h =>
    have : ¬ t < n := by omega
    simp only [h, this, true_and, false_and, or_false, Except.error.injEq]
    exact eq_comm
  · next h =>
    have : t < n := by omega
    by_cases hv : t = v
    · subst hv
      simp only [h, this, if_true, true_and, false_and, ne_eq, not_true_eq_false, or_false,
        false_or, Except.error.injEq]
      exact eq_comm
    · by_cases hw : Weight.admissible w = true
      · simp [h, hv, hw]
      · rw [Bool.not_eq_true] at hw
        simp only [h, hv, hw, this, if_false, Bool.not_false, if_true, true_and, false_and, ne_eq,
          not_false_eq_true, false_or, Except.error.injEq]
        exact eq_comm

/-- The row of `v`, if its entries pass. -/
def rowOf (offsets targets : Array Nat) (weights : Array α) (v : Nat) : List (RowEntry α) :=
  ((List.range' (offsets.getD v 0) (offsets.getD (v + 1) 0 - offsets.getD v 0)).map
    (entryOf targets weights)).mergeSort RowEntry.le

theorem mem_range'_iff {offsets : Array Nat} {v e : Nat} (hv : v < offsets.size - 1) :
    e ∈ List.range' (offsets.getD v 0) (offsets.getD (v + 1) 0 - offsets.getD v 0) ↔
      InRow offsets v e := by
  rw [List.mem_range'_1, InRow]
  omega

theorem rawRow_eq_ok_iff {v : Nat} (hv : v < offsets.size - 1) {row : List (RowEntry α)} :
    rawRow offsets targets weights v = .ok row ↔
      (∀ e, InRow offsets v e → Passes (offsets.size - 1) targets weights v e) ∧
        row = rowOf offsets targets weights v := by
  unfold rawRow rowOf
  dsimp only
  simp only [← mem_range'_iff hv]
  generalize List.range' (offsets.getD v 0) (offsets.getD (v + 1) 0 - offsets.getD v 0) = es
  cases h : es.mapM (rawEntry (offsets.size - 1) targets weights v) with
  | error err =>
    have hnot : ¬ ∀ e ∈ es, Passes (offsets.size - 1) targets weights v e := fun hall => by
      have := (mapM_eq_ok_iff fun _ _ _ => rawEntry_eq_ok_iff).mpr ⟨hall, rfl⟩
      rw [h] at this
      cases this
    simp [bind, Except.bind, hnot]
  | ok entries =>
    obtain ⟨hall, rfl⟩ := (mapM_eq_ok_iff fun _ _ _ => rawEntry_eq_ok_iff).mp h
    show Except.ok _ = Except.ok row ↔ _
    rw [Except.ok.injEq, and_iff_right hall, eq_comm]

theorem rawRow_eq_error_iff {v : Nat} (hv : v < offsets.size - 1) {err : NetworkError α} :
    rawRow offsets targets weights v = .error err ↔
      ∃ e, InRow offsets v e ∧ Refused (offsets.size - 1) targets weights v e err ∧
        ∀ e', InRow offsets v e' → e' < e → Passes (offsets.size - 1) targets weights v e' := by
  have hmap : rawRow offsets targets weights v = .error err ↔
      (List.range' (offsets.getD v 0) (offsets.getD (v + 1) 0 - offsets.getD v 0)).mapM
        (rawEntry (offsets.size - 1) targets weights v) = .error err := by
    unfold rawRow
    dsimp only
    cases (List.range' (offsets.getD v 0) (offsets.getD (v + 1) 0 - offsets.getD v 0)).mapM
      (rawEntry (offsets.size - 1) targets weights v) <;>
        simp [bind, Except.bind, pure, Except.pure]
  rw [hmap, mapM_eq_error_iff]
  constructor
  · rintro ⟨pre, e, post, hsplit, hpre, he⟩
    obtain ⟨k, hk, rfl, hpost⟩ := List.range'_eq_append_iff.mp hsplit
    -- what comes before the entry in the list are the smaller positions
    have hpos : e = offsets.getD v 0 + k := by
      rw [eq_comm, List.range'_eq_cons_iff] at hpost
      omega
    refine ⟨e, ?_, rawEntry_eq_error_iff.mp he, fun e' he' hlt => ?_⟩
    · rw [← mem_range'_iff hv, hsplit]
      simp
    · obtain ⟨x, hx⟩ := hpre e' (List.mem_range'_1.mpr ⟨he'.2.1, by omega⟩)
      exact (rawEntry_eq_ok_iff.mp hx).1
  · rintro ⟨e, he, hrefused, hbefore⟩
    obtain ⟨-, hlow, hhigh⟩ := he
    refine ⟨List.range' (offsets.getD v 0) (e - offsets.getD v 0), e,
      List.range' (e + 1) (offsets.getD (v + 1) 0 - (e + 1)), ?_, fun x hx => ?_,
      rawEntry_eq_error_iff.mpr hrefused⟩
    · rw [List.range'_eq_append_iff]
      refine ⟨e - offsets.getD v 0, by omega, rfl, ?_⟩
      rw [eq_comm, List.range'_eq_cons_iff]
      refine ⟨by omega, by omega, ?_⟩
      congr 1
      omega
    · rw [List.mem_range'_1] at hx
      exact ⟨_, rawEntry_eq_ok_iff.mpr ⟨hbefore x ⟨hv, by omega, by omega⟩ (by omega), rfl⟩⟩

omit [Weight α] in
theorem offsetsOrdered_iff : offsetsOrdered offsets = true ↔ StartsOrdered offsets := by
  unfold offsetsOrdered StartsOrdered
  rw [Bool.and_eq_true, beq_iff_eq, List.all_eq_true]
  refine and_congr Iff.rfl ⟨fun h v hv => ?_, fun h v hv => ?_⟩
  · simpa using h v (List.mem_range.mpr (by omega))
  · rw [List.mem_range] at hv
    simpa using h v (by omega)

/-- The shape is looked at before the entries. -/
theorem ofRaw_of_wellShaped (h : WellShaped offsets targets weights) :
    ofRaw offsets targets weights =
      ((List.range (offsets.size - 1)).mapM (rawRow offsets targets weights)).map
        fun rows => ⟨rows.toArray⟩ := by
  have hord := offsetsOrdered_iff.mpr h.ordered
  have hm : ¬ (targets.size < offsets.getD (offsets.size - 1) 0 ∨
      weights.size < offsets.getD (offsets.size - 1) 0) := by
    have := h.targets_le
    have := h.weights_le
    omega
  simp only [ofRaw, h.nonempty, hord, if_false, Bool.not_true, Bool.false_eq_true, bind,
    Except.bind, pure, Except.pure, Bool.or_eq_true, decide_eq_true_eq, hm]
  cases (List.range (offsets.size - 1)).mapM (rawRow offsets targets weights) <;> rfl

omit [Weight α] in
theorem exists_misshapen (h : ¬ WellShaped offsets targets weights) :
    ∃ err, Misshapen offsets targets weights err := by
  by_cases hsize : offsets.size = 0
  · exact ⟨_, Or.inl ⟨hsize, rfl⟩⟩
  · by_cases hord : StartsOrdered offsets
    · refine ⟨_, Or.inr (Or.inr ⟨hsize, hord, ?_, rfl⟩)⟩
      by_contra hm
      rw [not_or, Nat.not_lt, Nat.not_lt] at hm
      exact h ⟨hsize, hord, hm.1, hm.2⟩
    · exact ⟨_, Or.inr (Or.inl ⟨hsize, hord, rfl⟩)⟩

theorem ofRaw_of_misshapen {err : NetworkError α} (h : Misshapen offsets targets weights err) :
    ofRaw offsets targets weights = .error err := by
  rcases h with ⟨hsize, rfl⟩ | ⟨hsize, hord, rfl⟩ | ⟨hsize, hord, hm, rfl⟩
  · simp [ofRaw, hsize, bind, Except.bind, throw, throwThe, MonadExceptOf.throw]
  · rw [← offsetsOrdered_iff] at hord
    simp [ofRaw, hsize, hord, bind, Except.bind, throw, throwThe, MonadExceptOf.throw]
  · rw [← offsetsOrdered_iff] at hord
    simp only [ofRaw, hsize, hord, hm, if_false, Bool.not_true, Bool.false_eq_true, bind,
      Except.bind, pure, Except.pure, Bool.or_eq_true, decide_eq_true_eq, if_true, throw, throwThe,
      MonadExceptOf.throw]

omit [Weight α] in
theorem not_wellShaped_of_misshapen {err : NetworkError α}
    (h : Misshapen offsets targets weights err) : ¬ WellShaped offsets targets weights := by
  rintro ⟨hsize, hord, ht, hw⟩
  rcases h with ⟨h, -⟩ | ⟨-, h, -⟩ | ⟨-, -, h, -⟩
  · exact hsize h
  · exact h hord
  · omega

omit [Weight α] in
theorem WellShaped.offsets_mono (h : WellShaped offsets targets weights) {v v' : Nat}
    (hle : v ≤ v') (hv' : v' < offsets.size) : offsets.getD v 0 ≤ offsets.getD v' 0 := by
  induction v', hle using Nat.le_induction with
  | base => exact le_rfl
  | succ v' hle ih => exact (ih (by omega)).trans (h.ordered.2 v' hv')

omit [Weight α] in
/-- Later rows have larger positions. -/
theorem WellShaped.inRow_lt (h : WellShaped offsets targets weights) {v v' e e' : Nat}
    (he : InRow offsets v e) (he' : InRow offsets v' e') (hlt : v < v') : e < e' := by
  have := h.offsets_mono (show v + 1 ≤ v' from hlt) (by have := he'.1; omega)
  have := he.2.2
  have := he'.2.1
  omega

/-- The arrays are read if their shape is right and every entry passes, and then row by row. -/
theorem ofRaw_eq_ok_iff {r : Rows α} :
    ofRaw offsets targets weights = .ok r ↔
      WellShaped offsets targets weights ∧
        (∀ v e, InRow offsets v e → Passes (offsets.size - 1) targets weights v e) ∧
        r = ⟨((List.range (offsets.size - 1)).map (rowOf offsets targets weights)).toArray⟩ := by
  by_cases hshape : WellShaped offsets targets weights
  · have hrow : (∃ rows, (List.range (offsets.size - 1)).mapM (rawRow offsets targets weights) =
        .ok rows ∧ r = ⟨rows.toArray⟩) ↔ ofRaw offsets targets weights = .ok r := by
      rw [ofRaw_of_wellShaped hshape]
      cases (List.range (offsets.size - 1)).mapM (rawRow offsets targets weights) <;>
        simp [Except.map, eq_comm]
    have hrows : ∀ rows, (List.range (offsets.size - 1)).mapM (rawRow offsets targets weights) =
        .ok rows ↔ (∀ v ∈ List.range (offsets.size - 1), ∀ e, InRow offsets v e →
          Passes (offsets.size - 1) targets weights v e) ∧
          rows = (List.range (offsets.size - 1)).map (rowOf offsets targets weights) :=
      fun _ => mapM_eq_ok_iff fun v hv _ => rawRow_eq_ok_iff (List.mem_range.mp hv)
    rw [← hrow, and_iff_right hshape]
    constructor
    · rintro ⟨rows, h, rfl⟩
      obtain ⟨hpass, rfl⟩ := (hrows rows).mp h
      exact ⟨fun v e he => hpass v (List.mem_range.mpr he.1) e he, rfl⟩
    · rintro ⟨hpass, rfl⟩
      exact ⟨_, (hrows _).mpr ⟨fun v _ e he => hpass v e he, rfl⟩, rfl⟩
  · obtain ⟨err, herr⟩ := exists_misshapen hshape
    rw [ofRaw_of_misshapen herr]
    simp [hshape]

theorem range_eq_append_cons_iff {n v : Nat} {pre post : List Nat} :
    List.range n = pre ++ v :: post ↔
      v < n ∧ pre = List.range v ∧ post = List.range' (v + 1) (n - (v + 1)) := by
  rw [List.range_eq_range', List.range'_eq_append_iff]
  constructor
  · rintro ⟨k, hk, rfl, h⟩
    rw [eq_comm, List.range'_eq_cons_iff, Nat.zero_add, Nat.mul_one] at h
    obtain ⟨rfl, hpos, rfl⟩ := h
    rw [Nat.sub_sub]
    exact ⟨by omega, List.range_eq_range'.symm, rfl⟩
  · rintro ⟨hv, rfl, rfl⟩
    refine ⟨v, by omega, List.range_eq_range', ?_⟩
    rw [eq_comm, List.range'_eq_cons_iff]
    exact ⟨by omega, by omega, rfl⟩

/-- Otherwise the first thing wrong is reported, the shape before the entries. -/
theorem ofRaw_eq_error_iff {err : NetworkError α} :
    ofRaw offsets targets weights = .error err ↔
      Misshapen offsets targets weights err ∨
        WellShaped offsets targets weights ∧ ∃ v e, InRow offsets v e ∧
          Refused (offsets.size - 1) targets weights v e err ∧
          ∀ v' e', InRow offsets v' e' → e' < e →
            Passes (offsets.size - 1) targets weights v' e' := by
  by_cases hshape : WellShaped offsets targets weights
  · have hmis : ¬ Misshapen offsets targets weights err :=
      fun h => not_wellShaped_of_misshapen h hshape
    have hrow : ofRaw offsets targets weights = .error err ↔
        (List.range (offsets.size - 1)).mapM (rawRow offsets targets weights) = .error err := by
      rw [ofRaw_of_wellShaped hshape]
      cases (List.range (offsets.size - 1)).mapM (rawRow offsets targets weights) <;>
        simp [Except.map]
    rw [hrow, mapM_eq_error_iff, or_iff_right hmis, and_iff_right hshape]
    constructor
    · rintro ⟨pre, v, post, hsplit, hpre, hv⟩
      obtain ⟨hlt, rfl, -⟩ := range_eq_append_cons_iff.mp hsplit
      obtain ⟨e, he, hrefused, hbefore⟩ := (rawRow_eq_error_iff hlt).mp hv
      refine ⟨v, e, he, hrefused, fun v' e' he' hlt' => ?_⟩
      rcases lt_trichotomy v' v with h | rfl | h
      · obtain ⟨row, hrow⟩ := hpre v' (List.mem_range.mpr h)
        exact ((rawRow_eq_ok_iff he'.1).mp hrow).1 e' he'
      · exact hbefore e' he' hlt'
      · have := hshape.inRow_lt he he' h
        omega
    · rintro ⟨v, e, he, hrefused, hbefore⟩
      refine ⟨_, v, _, range_eq_append_cons_iff.mpr ⟨he.1, rfl, rfl⟩, fun v' hv' => ?_,
        (rawRow_eq_error_iff he.1).mpr ⟨e, he, hrefused, fun e' => hbefore v e'⟩⟩
      rw [List.mem_range] at hv'
      have hlt : v' < offsets.size - 1 := hv'.trans he.1
      exact ⟨_, (rawRow_eq_ok_iff hlt).mpr
        ⟨fun e' he' => hbefore v' e' he' (hshape.inRow_lt he' he hv'), rfl⟩⟩
  · obtain ⟨err', herr⟩ := exists_misshapen hshape
    rw [ofRaw_of_misshapen herr, Except.error.injEq]
    simp only [hshape, false_and, or_false]
    exact ⟨fun h => h ▸ herr, fun h => Except.error.inj
      ((ofRaw_of_misshapen herr).symm.trans (ofRaw_of_misshapen h))⟩

/-- `r` has the rows of the arrays. -/
structure Reads (offsets targets : Array Nat) (weights : Array α) (r : Rows α) : Prop where
  /-- Every offset but the last starts a row. -/
  nodeCount : r.nodeCount = offsets.size - 1
  /-- The rows fill the positions from zero on. -/
  laidOut : r.LaidOut
  /-- They lie where the offsets say. -/
  start : ∀ v, v < offsets.size → r.start v = offsets.getD v 0
  /-- The arcs of a row are its positions, each of them once. -/
  arcs : ∀ v, v < offsets.size - 1 → ((r.row v).map RowEntry.arc).Perm
    (List.range' (offsets.getD v 0) (offsets.getD (v + 1) 0 - offsets.getD v 0))
  /-- They are in order. -/
  sorted : ∀ v, (r.row v).Pairwise Before
  /-- The heads and costs of the entries are the targets and weights at their positions. -/
  entry : ∀ v, ∀ e ∈ r.row v, e.head = targets.getD e.arc 0 ∧ e.cost = weights.getD e.arc 0

theorem perm_rowOf (offsets targets : Array Nat) (weights : Array α) (v : Nat) :
    (rowOf offsets targets weights v).Perm ((List.range' (offsets.getD v 0)
      (offsets.getD (v + 1) 0 - offsets.getD v 0)).map (entryOf targets weights)) :=
  List.mergeSort_perm _ _

theorem map_arc_entryOf (targets : Array Nat) (weights : Array α) (es : List Nat) :
    (es.map (entryOf targets weights)).map RowEntry.arc = es := by
  simp [entryOf, Function.comp_def]

theorem perm_arcs_rowOf (offsets targets : Array Nat) (weights : Array α) (v : Nat) :
    ((rowOf offsets targets weights v).map RowEntry.arc).Perm
      (List.range' (offsets.getD v 0) (offsets.getD (v + 1) 0 - offsets.getD v 0)) := by
  have h := (perm_rowOf offsets targets weights v).map RowEntry.arc
  rwa [map_arc_entryOf] at h

/-- A row is in order. -/
theorem pairwise_before_rowOf (offsets targets : Array Nat) (weights : Array α) (v : Nat) :
    (rowOf offsets targets weights v).Pairwise Before := by
  apply pairwise_before_mergeSort
  rw [map_arc_entryOf]
  exact List.nodup_range'

theorem row_of_ofRaw {r : Rows α} (h : ofRaw offsets targets weights = .ok r) (v : Nat) :
    r.row v = if v < offsets.size - 1 then rowOf offsets targets weights v else [] := by
  obtain ⟨-, -, rfl⟩ := ofRaw_eq_ok_iff.mp h
  exact row_mk

/-- The entries of the rows have passed. -/
theorem mem_row_of_ofRaw {r : Rows α} (h : ofRaw offsets targets weights = .ok r) {v : Nat}
    {x : RowEntry α} (hx : x ∈ r.row v) :
    Passes (offsets.size - 1) targets weights v x.arc ∧ x = entryOf targets weights x.arc := by
  obtain ⟨-, hpass, -⟩ := ofRaw_eq_ok_iff.mp h
  rw [row_of_ofRaw h] at hx
  split at hx
  · next hv =>
    obtain ⟨e, he, rfl⟩ := List.mem_map.mp ((perm_rowOf ..).mem_iff.mp hx)
    exact ⟨hpass v e ((mem_range'_iff hv).mp he), rfl⟩
  · cases hx

theorem reads_of_ofRaw {r : Rows α} (h : ofRaw offsets targets weights = .ok r) :
    Reads offsets targets weights r := by
  obtain ⟨hshape, -, hr⟩ := ofRaw_eq_ok_iff.mp h
  refine ⟨by simp [hr, nodeCount], laidOut r, fun v hv => ?_, fun v hv => ?_, fun v => ?_,
    fun v e he => ?_⟩
  · induction v with
    | zero => exact hshape.ordered.1.symm
    | succ v ih =>
      have hlen := (perm_arcs_rowOf offsets targets weights v).length_eq
      rw [List.length_map, List.length_range'] at hlen
      rw [start_succ, ih (by omega), degree, row_of_ofRaw h, if_pos (by omega), hlen]
      have := hshape.ordered.2 v hv
      omega
  · rw [row_of_ofRaw h, if_pos hv]
    exact perm_arcs_rowOf offsets targets weights v
  · rw [row_of_ofRaw h]
    split
    · exact pairwise_before_rowOf offsets targets weights v
    · exact List.Pairwise.nil
  · obtain ⟨-, hentry⟩ := mem_row_of_ofRaw h he
    exact ⟨congrArg RowEntry.head hentry, congrArg RowEntry.cost hentry⟩

end Rows

end SteinerSearch
