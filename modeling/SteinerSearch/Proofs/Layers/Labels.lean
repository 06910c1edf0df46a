import Mathlib.Data.List.Nodup
import Mathlib.Data.List.Perm.Subperm
import SteinerSearch.Layers.Basic
import SteinerSearch.Proofs.Comparison
import SteinerSearch.Proofs.Tables

/-!
# Labels in their slots

Layer `l` of node `v` has a slot of its own.  Only the first layer of a node that is not
filled, its open layer, is written to, and only to make its label lower; filling it
opens the next one.

## Main definitions

* `TerminalLayers.openSlot t v` — the slot of the open layer of `v`.
* `TerminalLayers.fill t v` — `t` with the open layer of `v` filled.
* `TerminalLayers.Lowered t x t'` — `t'` is `t` with a lower label in slot `x`, or `t`
  itself.
* `TerminalLayers.Layered t` — layers are filled from below, with different terminals.

## Main results

* `TerminalLayers.slot_injective` — no two layers share a slot.
* `TerminalLayers.lowered_setLabel` — writing a lower label.
* `TerminalLayers.Layered.setLabel`, `TerminalLayers.Layered.fill` — what keeps the layers
  in order.
* `TerminalLayers.Layered.exists_new` — more layers hold some other terminal.
-/

namespace SteinerSearch

namespace TerminalLayers

variable {α : Type}

/-! ### Slots -/

section Slots

variable {t : TerminalLayers α} {u v k l b : Nat}

theorem slot_zero : t.slot 0 v = v := by
  rw [slot, Nat.zero_mul, Nat.zero_add]

theorem slot_div (hv : v < t.nodeCount) : t.slot l v / t.nodeCount = l := by
  rw [slot, Nat.mul_comm, Nat.mul_add_div (by omega), Nat.div_eq_of_lt hv, Nat.add_zero]

theorem slot_mod (hv : v < t.nodeCount) : t.slot l v % t.nodeCount = v := by
  rw [slot, Nat.mul_comm, Nat.mul_add_mod, Nat.mod_eq_of_lt hv]

theorem slot_injective (hu : u < t.nodeCount) (hv : v < t.nodeCount)
    (h : t.slot k u = t.slot l v) : k = l ∧ u = v := by
  constructor
  · calc k = t.slot k u / t.nodeCount := (slot_div hu).symm
      _ = t.slot l v / t.nodeCount := by rw [h]
      _ = l := slot_div hv
  · calc u = t.slot k u % t.nodeCount := (slot_mod hu).symm
      _ = t.slot l v % t.nodeCount := by rw [h]
      _ = v := slot_mod hv

theorem slot_lt (hl : l < t.layers) (hv : v < t.nodeCount) :
    t.slot l v < t.layers * t.nodeCount := by
  calc t.slot l v < l * t.nodeCount + t.nodeCount := Nat.add_lt_add_left hv _
    _ = (l + 1) * t.nodeCount := (Nat.succ_mul l _).symm
    _ ≤ t.layers * t.nodeCount := Nat.mul_le_mul_right _ hl

/-- The slot of the open layer of `v`. -/
def openSlot (t : TerminalLayers α) (v : Nat) : Nat := t.slot (t.filledOf v) v

theorem slot_ne_openSlot (hu : u < t.nodeCount) (hv : v < t.nodeCount) (hl : l < t.filledOf u) :
    t.slot l u ≠ t.openSlot v := by
  intro h
  obtain ⟨rfl, rfl⟩ := slot_injective hu hv h
  exact absurd hl (lt_irrefl _)

theorem openSlot_injective (hu : u < t.nodeCount) (hv : v < t.nodeCount)
    (h : t.openSlot u = t.openSlot v) : u = v :=
  (slot_injective hu hv h).2

theorem holds_iff :
    t.holds v b = true ↔ ∃ l, l < t.filledOf v ∧ t.baseIn (t.slot l v) = some b := by
  simp [holds]

theorem not_holds_iff :
    t.holds v b = false ↔ ∀ l, l < t.filledOf v → t.baseIn (t.slot l v) ≠ some b := by
  rw [← Bool.not_eq_true, holds_iff]
  push Not
  rfl

end Slots

/-- All tables have their size. -/
structure Sized (t : TerminalLayers α) : Prop where
  dist : t.dist.size = t.layers * t.nodeCount
  base : t.base.size = t.layers * t.nodeCount
  filled : t.filled.size = t.nodeCount

theorem Sized.filledOf_eq_zero {t : TerminalLayers α} (h : t.Sized) {v : Nat}
    (hv : t.nodeCount ≤ v) : t.filledOf v = 0 :=
  Array.getD_of_size_le (by rwa [h.filled]) 0

/-- Only nodes of the network have filled layers. -/
theorem Sized.lt_nodeCount {t : TerminalLayers α} (h : t.Sized) {l v : Nat}
    (hl : l < t.filledOf v) : v < t.nodeCount := by
  by_contra hv
  rw [h.filledOf_eq_zero (Nat.le_of_not_lt hv)] at hl
  exact absurd hl (Nat.not_lt_zero l)

/-! ### Filling a layer -/

/-- The labels with the open layer of `v` filled. -/
def fill (t : TerminalLayers α) (v : Nat) : TerminalLayers α :=
  { t with filled := t.filled.setIfInBounds v (t.filledOf v + 1) }

section Fill

variable {t : TerminalLayers α} {u v : Nat}

@[simp] theorem slot_fill (l : Nat) : (t.fill v).slot l u = t.slot l u := rfl

@[simp] theorem baseIn_fill (x : Nat) : (t.fill v).baseIn x = t.baseIn x := rfl

theorem Sized.fill (h : t.Sized) : (t.fill v).Sized :=
  ⟨h.dist, h.base, Array.size_setIfInBounds.trans h.filled⟩

theorem filledOf_fill_self (h : t.Sized) (hv : v < t.nodeCount) :
    (t.fill v).filledOf v = t.filledOf v + 1 :=
  Array.getD_setIfInBounds_self (by rwa [h.filled]) _ _

theorem filledOf_fill_of_ne (hne : u ≠ v) : (t.fill v).filledOf u = t.filledOf u :=
  Array.getD_setIfInBounds_of_ne hne _ _

/-- One more layer is filled, the open layer of `v`. -/
theorem lt_filledOf_fill (h : t.Sized) (hv : v < t.nodeCount) {l : Nat} :
    l < (t.fill v).filledOf u ↔ l < t.filledOf u ∨ u = v ∧ l = t.filledOf v := by
  by_cases huv : u = v
  · rw [huv, filledOf_fill_self h hv, Nat.lt_succ_iff_lt_or_eq, and_iff_right rfl]
  · rw [filledOf_fill_of_ne huv]
    exact (or_iff_left fun h => huv h.1).symm

theorem filledOf_le_fill (h : t.Sized) (hv : v < t.nodeCount) :
    t.filledOf u ≤ (t.fill v).filledOf u :=
  Nat.le_of_not_lt fun hlt => lt_irrefl _ ((lt_filledOf_fill h hv).mpr (Or.inl hlt))

theorem openSlot_fill_of_ne (hne : u ≠ v) : (t.fill v).openSlot u = t.openSlot u := by
  rw [openSlot, filledOf_fill_of_ne hne, slot_fill, openSlot]

theorem holds_fill_of_ne (hne : u ≠ v) (b : Nat) : (t.fill v).holds u b = t.holds u b := by
  simp [holds, filledOf_fill_of_ne hne]

end Fill

/-! ### Writing a label -/

section SetLabel

variable {t : TerminalLayers α} {x y b : Nat} {d : α} {p : Option Nat}

theorem baseIn_setLabel_self (hx : x < t.base.size) : (t.setLabel x d b p).baseIn x = some b :=
  Array.getD_setIfInBounds_self hx _ _

theorem baseIn_setLabel_of_ne (hne : y ≠ x) : (t.setLabel x d b p).baseIn y = t.baseIn y :=
  Array.getD_setIfInBounds_of_ne hne _ _

theorem distIn_setLabel_self [Weight α] (hx : x < t.dist.size) :
    (t.setLabel x d b p).distIn x = d :=
  Array.getD_setIfInBounds_self hx _ _

theorem distIn_setLabel_of_ne [Weight α] (hne : y ≠ x) :
    (t.setLabel x d b p).distIn y = t.distIn y :=
  Array.getD_setIfInBounds_of_ne hne _ _

theorem Sized.setLabel (h : t.Sized) : (t.setLabel x d b p).Sized :=
  ⟨Array.size_setIfInBounds.trans h.dist, Array.size_setIfInBounds.trans h.base, h.filled⟩

/-- The labels with the label in slot `x` replaced if `d` is lower. -/
def improve [Weight α] (t : TerminalLayers α) (x : Nat) (d : α) (b : Nat) (p : Option Nat) :
    TerminalLayers α :=
  if Weight.below d (t.distIn x) then t.setLabel x d b p else t

end SetLabel

/-! ### Lower labels -/

/-- `t'` is `t` with a lower label in slot `x`, or `t` itself. -/
structure Lowered (t : TerminalLayers ℚ) (x : Nat) (t' : TerminalLayers ℚ) : Prop where
  nodeCount : t'.nodeCount = t.nodeCount
  layers : t'.layers = t.layers
  filled : t'.filled = t.filled
  /-- The labels of the other slots stay. -/
  base_ne : ∀ y, y ≠ x → t'.baseIn y = t.baseIn y
  dist_ne : ∀ y, y ≠ x → t'.distIn y = t.distIn y
  /-- So does the label of the slot, unless it gets lower. -/
  lower : (t'.baseIn x = t.baseIn x ∧ t'.distIn x = t.distIn x) ∨
    (t'.baseIn x).isSome ∧ t'.distIn x < t.distIn x

theorem lowered_setLabel {t : TerminalLayers ℚ} {x b : Nat} {d : ℚ} {p : Option Nat}
    (ht : t.Sized) (hx : x < t.layers * t.nodeCount) (hd : d < t.distIn x) :
    Lowered t x (t.setLabel x d b p) where
  nodeCount := rfl
  layers := rfl
  filled := rfl
  base_ne _ hy := baseIn_setLabel_of_ne hy
  dist_ne _ hy := distIn_setLabel_of_ne hy
  lower := by
    right
    rw [baseIn_setLabel_self (by rwa [ht.base]), distIn_setLabel_self (by rwa [ht.dist])]
    exact ⟨rfl, hd⟩

namespace Lowered

variable {t t' t'' : TerminalLayers ℚ} {x v b : Nat}

theorem refl (t : TerminalLayers ℚ) (x : Nat) : Lowered t x t :=
  ⟨rfl, rfl, rfl, fun _ _ => rfl, fun _ _ => rfl, Or.inl ⟨rfl, rfl⟩⟩

theorem trans (h : Lowered t x t') (h' : Lowered t' x t'') : Lowered t x t'' where
  nodeCount := h'.nodeCount.trans h.nodeCount
  layers := h'.layers.trans h.layers
  filled := h'.filled.trans h.filled
  base_ne y hy := (h'.base_ne y hy).trans (h.base_ne y hy)
  dist_ne y hy := (h'.dist_ne y hy).trans (h.dist_ne y hy)
  lower := by
    rcases h.lower with ⟨hb, hd⟩ | ⟨hb, hd⟩
    · rw [← hb, ← hd]
      exact h'.lower
    · right
      rcases h'.lower with ⟨hb', hd'⟩ | ⟨hb', hd'⟩
      · rw [hb', hd']
        exact ⟨hb, hd⟩
      · exact ⟨hb', hd'.trans hd⟩

theorem le (h : Lowered t x t') (y : Nat) : t'.distIn y ≤ t.distIn y := by
  by_cases hy : y = x
  · rw [hy]
    rcases h.lower with ⟨-, hd⟩ | ⟨-, hd⟩
    · exact hd.le
    · exact hd.le
  · exact (h.dist_ne y hy).le

theorem slot_eq (h : Lowered t x t') (l v : Nat) : t'.slot l v = t.slot l v := by
  rw [slot, h.nodeCount, slot]

theorem filledOf_eq (h : Lowered t x t') (v : Nat) : t'.filledOf v = t.filledOf v := by
  rw [filledOf, h.filled, filledOf]

theorem openSlot_eq (h : Lowered t x t') (v : Nat) : t'.openSlot v = t.openSlot v := by
  rw [openSlot, h.filledOf_eq, h.slot_eq, openSlot]

/-- A slot without a label had none before, and nothing has changed. -/
theorem unchanged (h : Lowered t x t') (hx : t'.baseIn x = none) (y : Nat) :
    t'.baseIn y = t.baseIn y ∧ t'.distIn y = t.distIn y := by
  by_cases hy : y = x
  · rw [hy]
    rcases h.lower with hsame | ⟨hb, -⟩
    · exact hsame
    · rw [hx] at hb
      cases hb
  · exact ⟨h.base_ne y hy, h.dist_ne y hy⟩

end Lowered

/-! ### Layers in order -/

/-- The layers of each node are filled from below, with different terminals. -/
structure Layered (t : TerminalLayers ℚ) : Prop where
  sized : t.Sized
  filled_le : ∀ v, t.filledOf v ≤ t.layers
  /-- A filled layer has a label. -/
  held : ∀ v l, l < t.filledOf v → ∃ b, t.baseIn (t.slot l v) = some b
  /-- A layer above the open one has none. -/
  above : ∀ v l, v < t.nodeCount → t.filledOf v < l → t.baseIn (t.slot l v) = none
  /-- The labels of a node lead to different terminals. -/
  distinct : ∀ v k l b, v < t.nodeCount → k < l → t.baseIn (t.slot k v) = some b →
    t.baseIn (t.slot l v) ≠ some b
  /-- No label, no distance. -/
  blank : ∀ x, t.baseIn x = none → t.distIn x = Weight.faraway
  reach : ∀ x, t.distIn x ≤ Weight.faraway
  whole : ∀ x, Weight.IsWhole (t.distIn x)

/-- The node `v` may still take the terminal `b`. -/
structure Vacant (t : TerminalLayers ℚ) (v b : Nat) : Prop where
  lt : v < t.nodeCount
  notFull : t.filledOf v < t.layers
  new : t.holds v b = false

section Layered

variable {t : TerminalLayers ℚ} {u v b : Nat} {d : ℚ}

theorem Vacant.openSlot_lt (h : t.Vacant v b) : t.openSlot v < t.layers * t.nodeCount :=
  slot_lt h.notFull h.lt

theorem Vacant.baseIn_setLabel (h : t.Vacant v b) (ht : t.Sized) (d : ℚ) (p : Option Nat) :
    (t.setLabel (t.openSlot v) d b p).baseIn (t.openSlot v) = some b :=
  baseIn_setLabel_self (by rw [ht.base]; exact h.openSlot_lt)

theorem Vacant.distIn_setLabel (h : t.Vacant v b) (ht : t.Sized) (d : ℚ) (p : Option Nat) :
    (t.setLabel (t.openSlot v) d b p).distIn (t.openSlot v) = d :=
  distIn_setLabel_self (by rw [ht.dist]; exact h.openSlot_lt)

/-- The layers below the open one are filled with other terminals, those above it are
empty. -/
theorem Layered.distinct_setLabel (h : Layered t) (hv : t.Vacant v b) (p : Option Nat)
    {k l c : Nat} (hu : u < t.nodeCount) (hkl : k < l)
    (hk : (t.setLabel (t.openSlot v) d b p).baseIn (t.slot k u) = some c) :
    (t.setLabel (t.openSlot v) d b p).baseIn (t.slot l u) ≠ some c := by
  intro hl
  by_cases hslot : t.slot l u = t.openSlot v
  · obtain ⟨rfl, rfl⟩ := slot_injective hu hv.lt hslot
    obtain rfl : b = c := Option.some.inj ((hv.baseIn_setLabel h.sized d p).symm.trans hl)
    rw [baseIn_setLabel_of_ne (slot_ne_openSlot hu hu hkl)] at hk
    exact not_holds_iff.mp hv.new k hkl hk
  · rw [baseIn_setLabel_of_ne hslot] at hl
    by_cases hslot' : t.slot k u = t.openSlot v
    · obtain ⟨rfl, rfl⟩ := slot_injective hu hv.lt hslot'
      rw [h.above u l hu hkl] at hl
      cases hl
    · rw [baseIn_setLabel_of_ne hslot'] at hk
      exact h.distinct u k l c hu hkl hk hl

/-- A new terminal may take the place of one in the open layer that is not as near. -/
theorem Layered.setLabel (h : Layered t) (hv : t.Vacant v b) (p : Option Nat)
    (hwhole : Weight.IsWhole d) (hd : d < t.distIn (t.openSlot v)) :
    Layered (t.setLabel (t.openSlot v) d b p) := by
  have hbase := hv.baseIn_setLabel h.sized d p
  have hdist := hv.distIn_setLabel h.sized d p
  refine ⟨h.sized.setLabel, h.filled_le, fun u l hl => ?_, fun u l hu hl => ?_,
    fun u k l c => h.distinct_setLabel hv p, fun x hx => ?_, fun x => ?_, fun x => ?_⟩
  · obtain ⟨c, hbc⟩ := h.held u l hl
    have hslot := slot_ne_openSlot (h.sized.lt_nodeCount hl) hv.lt hl
    exact ⟨c, (baseIn_setLabel_of_ne hslot).trans hbc⟩
  · have hslot : t.slot l u ≠ t.openSlot v := by
      intro heq
      obtain ⟨rfl, rfl⟩ := slot_injective hu hv.lt heq
      exact absurd hl (lt_irrefl _)
    exact (baseIn_setLabel_of_ne hslot).trans (h.above u l hu hl)
  · by_cases hslot : x = t.openSlot v
    · rw [hslot, hbase] at hx
      cases hx
    · rw [distIn_setLabel_of_ne hslot]
      exact h.blank x ((baseIn_setLabel_of_ne hslot).symm.trans hx)
  · by_cases hslot : x = t.openSlot v
    · rw [hslot, hdist]
      exact hd.le.trans (h.reach _)
    · rw [distIn_setLabel_of_ne hslot]
      exact h.reach x
  · by_cases hslot : x = t.openSlot v
    · rw [hslot, hdist]
      exact hwhole
    · rw [distIn_setLabel_of_ne hslot]
      exact h.whole x

/-- The open layer of `v` may be filled if it has a label. -/
theorem Layered.fill (h : Layered t) (hv : v < t.nodeCount) (hfull : t.filledOf v < t.layers)
    (hb : t.baseIn (t.openSlot v) = some b) : Layered (t.fill v) := by
  refine ⟨h.sized.fill, fun u => ?_, fun u l hl => ?_, fun u l hu hl => ?_, h.distinct, h.blank,
    h.reach, h.whole⟩
  · by_cases huv : u = v
    · rw [huv, filledOf_fill_self h.sized hv]
      exact hfull
    · rw [filledOf_fill_of_ne huv]
      exact h.filled_le u
  · rcases (lt_filledOf_fill h.sized hv).mp hl with hl | ⟨rfl, rfl⟩
    · exact h.held u l hl
    · exact ⟨b, hb⟩
  · exact h.above u l hu (lt_of_le_of_lt (filledOf_le_fill h.sized hv) hl)

/-- The terminals that the filled layers of `v` hold. -/
def basesOf (t : TerminalLayers ℚ) (v : Nat) : List (Option Nat) :=
  (List.range (t.filledOf v)).map fun l => t.baseIn (t.slot l v)

theorem length_basesOf : (t.basesOf v).length = t.filledOf v := by
  simp [basesOf]

theorem mem_basesOf : some b ∈ t.basesOf v ↔ t.holds v b = true := by
  simp [basesOf, holds_iff]

theorem Layered.nodup_basesOf (h : Layered t) (v : Nat) : (t.basesOf v).Nodup := by
  refine List.Nodup.map_on (fun k hk l hl heq => ?_) List.nodup_range
  rw [List.mem_range] at hk hl
  have hv := h.sized.lt_nodeCount hl
  obtain ⟨b, hb⟩ := h.held v k hk
  rcases Nat.lt_trichotomy k l with hkl | hkl | hkl
  · exact absurd (heq ▸ hb) (h.distinct v k l b hv hkl hb)
  · exact hkl
  · exact absurd hb (h.distinct v l k b hv hkl (heq ▸ hb))

/-- A node with more filled layers than another has a label that is new there. -/
theorem Layered.exists_new (h : Layered t) (hlt : t.filledOf v < t.filledOf u) :
    ∃ l b, l < t.filledOf u ∧ t.baseIn (t.slot l u) = some b ∧ t.holds v b = false := by
  by_contra hno
  push Not at hno
  -- else the labels of `u` are among the fewer ones of `v`
  have hsub : t.basesOf u ⊆ t.basesOf v := by
    intro o ho
    obtain ⟨l, hl, rfl⟩ := List.mem_map.mp ho
    obtain ⟨b, hb⟩ := h.held u l (List.mem_range.mp hl)
    rw [hb, mem_basesOf, ← Bool.not_eq_false]
    exact hno l b (List.mem_range.mp hl) hb
  have hlen := (List.subperm_of_subset (h.nodup_basesOf u) hsub).length_le
  rw [length_basesOf, length_basesOf] at hlen
  omega

end Layered

end TerminalLayers

end SteinerSearch
