import Mathlib.Algebra.Order.Field.Rat
import Mathlib.Tactic.Linarith
import Mathlib.Tactic.NormNum
import SteinerSearch.Weight

/-!
# Exact comparison

Over the rationals the comparisons up to the tolerance agree with the bare ones
as soon as two weights are equal or further apart than the tolerance.  Whole
numbers are.

## Main definitions

* `Weight.Apart a b` — `a` and `b` are equal, or differ by more than rounding.
* `Weight.IsWhole a` — `a` is a natural number.
* `Weight.IsFar d`, `Weight.LooksFar d` — `d` is the distance of an unreached node, or cannot
  be told from it.
* `Weight.Ordered α` — what a search relies on when it compares two distances.

## Main results

* `Weight.below_iff`, `Weight.above_iff`, `Weight.atMost_iff`, `Weight.atLeast_iff` —
  exact comparison of weights that are apart.
* `Weight.IsWhole.apart` — whole weights are apart.
-/

namespace SteinerSearch.Weight

/-- `a` and `b` are equal, or differ by more than rounding. -/
def Apart (a b : ℚ) : Prop := a = b ∨ (tolerance : ℚ) < |a - b|

/-- `a` is a natural number. -/
def IsWhole (a : ℚ) : Prop := ∃ n : ℕ, a = n

/-! ### The distance of an unreached node -/

section Far

variable {α : Type} [Weight α]

/-- `d` is the distance of an unreached node. -/
def IsFar (d : α) : Prop := d = faraway

/-- No comparison tells `d` from the distance of an unreached node. -/
def LooksFar (d : α) : Prop := same d faraway = true

theorem isFar_faraway : IsFar (faraway : α) := rfl

theorem looksFar_faraway : LooksFar (faraway : ℚ) := by simp [LooksFar, same]

/-- Among rationals only one looks like it. -/
theorem looksFar_rat {d : ℚ} : LooksFar d ↔ d = faraway := by
  simp only [LooksFar, same, Bool.and_eq_true, decide_eq_true_eq]
  exact le_antisymm_iff.symm

/-- What a search relies on when it compares two distances.  A distance may be undefined, which is
at most nothing, not even at most itself; the two that a search starts with are not, and no
undefined one is below another. -/
structure Ordered (α : Type) [Weight α] : Prop where
  zero : (0 : α) ≤ 0
  faraway : (faraway : α) ≤ faraway
  trans : ∀ a b c : α, a ≤ b → b ≤ c → a ≤ c
  below : ∀ a b : α, below a b = true → a ≤ a ∧ a ≤ b

theorem Ordered.looksFar_faraway (h : Ordered α) : LooksFar (Weight.faraway : α) := by
  simp [LooksFar, same, h.faraway]

/-- What looks like the distance of an unreached node is defined. -/
theorem Ordered.le_self_of_looksFar (h : Ordered α) {d : α} (hd : LooksFar d) : d ≤ d := by
  simp only [LooksFar, same, Bool.and_eq_true, decide_eq_true_eq] at hd
  exact h.trans _ _ _ hd.1 hd.2

end Far

/-! ### The operations on rationals -/

theorem tolerance_rat : (tolerance : ℚ) = 1 / 1000000000 := rfl

theorem faraway_rat : (faraway : ℚ) = 1000000000000000 := rfl

theorem tolerance_pos : (0 : ℚ) < tolerance := by
  rw [tolerance_rat]; norm_num

theorem faraway_pos : (0 : ℚ) < faraway := by
  rw [faraway_rat]; norm_num

theorem below_rat {a b : ℚ} : below a b = true ↔ a - b < -tolerance := by
  simp only [below, decide_eq_true_eq]

/-- All rationals are defined. -/
theorem ordered_rat : Ordered ℚ where
  zero := le_rfl
  faraway := le_rfl
  trans _ _ _ := le_trans
  below a b h := by
    have htol := tolerance_pos
    rw [below_rat] at h
    exact ⟨le_rfl, by linarith⟩

theorem above_rat {a b : ℚ} : above a b = true ↔ tolerance < a - b := by
  simp only [above, decide_eq_true_eq]

theorem above_eq_false_iff {a b : ℚ} : above a b = false ↔ a - b ≤ tolerance := by
  rw [Bool.eq_false_iff, Ne, above_rat, not_lt]

theorem atMost_rat {a b : ℚ} : atMost a b = true ↔ a - b ≤ tolerance := by
  simp only [atMost, decide_eq_true_eq]

theorem atLeast_rat {a b : ℚ} : atLeast a b = true ↔ -tolerance ≤ a - b := by
  simp only [atLeast, decide_eq_true_eq]

/-- Rationals are all defined, so none yields to another. -/
theorem max_rat {a b : ℚ} : Weight.max a b = a ⊔ b := by
  unfold Weight.max
  split
  · next h => exact (sup_of_le_right h.le).symm
  · next h => rw [if_pos le_rfl, sup_of_le_left (not_lt.mp h)]

theorem min_rat {a b : ℚ} : Weight.min a b = a ⊓ b := by
  unfold Weight.min
  split
  · next h => exact (inf_of_le_right h.le).symm
  · next h => rw [if_pos le_rfl, inf_of_le_left (not_lt.mp h)]

/-- No weight of a list is larger than its largest one. -/
theorem le_largest {as : List ℚ} {a : ℚ} (ha : a ∈ as) : a ≤ largest as := by
  have hfold : ∀ (as : List ℚ) (b : ℚ), b ≤ as.foldl Weight.max b ∧
      ∀ a ∈ as, a ≤ as.foldl Weight.max b := by
    intro as
    induction as with
    | nil => exact fun b => ⟨le_rfl, fun a ha => absurd ha List.not_mem_nil⟩
    | cons x as ih =>
      intro b
      obtain ⟨hle, hmem⟩ := ih (Weight.max b x)
      have hleft : b ≤ Weight.max b x := max_rat ▸ le_sup_left
      have hright : x ≤ Weight.max b x := max_rat ▸ le_sup_right
      refine ⟨hleft.trans hle, fun a ha => ?_⟩
      rcases List.mem_cons.mp ha with rfl | ha
      · exact hright.trans hle
      · exact hmem a ha
  exact (hfold as 0).2 a ha

/-- What is above a bound stays above it when it grows. -/
theorem above_mono {a b c : ℚ} (hab : a ≤ b) (h : above a c = true) : above b c = true := by
  rw [above_rat] at h ⊢
  linarith

/-! ### Weights that are apart -/

theorem Apart.symm {a b : ℚ} (h : Apart a b) : Apart b a := by
  rcases h with rfl | h
  · exact Or.inl rfl
  · right
    rwa [abs_sub_comm]

theorem below_iff {a b : ℚ} (h : Apart a b) : below a b = true ↔ a < b := by
  have htol := tolerance_pos
  rw [below_rat]
  constructor
  · intro hlt
    linarith
  · intro hlt
    rcases h with rfl | h
    · exact absurd hlt (lt_irrefl _)
    · rw [abs_of_neg (by linarith)] at h
      linarith

/-- Comparing two weights that are apart tells which of them is not the larger one. -/
theorem Apart.ordered {a b : ℚ} (h : Apart a b) :
    if below a b = true then a ≤ b else b ≤ a := by
  have hbelow := below_iff h
  split
  · next hb => exact (hbelow.mp hb).le
  · next hb => exact not_lt.mp (mt hbelow.mpr hb)

theorem above_iff {a b : ℚ} (h : Apart a b) : above a b = true ↔ b < a := by
  have heq : above a b = true ↔ below b a = true := by
    rw [above_rat, below_rat]
    constructor <;> intro h <;> linarith
  rw [heq, below_iff h.symm]

theorem atMost_iff {a b : ℚ} (h : Apart a b) : atMost a b = true ↔ a ≤ b := by
  have heq : atMost a b = true ↔ ¬ above a b = true := by
    rw [above_rat, atMost_rat, not_lt]
  rw [heq, above_iff h, not_lt]

theorem atLeast_iff {a b : ℚ} (h : Apart a b) : atLeast a b = true ↔ b ≤ a := by
  have heq : atLeast a b = true ↔ ¬ below a b = true := by
    rw [below_rat, atLeast_rat, not_lt]
  rw [heq, below_iff h, not_lt]

/-- What is at least a bound stays so when it grows. -/
theorem atLeast_mono {a b c : ℚ} (hab : a ≤ b) (h : atLeast a c = true) :
    atLeast b c = true := by
  rw [atLeast_rat] at h ⊢
  linarith

/-! ### Whole weights -/

theorem isWhole_zero : IsWhole 0 := ⟨0, by norm_num⟩

theorem isWhole_faraway : IsWhole faraway := ⟨1000000000000000, by rw [faraway_rat]; norm_num⟩

theorem IsWhole.add {a b : ℚ} (ha : IsWhole a) (hb : IsWhole b) : IsWhole (a + b) := by
  obtain ⟨m, rfl⟩ := ha
  obtain ⟨n, rfl⟩ := hb
  exact ⟨m + n, by push_cast; rfl⟩

theorem IsWhole.sub {a b : ℚ} (ha : IsWhole a) (hb : IsWhole b) (hle : b ≤ a) :
    IsWhole (a - b) := by
  obtain ⟨m, rfl⟩ := ha
  obtain ⟨n, rfl⟩ := hb
  have hmn : n ≤ m := by exact_mod_cast hle
  exact ⟨m - n, (Nat.cast_sub hmn).symm⟩

theorem IsWhole.nonneg {a : ℚ} (ha : IsWhole a) : 0 ≤ a := by
  obtain ⟨n, rfl⟩ := ha
  exact Nat.cast_nonneg n

/-- Of two whole weights the lower one is lower by one. -/
theorem IsWhole.add_one_le {a b : ℚ} (ha : IsWhole a) (hb : IsWhole b) (hlt : a < b) :
    a + 1 ≤ b := by
  obtain ⟨m, rfl⟩ := ha
  obtain ⟨n, rfl⟩ := hb
  exact_mod_cast hlt

/-- Different whole weights are at least one apart, which is more than rounding. -/
theorem IsWhole.apart {a b : ℚ} (ha : IsWhole a) (hb : IsWhole b) : Apart a b := by
  obtain ⟨m, rfl⟩ := ha
  obtain ⟨n, rfl⟩ := hb
  have htol : (tolerance : ℚ) < 1 := by rw [tolerance_rat]; norm_num
  rcases lt_trichotomy m n with h | rfl | h
  · have h' : (m : ℚ) + 1 ≤ n := by exact_mod_cast h
    right
    rw [abs_of_neg (by linarith)]
    linarith
  · exact Or.inl rfl
  · have h' : (n : ℚ) + 1 ≤ m := by exact_mod_cast h
    right
    rw [abs_of_pos (by linarith)]
    linarith

/-- Whole weights have no infinite descent, so one of them is the least. -/
theorem exists_least_of_isWhole {ι : Type} {P : ι → Prop} {f : ι → ℚ}
    (hf : ∀ i, P i → IsWhole (f i)) {i : ι} (hi : P i) : ∃ i, P i ∧ ∀ j, P j → f i ≤ f j := by
  have hex : ∃ n : ℕ, ∃ i, P i ∧ f i = n := by
    obtain ⟨n, hn⟩ := hf i hi
    exact ⟨n, i, hi, hn⟩
  classical
  obtain ⟨j, hj, hlen⟩ := Nat.find_spec hex
  refine ⟨j, hj, fun k hk => ?_⟩
  obtain ⟨m, hm⟩ := hf k hk
  rw [hlen, hm]
  exact_mod_cast Nat.find_min' hex ⟨k, hk, hm⟩

end SteinerSearch.Weight
