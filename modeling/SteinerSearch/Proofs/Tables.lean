/-!
# Tables

The searches keep their data in arrays that are read with a default for the
numbers they have no entry for.  A write changes one entry and nothing else.
-/

namespace Array

variable {α : Type}

theorem getD_setIfInBounds_self {as : Array α} {i : Nat} (hi : i < as.size) (a d : α) :
    (as.setIfInBounds i a).getD i d = a := by
  simp [hi]

theorem getD_setIfInBounds_of_ne {as : Array α} {i j : Nat} (h : j ≠ i) (a d : α) :
    (as.setIfInBounds i a).getD j d = as.getD j d := by
  simp [h.symm]

/-- A write of the default, whether or not it is in bounds. -/
theorem getD_setIfInBounds_default (as : Array α) (i j : Nat) (d : α) :
    (as.setIfInBounds i d).getD j d = if j = i then d else as.getD j d := by
  by_cases h : j = i
  · rw [if_pos h, h]
    by_cases hi : i < as.size
    · exact getD_setIfInBounds_self hi d d
    · simp [hi]
  · rw [if_neg h, getD_setIfInBounds_of_ne h]

/-- Writing what an entry holds already changes nothing. -/
theorem setIfInBounds_eq_self {as : Array α} {i : Nat} {a : α} (h : as[i]? = some a) :
    as.setIfInBounds i a = as := by
  apply Array.ext_getElem?
  intro j
  rw [getElem?_setIfInBounds]
  split
  · next hij =>
    obtain ⟨hi, -⟩ := getElem?_eq_some_iff.mp h
    rw [if_pos hi, ← hij, h]
  · rfl

theorem getD_of_size_le {as : Array α} {i : Nat} (hi : as.size ≤ i) (d : α) : as.getD i d = d := by
  simp [hi]

theorem getD_replicate (n i : Nat) (d : α) : (Array.replicate n d).getD i d = d := by
  by_cases hi : i < n <;> simp [hi]

/-- Tables that say the same of every number are the same. -/
theorem ext_getD {as bs : Array α} (hsize : bs.size = as.size) (d : α)
    (h : ∀ i, bs.getD i d = as.getD i d) : bs = as := by
  refine Array.ext hsize fun i hb ha => ?_
  have hi := h i
  simpa only [Array.getD_eq_getD_getElem?, Array.getElem?_eq_getElem hb,
    Array.getElem?_eq_getElem ha, Option.getD_some] using hi

/-- Writes of the default at all entries of a list. -/
theorem getD_foldl_setIfInBounds (is : List Nat) (as : Array α) (j : Nat) (d : α) :
    (is.foldl (fun as i => as.setIfInBounds i d) as).getD j d =
      if j ∈ is then d else as.getD j d := by
  induction is generalizing as with
  | nil => simp
  | cons i is ih =>
    rw [List.foldl_cons, ih, getD_setIfInBounds_default]
    by_cases hj : j ∈ is
    · simp [hj]
    · by_cases hi : j = i <;> simp [hj, hi]

theorem size_foldl_setIfInBounds (is : List Nat) (as : Array α) (d : α) :
    (is.foldl (fun as i => as.setIfInBounds i d) as).size = as.size := by
  induction is generalizing as with
  | nil => rfl
  | cons i is ih => rw [List.foldl_cons, ih, size_setIfInBounds]

/-- Two tables have entries for the first `n` numbers, and say the same of every number. -/
structure Agree (n : Nat) (d : α) (as bs : Array α) : Prop where
  size : n ≤ as.size
  size' : n ≤ bs.size
  getD : ∀ i, bs.getD i d = as.getD i d

/-- The same write in both tables. -/
theorem Agree.set {n i : Nat} {d : α} {as bs : Array α} (h : Agree n d as bs) (hi : i < n)
    (a : α) : Agree n d (as.setIfInBounds i a) (bs.setIfInBounds i a) where
  size := by rw [size_setIfInBounds]; exact h.size
  size' := by rw [size_setIfInBounds]; exact h.size'
  getD j := by
    by_cases hj : j = i
    · rw [hj, getD_setIfInBounds_self (Nat.lt_of_lt_of_le hi h.size'),
        getD_setIfInBounds_self (Nat.lt_of_lt_of_le hi h.size)]
    · rw [getD_setIfInBounds_of_ne hj, getD_setIfInBounds_of_ne hj, h.getD]

end Array
