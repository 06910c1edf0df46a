/-!
# Buffers

A buffer is an array of which only the first entries are in use.  An entry that falls
out of use keeps what was written last.

## Main definitions

* `Buffer.write` — writes an entry that is in use, or the first one after those.
-/

namespace SteinerSearch

namespace Buffer

variable {α β : Type}

/-- Writes `a` into entry `i`.  A buffer without this entry grows by one. -/
def write (as : Array α) (i : Nat) (a : α) : Array α :=
  if i < as.size then as.setIfInBounds i a else as.push a

theorem size_write {as : Array α} {i : Nat} (hi : i ≤ as.size) (a : α) :
    i + 1 ≤ (write as i a).size := by
  unfold write
  split
  · simp
    omega
  · simp
    omega

theorem getD_write_self {as : Array α} {i : Nat} (hi : i ≤ as.size) (a d : α) :
    (write as i a).getD i d = a := by
  unfold write
  split
  · next h => simp [h]
  · next h =>
    obtain rfl : i = as.size := by omega
    simp

theorem getD_write_of_ne {as : Array α} {i j : Nat} (hi : i ≤ as.size) (hj : j ≠ i) (a d : α) :
    (write as i a).getD j d = as.getD j d := by
  unfold write
  split
  · simp [hj.symm]
  · next h =>
    obtain rfl : i = as.size := by omega
    simp [Array.getElem?_push, hj]

theorem map_write (f : α → β) (as : Array α) (i : Nat) (a : α) :
    (write as i a).map f = write (as.map f) i (f a) := by
  unfold write
  rw [Array.size_map]
  split
  · exact Array.map_setIfInBounds ..
  · exact Array.map_push

end Buffer

end SteinerSearch
