import SteinerSearch.Random.Generator

/-!
# Shuffling

A list is shuffled from its end: every element, the last one first, changes places
with one that is drawn from those up to and including itself.

## Main definitions

* `Generator.shuffle` — the shuffled list.

## Main results

* `Generator.shuffle_perm` — a shuffled list has the same elements.
-/

namespace SteinerSearch

namespace Generator

/-- Tries allowed for each draw. -/
def maxTries : Nat := 1024

/-- Shuffles the first `k + 1` elements. -/
def shuffleFrom {β : Type} : Nat → Array β → Generator → Array β
  | 0, xs, _ => xs
  | k + 1, xs, g =>
      let (r, g) := below (k + 2) maxTries g
      shuffleFrom k (xs.swapIfInBounds (k + 1) r) g

/-- Shuffles a list. -/
def shuffle {β : Type} (xs : List β) (g : Generator) : List β :=
  (shuffleFrom (xs.length - 1) xs.toArray g).toList

theorem shuffleFrom_perm {β : Type} (k : Nat) (xs : Array β) (g : Generator) :
    (shuffleFrom k xs g).Perm xs := by
  induction k generalizing xs g with
  | zero => exact .rfl
  | succ k ih =>
    refine (ih _ _).trans ?_
    unfold Array.swapIfInBounds
    split
    · split
      · exact Array.swap_perm ..
      · exact .rfl
    · exact .rfl

theorem shuffle_perm {β : Type} (xs : List β) (g : Generator) : (shuffle xs g).Perm xs := by
  have h := Array.perm_iff_toList_perm.mp (shuffleFrom_perm (xs.length - 1) xs.toArray g)
  simpa [shuffle] using h

end Generator

end SteinerSearch
