/-!
# Weights

Arc costs, prizes and path lengths are all weights.  The searches only ask for
the few operations below, so they run on binary floating point and can be
studied over exact rationals.

Two weights are never compared bare: a difference within `Weight.tolerance` is
rounding, and must change neither an extraction order nor a deletion.

## Main definitions

* `Weight` — the arithmetic a search needs, with its two constants.
* `Weight.near`, `Weight.below`, `Weight.atMost`, `Weight.above`,
  `Weight.atLeast` — comparison up to the tolerance.
* `Weight.max`, `Weight.min` — bare extrema that pass over undefined values.
-/

namespace SteinerSearch

/-- The arithmetic of arc costs, prizes and path lengths. -/
class Weight (α : Type) extends Zero α, Add α, Sub α, Neg α, LT α, LE α where
  /-- Strict comparison is decided. -/
  decLt : DecidableLT α
  /-- Weak comparison is decided. -/
  decLe : DecidableLE α
  /-- Differences up to this size count as rounding. -/
  tolerance : α
  /-- The distance of a node that no path has reached. -/
  faraway : α
  /-- Whether a weight is a number that may enter a network. -/
  isFinite : α → Bool

instance (priority := low) Weight.decidableLt {α : Type} [Weight α] (a b : α) :
    Decidable (a < b) :=
  Weight.decLt a b

instance (priority := low) Weight.decidableLe {α : Type} [Weight α] (a b : α) :
    Decidable (a ≤ b) :=
  Weight.decLe a b

/-- Binary floating point, the arithmetic the searches run on. -/
instance : Weight Float where
  decLt := inferInstance
  decLe := inferInstance
  tolerance := 1e-9
  faraway := 1e15
  isFinite := Float.isFinite

/-- Exact arithmetic, with the same two constants. -/
instance : Weight Rat where
  toZero := Zero.ofOfNat0
  decLt := inferInstance
  decLe := inferInstance
  tolerance := 1 / 1000000000
  faraway := 1000000000000000
  isFinite _ := true

namespace Weight

variable {α : Type} [Weight α]

/-! ### Comparison up to the tolerance -/

/-- `a` and `b` differ by rounding only. -/
def near (a b : α) : Bool := -tolerance ≤ a - b && a - b ≤ tolerance

/-- `a` is smaller than `b`, and not by rounding. -/
def below (a b : α) : Bool := a - b < -tolerance

/-- `a` is at most `b`, up to rounding. -/
def atMost (a b : α) : Bool := a - b ≤ tolerance

/-- `a` is larger than `b`, and not by rounding. -/
def above (a b : α) : Bool := tolerance < a - b

/-- `a` is at least `b`, up to rounding. -/
def atLeast (a b : α) : Bool := -tolerance ≤ a - b

/-- `a` is zero up to rounding. -/
def negligible (a : α) : Bool := -tolerance ≤ a && a ≤ tolerance

/-- `a` is the distance of an unreached node, or beyond it. -/
def unreached (a : α) : Bool := faraway ≤ a

/-! ### Bare comparison -/

/-- `a` and `b` are the same number.  An undefined value is no number. -/
def same (a b : α) : Bool := a ≤ b && b ≤ a

/-- The larger of two weights; an undefined weight yields to the other. -/
def max (a b : α) : α := if a < b then b else if a ≤ a then a else b

/-- The smaller of two weights; an undefined weight yields to the other. -/
def min (a b : α) : α := if b < a then b else if a ≤ a then a else b

/-- Whether a network accepts `a` as a cost or a prize: it is a number, and not
a negative one. -/
def admissible (a : α) : Bool := isFinite a && !decide (a < 0)

/-- The sum of a list of weights, added from the left. -/
def sum (as : List α) : α := as.foldl (· + ·) 0

/-- The largest of a list of weights, and zero if none is positive. -/
def largest (as : List α) : α := as.foldl max 0

end Weight

end SteinerSearch
