/-!
# The fewest digits that read back

A binary floating-point number stands for all real numbers that round to it.  Its
shortest decimal is, among the decimals in that interval with the fewest digits,
the one nearest to the number; of two equally near ones the larger is taken.

All arithmetic is exact: the number and the ends of its interval are fractions
with one common denominator.

## Main definitions

* `Decimal` — digits with a power of ten.
* `Rounding` — a number with its interval.
* `Rounding.shortest` — the shortest decimal.
* `Rounding.ofBits` — the finite number with the given bits, without its sign.
-/

namespace SteinerSearch

/-- The number `digits * 10 ^ exponent`. -/
structure Decimal where
  /-- The digits, as one number. -/
  digits : Nat
  /-- The power of ten of the last digit. -/
  exponent : Int
  deriving DecidableEq, Repr

/-- A positive number with the interval of the reals that round to it; all three are
numerators over `den`. -/
structure Rounding where
  /-- The number. -/
  value : Nat
  /-- The lower end of the interval. -/
  low : Nat
  /-- The upper end of the interval. -/
  high : Nat
  /-- The common denominator. -/
  den : Nat
  /-- Whether the interval contains its ends. -/
  closed : Bool
  deriving DecidableEq, Repr

namespace Rounding

/-- Ten to the power `g`, as a fraction. -/
def powerOfTen (g : Int) : Nat × Nat :=
  if 0 ≤ g then (Nat.pow 10 g.toNat, 1) else (1, Nat.pow 10 (-g).toNat)

/-- Whether `c * 10 ^ g` rounds to the number. -/
def admits (r : Rounding) (g : Int) (c : Nat) : Bool :=
  let (up, down) := powerOfTen g
  let x := c * up * r.den
  if r.closed then r.low * down ≤ x && x ≤ r.high * down
  else r.low * down < x && x < r.high * down

/-- The point of the grid `10 ^ g` that the number is to be shown as, if one of its
two neighbours on the grid rounds to it. -/
def onGrid (r : Rounding) (g : Int) : Option Nat :=
  let (up, down) := powerOfTen g
  let unit := up * r.den
  let c := r.value * down / unit
  let rest := r.value * down % unit
  -- if both neighbours read back, the nearer one is shown, and of a tie the larger
  match r.admits g c, r.admits g (c + 1) with
  | true, true => some (if 2 * rest < unit then c else c + 1)
  | true, false => some c
  | false, true => some (c + 1)
  | false, false => none

/-- The number of digits of the whole part. -/
def wholeDigits (r : Rounding) : Nat := (Nat.toDigits 10 (r.value / r.den)).length

/-- For a number below one, the number of zeros after its point, found in at most
`fuel` steps. -/
def leadingZeros (r : Rounding) : Nat → Nat → Nat
  | 0, zeros => zeros
  | fuel + 1, zeros =>
      if r.den ≤ r.value * Nat.pow 10 (zeros + 1) then zeros else leadingZeros r fuel (zeros + 1)

/-- The power of ten just above the number.  No number of double precision has more
than 324 zeros after its point. -/
def magnitude (r : Rounding) : Int :=
  if r.den ≤ r.value then r.wholeDigits else -(r.leadingZeros 400 0 : Int)

/-- The shortest decimal, tried with `count` digits and then with more. -/
def search (r : Rounding) (magnitude : Int) : Nat → Nat → Decimal
  | 0, count =>
      let g := magnitude - count
      let (up, down) := powerOfTen g
      ⟨r.value * down / (up * r.den), g⟩
  | fuel + 1, count =>
      let g := magnitude - count
      match r.onGrid g with
      | some c => ⟨c, g⟩
      | none => search r magnitude fuel (count + 1)

/-- The shortest decimal.  Seventeen digits are always enough. -/
def shortest (r : Rounding) : Decimal := r.search r.magnitude 17 1

/-! ### Bits -/

/-- The number `4 * m * 2 ^ q` with its interval from `4 * m - below` to
`4 * m + 2`, in the same unit. -/
def ofParts (m below : Nat) (q : Int) (closed : Bool) : Rounding :=
  let up := Nat.pow 2 q.toNat
  let down := Nat.pow 2 (-q).toNat
  ⟨4 * m * up, (4 * m - below) * up, (4 * m + 2) * up, down, closed⟩

/-- The positive finite number with the given bits.  The gap below a power of two is
half of the gap above it. -/
def ofBits (bits : Nat) : Rounding :=
  let biased : Nat := bits / Nat.pow 2 52 % Nat.pow 2 11
  let fraction : Nat := bits % Nat.pow 2 52
  if biased = 0 then ofParts fraction 2 (-1076) true
  else
    let m := Nat.pow 2 52 + fraction
    ofParts m (if fraction = 0 then 1 else 2) ((biased : Int) - 1077) (m % 2 = 0)

end Rounding

end SteinerSearch
