/-!
# A pseudorandom generator

The generator keeps four words of state and mixes them with shifts, rotations and
exclusive or (`xoshiro256++`).  A seed is spread over the four words by a linear
congruential sequence with a permuted output.  Equal seeds give equal sequences.

## Main definitions

* `Generator` — the state.
* `Generator.ofSeed` — the state for a seed.
* `Generator.next64`, `Generator.next32` — the next number and the next state.
* `Generator.below` — a number below a bound, without bias.
-/

namespace SteinerSearch

/-- The state of the generator. -/
structure Generator where
  /-- The first word. -/
  s0 : UInt64
  /-- The second word. -/
  s1 : UInt64
  /-- The third word. -/
  s2 : UInt64
  /-- The fourth word. -/
  s3 : UInt64
  deriving DecidableEq, Repr

namespace Generator

/-- Rotates the bits of `x` to the left by `k`, for `0 < k < 64`. -/
def rotateLeft (x k : UInt64) : UInt64 := (x <<< k) ||| (x >>> (64 - k))

/-! ### Seeding -/

/-- The next state of the seeding sequence. -/
def nextSeed (s : UInt64) : UInt64 := s * 6364136223846793005 + 11634580027462260723

/-- The output of the seeding sequence in state `s`: the low 32 bits of the mixed
state, rotated to the right by its five highest bits. -/
def seedWord (s : UInt64) : UInt64 :=
  let x := (((s >>> 18) ^^^ s) >>> 27) &&& 0xffffffff
  let k := s >>> 59
  -- a rotation by zero must not shift by the whole width
  ((x >>> k) ||| (x <<< ((32 - k) &&& 31))) &&& 0xffffffff

/-- Two successive outputs of the seeding sequence as one word, the first one low,
and the state behind them. -/
def seedPair (s : UInt64) : UInt64 × UInt64 :=
  let low := nextSeed s
  let high := nextSeed low
  (seedWord low ||| (seedWord high <<< 32), high)

/-- The state for a seed. -/
def ofSeed (seed : UInt64) : Generator :=
  let (s0, s) := seedPair seed
  let (s1, s) := seedPair s
  let (s2, s) := seedPair s
  let (s3, _) := seedPair s
  ⟨s0, s1, s2, s3⟩

/-! ### Numbers -/

/-- The next 64-bit number. -/
def next64 (g : Generator) : UInt64 × Generator :=
  let result := rotateLeft (g.s0 + g.s3) 23 + g.s0
  let t := g.s1 <<< 17
  let s2 := g.s2 ^^^ g.s0
  let s3 := g.s3 ^^^ g.s1
  let s1 := g.s1 ^^^ s2
  let s0 := g.s0 ^^^ s3
  (result, ⟨s0, s1, s2 ^^^ t, rotateLeft s3 45⟩)

/-- The next 32-bit number: the high half of a 64-bit number. -/
def next32 (g : Generator) : Nat × Generator :=
  let (x, g) := g.next64
  ((x >>> 32).toNat, g)

/-- The largest low half that `below` accepts for `range`: the greatest multiple
of `range` by a power of two that fits 32 bits, less one. -/
def zone (range : Nat) : Nat := range * Nat.pow 2 (31 - Nat.log2 range) - 1

/-- A number below `range`, for `0 < range < 2 ^ 32`.  A 32-bit number times `range` is
split into two halves; the high half is the answer if the low half is in the zone,
otherwise the next number is tried.  Each try succeeds at least every second time,
and after `fuel` failures the answer is zero. -/
def below (range : Nat) : Nat → Generator → Nat × Generator
  | 0, g => (0, g)
  | fuel + 1, g =>
      let (x, g) := g.next32
      let product := x * range
      if product % Nat.pow 2 32 ≤ zone range then (product / Nat.pow 2 32, g)
      else below range fuel g

end Generator

end SteinerSearch
