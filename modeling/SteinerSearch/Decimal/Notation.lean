import SteinerSearch.Decimal.Shortest

/-!
# Positional notation

Weights are shown in positional notation with the fewest digits that read back:
never with an exponent, and without a point if the number is whole.

## Main definitions

* `Decimal.positional` — a decimal in positional notation.
* `Weight.text` — a weight as it is shown in messages.
-/

namespace SteinerSearch

namespace Decimal

/-- A decimal in positional notation. -/
def positional (d : Decimal) : List Char :=
  let digits := (Nat.toDigits 10 d.digits).reverse.dropWhile (· = '0')
  let exponent := d.exponent + ((Nat.toDigits 10 d.digits).length - digits.length : Nat)
  let digits := digits.reverse
  let point : Int := digits.length + exponent
  if point ≤ 0 then ['0', '.'] ++ List.replicate (-point).toNat '0' ++ digits
  else if (digits.length : Int) ≤ point then
    digits ++ List.replicate (point.toNat - digits.length) '0'
  else digits.take point.toNat ++ ['.'] ++ digits.drop point.toNat

end Decimal

/-- The number with the given bits, as it is shown in messages. -/
def Weight.textOfBits (bits : Nat) : List Char :=
  let sign := if bits / Nat.pow 2 63 = 1 then ['-'] else []
  let magnitude := bits % Nat.pow 2 63
  if 0x7ff0000000000000 < magnitude then ['N', 'a', 'N']
  else if magnitude = 0x7ff0000000000000 then sign ++ ['i', 'n', 'f']
  else if magnitude = 0 then sign ++ ['0']
  else sign ++ (Rounding.ofBits magnitude).shortest.positional

/-- A weight as it is shown in messages. -/
def Weight.text (x : Float) : String := String.ofList (Weight.textOfBits x.toBits.toNat)

end SteinerSearch
