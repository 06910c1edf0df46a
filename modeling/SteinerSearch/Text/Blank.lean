/-!
# Blank characters

The characters with the Unicode property `White_Space`.

## Main definitions

* `Text.isBlank` — the property.
* `Text.trim` — a text without blanks at its ends.
-/

namespace SteinerSearch

namespace Text

/-- The blocks of code points with the property `White_Space`, each from its first
to its last. -/
def blankBlocks : List (Nat × Nat) :=
  [(0x9, 0xD), (0x20, 0x20), (0x85, 0x85), (0xA0, 0xA0), (0x1680, 0x1680), (0x2000, 0x200A),
    (0x2028, 0x2029), (0x202F, 0x202F), (0x205F, 0x205F), (0x3000, 0x3000)]

/-- Whether a character is blank. -/
def isBlank (c : Char) : Bool :=
  blankBlocks.any fun (first, last) => first ≤ c.toNat && c.toNat ≤ last

/-- A text without the blanks at both ends. -/
def trim (cs : List Char) : List Char :=
  ((cs.dropWhile isBlank).reverse.dropWhile isBlank).reverse

end Text

end SteinerSearch
