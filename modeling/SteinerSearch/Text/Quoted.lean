import SteinerSearch.Text.Combining
import SteinerSearch.Text.Unprintable

/-!
# Quoted texts

A text is quoted for a reader: between double quotes, with quotes and backslashes
escaped, and with every character that would not show replaced by its code point.

## Main definitions

* `Text.escapeChar` — how one character is shown.
* `Text.quote` — how a text is shown.
-/

namespace SteinerSearch

namespace Text

/-- The lowercase hexadecimal digits of a number. -/
def hexDigits (n : Nat) : List Char := Nat.toDigits 16 n

/-- The code point of a character, as it is shown in place of the character. -/
def codePoint (c : Char) : List Char :=
  ['\\', 'u', '\x7b'] ++ hexDigits c.toNat ++ ['\x7d']

/-- How a character is shown. -/
def escapeChar (c : Char) : List Char :=
  match c with
  | '\x00' => ['\\', '0']
  | '\t' => ['\\', 't']
  | '\r' => ['\\', 'r']
  | '\n' => ['\\', 'n']
  | '"' => ['\\', '"']
  | '\\' => ['\\', '\\']
  | c => if isCombining c || isUnprintable c then codePoint c else [c]

/-- How a text is shown. -/
def quote (text : String) : String :=
  String.ofList (['"'] ++ text.toList.flatMap escapeChar ++ ['"'])

end Text

end SteinerSearch
