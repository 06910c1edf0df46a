/-!
# Lexemes of JSON

Readers of the smallest parts of a JSON text: blanks, words, strings and numbers.
A reader takes the characters that are left and answers what it read and what is
left then, or the first thing that is wrong.

## Main definitions

* `JsonFault` — the three ways in which a text can be wrong.
* `Json.skipBlank`, `Json.expectWord`, `Json.readString` — blanks, words and strings.
* `Json.Number`, `Json.readNumber` — numbers, read for their value.
* `Json.skipNumber` — numbers, read only for their form.
-/

namespace SteinerSearch

/-- How a JSON text is wrong. -/
inductive JsonFault where
  /-- The text ends early. -/
  | unexpectedEnd
  /-- The text is not JSON. -/
  | malformed
  /-- The text is JSON, but not of the expected shape. -/
  | mismatched
  deriving DecidableEq, Repr

namespace Json

/-- A reader of `β`. -/
abbrev Reader (β : Type) := List Char → Except JsonFault (β × List Char)

/-- Drops blanks in front. -/
def skipBlank : List Char → List Char
  | [] => []
  | c :: cs => if c = ' ' ∨ c = '\n' ∨ c = '\t' ∨ c = '\r' then skipBlank cs else c :: cs

/-- Reads the given characters. -/
def expectWord : List Char → Reader Unit
  | [], cs => .ok ((), cs)
  | _ :: _, [] => .error .unexpectedEnd
  | w :: word, c :: cs => if w = c then expectWord word cs else .error .malformed

/-! ### Strings -/

/-- The value of a hexadecimal digit. -/
def hexValue? (c : Char) : Option Nat :=
  if '0' ≤ c ∧ c ≤ '9' then some (c.toNat - '0'.toNat)
  else if 'a' ≤ c ∧ c ≤ 'f' then some (c.toNat - 'a'.toNat + 10)
  else if 'A' ≤ c ∧ c ≤ 'F' then some (c.toNat - 'A'.toNat + 10)
  else none

/-- The character that a backslash and `c` stand for, where `c` is not `u`. -/
def escaped? (c : Char) : Option Char :=
  match c with
  | '"' => some '"'
  | '\\' => some '\\'
  | '/' => some '/'
  | 'b' => some '\x08'
  | 'f' => some '\x0c'
  | 'n' => some '\n'
  | 'r' => some '\r'
  | 't' => some '\t'
  | _ => none

/-- Where a reader stands inside a string. -/
inductive StringPlace where
  /-- Between characters. -/
  | plain
  /-- After a backslash. -/
  | escape
  /-- Before `left` more hexadecimal digits of a number whose digits so far have
  the value `value`; `high?` is the first half of a surrogate pair. -/
  | digits (high? : Option Nat) (left value : Nat)
  /-- After the first half of a surrogate pair. -/
  | lowEscape (high : Nat)
  /-- After the first half of a surrogate pair and a backslash. -/
  | lowMark (high : Nat)
  deriving DecidableEq, Repr

/-- The number of bytes of a text. -/
def byteCount (cs : List Char) : Nat := cs.foldl (fun n c => n + c.utf8Size) 0

/-- Whether the surrogates in a string have to form pairs. -/
inductive Surrogates where
  /-- The string is used, so they have to. -/
  | paired
  /-- The string is skipped, so they need not. -/
  | unchecked
  deriving DecidableEq, Repr

/-- The place after the last digit of a number `n`, and the character that is
complete then. -/
def completeEscape (mode : Surrogates) (high? : Option Nat) (n : Nat) :
    Except JsonFault (StringPlace × Option Char) :=
  match mode, high? with
  | .unchecked, _ => .ok (.plain, none)
  | .paired, none =>
      if 0xDC00 ≤ n ∧ n ≤ 0xDFFF then .error .malformed
      else if 0xD800 ≤ n ∧ n ≤ 0xDBFF then .ok (.lowEscape n, none)
      else .ok (.plain, some (Char.ofNat n))
  | .paired, some high =>
      if 0xDC00 ≤ n ∧ n ≤ 0xDFFF then
        .ok (.plain, some (Char.ofNat (0x10000 + (high - 0xD800) * 0x400 + (n - 0xDC00))))
      else .error .malformed

/-- The place after `u`.  Its four digits must be there in full, and that is looked
at before the digits themselves. -/
def startDigits (high? : Option Nat) (rest : List Char) : Except JsonFault StringPlace :=
  if byteCount rest < 4 then .error .unexpectedEnd else .ok (.digits high? 4 0)

/-- What one character `c` does to a string: the new place and a character that is
complete, or the end of the string.  `rest` is the text after `c`. -/
def stringStep (mode : Surrogates) (place : StringPlace) (c : Char) (rest : List Char) :
    Except JsonFault (Option (StringPlace × Option Char)) :=
  match place with
  | .plain =>
      if c = '"' then .ok none
      else if c = '\\' then .ok (some (.escape, none))
      else if c.toNat < 0x20 then .error .malformed
      else .ok (some (.plain, some c))
  | .escape =>
      if c = 'u' then (startDigits none rest).map fun place => some (place, none)
      else
        match escaped? c with
        | some x => .ok (some (.plain, some x))
        | none => .error .malformed
  | .digits high? left value =>
      match hexValue? c with
      | none => .error .malformed
      | some d =>
          let value := value * 16 + d
          if left ≤ 1 then (completeEscape mode high? value).map some
          else .ok (some (.digits high? (left - 1) value, none))
  | .lowEscape high => if c = '\\' then .ok (some (.lowMark high, none)) else .error .malformed
  | .lowMark high =>
      if c = 'u' then (startDigits (some high) rest).map fun place => some (place, none)
      else .error .malformed

/-- Reads a string from a place inside it. -/
def readStringFrom (mode : Surrogates) : StringPlace → Reader (List Char)
  | _, [] => .error .unexpectedEnd
  | place, c :: cs =>
      match stringStep mode place c cs with
      | .error e => .error e
      | .ok none => .ok ([], cs)
      | .ok (some (place, done?)) =>
          (readStringFrom mode place cs).map fun (text, rest) => (done?.toList ++ text, rest)

/-- Reads a string after its opening quote. -/
def readString : Reader (List Char) := readStringFrom .paired .plain

/-- Skips a string after its opening quote. -/
def skipString (cs : List Char) : Except JsonFault (List Char) :=
  (readStringFrom .unchecked .plain cs).map Prod.snd

/-! ### Numbers -/

/-- The value of a decimal digit. -/
def digitValue (c : Char) : Nat := c.toNat - '0'.toNat

/-- The digits in front. -/
def digitsOf (cs : List Char) : List Char := cs.takeWhile Char.isDigit

/-- What follows the digits in front. -/
def afterDigits (cs : List Char) : List Char := cs.dropWhile Char.isDigit

/-- What a number is, as far as it matters for reading natural numbers. -/
inductive Number where
  /-- A natural number of at most 64 bits, written as digits only. -/
  | natural (n : Nat)
  /-- Some other number. -/
  | other
  deriving DecidableEq, Repr

/-- The number that digits stand for. -/
def valueOf (digits : List Char) : Nat := digits.foldl (fun n c => n * 10 + digitValue c) 0

/-- The number that the digits of a whole number stand for, if it has at most 64 bits.
No such number has more than twenty digits. -/
def wordOf? (digits : List Char) : Option Nat :=
  if digits.length ≤ 20 ∧ valueOf digits < Nat.pow 2 64 then some (valueOf digits) else none

/-- The least number too large for a double: half a unit in the last place beyond the
largest one.  It has 309 digits. -/
def doubleLimit : Nat := Nat.pow 2 1024 - Nat.pow 2 970

/-- Whether digits times a power of ten are too large for a double.  That hangs on the
place of the first digit other than zero; only if the number has as many places before its
point as the limit, its whole part is compared. -/
def tooLarge (digits : List Char) (exponent : Int) : Bool :=
  let digits := digits.dropWhile (· = '0')
  let places : Int := digits.length + exponent
  if digits.isEmpty || places < 309 then false
  else if 309 < places then true
  else
    let whole := digits.take 309
    doubleLimit ≤ valueOf whole * Nat.pow 10 (309 - whole.length)

/-- A number that is no 64-bit natural number, refused if it is too large. -/
def otherNumber (digits : List Char) (exponent : Int) (rest : List Char) :
    Except JsonFault (Number × List Char) :=
  if tooLarge digits exponent then .error .malformed else .ok (.other, rest)

/-- Reads an exponent after `e`.  `scale` is the power of ten of the last of `digits`. -/
def readExponent (digits : List Char) (scale : Int) (cs : List Char) :
    Except JsonFault (Number × List Char) :=
  let (negative, cs) :=
    match cs with
    | '+' :: cs => (false, cs)
    | '-' :: cs => (true, cs)
    | cs => (false, cs)
  match digitsOf cs with
  | [] => .error (if cs.isEmpty then .unexpectedEnd else .malformed)
  | exponent =>
      let e : Int := valueOf exponent
      otherNumber digits (if negative then scale - e else scale + e) (afterDigits cs)

/-- Reads a fraction after the point, for a number whose whole part has the given digits. -/
def readFraction (whole cs : List Char) : Except JsonFault (Number × List Char) :=
  match digitsOf cs with
  | [] => .error (if cs.isEmpty then .unexpectedEnd else .malformed)
  | fraction =>
      let scale : Int := -fraction.length
      match afterDigits cs with
      | 'e' :: rest | 'E' :: rest => readExponent (whole ++ fraction) scale rest
      | rest => otherNumber (whole ++ fraction) scale rest

/-- Reads what follows the digits of a whole number.  `negative` says whether a minus sign
stands in front. -/
def readTail (negative : Bool) (whole cs : List Char) : Except JsonFault (Number × List Char) :=
  match cs with
  | '.' :: rest => readFraction whole rest
  | 'e' :: rest | 'E' :: rest => readExponent whole 0 rest
  | rest =>
      match negative, wordOf? whole with
      | false, some n => .ok (.natural n, rest)
      -- not even a negative zero is a natural number
      | _, _ => otherNumber whole 0 rest

/-- Reads a number after its sign. -/
def readNumber (negative : Bool) (cs : List Char) : Except JsonFault (Number × List Char) :=
  match digitsOf cs with
  | [] => .error (if cs.isEmpty then .unexpectedEnd else .malformed)
  | '0' :: _ :: _ => .error .malformed
  | whole => readTail negative whole (afterDigits cs)

/-! ### Skipping numbers -/

/-- Skips an exponent after `e`. -/
def skipExponent (cs : List Char) : Except JsonFault (List Char) :=
  let cs :=
    match cs with
    | '+' :: cs | '-' :: cs => cs
    | cs => cs
  match digitsOf cs with
  | [] => .error .malformed
  | _ => .ok (afterDigits cs)

/-- Skips an exponent, if there is one. -/
def skipExponent? (cs : List Char) : Except JsonFault (List Char) :=
  match cs with
  | 'e' :: rest | 'E' :: rest => skipExponent rest
  | rest => .ok rest

/-- Skips a number after its sign. -/
def skipNumber (cs : List Char) : Except JsonFault (List Char) :=
  match digitsOf cs with
  | [] => .error .malformed
  | '0' :: _ :: _ => .error .malformed
  | _ =>
      match afterDigits cs with
      | '.' :: rest =>
          match digitsOf rest with
          | [] => .error .malformed
          | _ => skipExponent? (afterDigits rest)
      | rest => skipExponent? rest

end Json

end SteinerSearch
