import SteinerSearch.Json.Lexeme

/-!
# Skipping JSON values

A value that is not wanted is read for its form only.  Values may be nested to any
depth.

## Main definitions

* `Json.skipValue` — the text after a value.
-/

namespace SteinerSearch

namespace Json

mutual

/-- Skips a value, given fuel for every step. -/
def skipValueWith : Nat → List Char → Except JsonFault (List Char)
  | 0, _ => .error .unexpectedEnd
  | fuel + 1, cs =>
      match skipBlank cs with
      | [] => .error .unexpectedEnd
      | 'n' :: cs => (expectWord ['u', 'l', 'l'] cs).map Prod.snd
      | 't' :: cs => (expectWord ['r', 'u', 'e'] cs).map Prod.snd
      | 'f' :: cs => (expectWord ['a', 'l', 's', 'e'] cs).map Prod.snd
      | '-' :: cs => skipNumber cs
      | '"' :: cs => skipString cs
      | '[' :: cs => skipElements fuel true cs
      | '\x7b' :: cs => skipMembers fuel true cs
      | c :: cs => if c.isDigit then skipNumber (c :: cs) else .error .malformed

/-- Skips the rest of an array.  `first` says that no element was read yet. -/
def skipElements : Nat → Bool → List Char → Except JsonFault (List Char)
  | 0, _, _ => .error .unexpectedEnd
  | fuel + 1, first, cs =>
      match skipBlank cs with
      | [] => .error .unexpectedEnd
      | ']' :: cs => .ok cs
      | c :: cs =>
          if first then (skipValueWith fuel (c :: cs)).bind (skipElements fuel false)
          else if c = ',' then (skipValueWith fuel cs).bind (skipElements fuel false)
          else .error .malformed

/-- Skips the rest of an object.  `first` says that no member was read yet. -/
def skipMembers : Nat → Bool → List Char → Except JsonFault (List Char)
  | 0, _, _ => .error .unexpectedEnd
  | fuel + 1, first, cs =>
      match skipBlank cs with
      | [] => .error .unexpectedEnd
      | '\x7d' :: cs => .ok cs
      | c :: cs =>
          if first then (skipMember fuel (c :: cs)).bind (skipMembers fuel false)
          else if c = ',' then (skipMember fuel cs).bind (skipMembers fuel false)
          else .error .malformed

/-- Skips a member of an object: a key, a colon and a value. -/
def skipMember : Nat → List Char → Except JsonFault (List Char)
  | 0, _ => .error .unexpectedEnd
  | fuel + 1, cs =>
      match skipBlank cs with
      | [] => .error .unexpectedEnd
      | '"' :: cs =>
          (skipString cs).bind fun cs =>
            match skipBlank cs with
            | [] => .error .unexpectedEnd
            | ':' :: cs => skipValueWith fuel cs
            | _ => .error .malformed
      | _ => .error .malformed

end

/-- Skips a value.  A step either takes a character or is followed by one that
does, so three steps for each character are enough. -/
def skipValue (cs : List Char) : Except JsonFault (List Char) :=
  skipValueWith (3 * cs.length + 3) cs

end Json

end SteinerSearch
