import SteinerSearch.Json.Skipping
import SteinerSearch.Settings.Basic

/-!
# Reading settings

Settings are read from a JSON text.  An object gives settings by key; unknown keys
are skipped, settings that are not mentioned keep their default, and none may be
mentioned twice.  An array gives settings by position, from the first on.  Values
are natural numbers of at most 64 bits, written as digits only; the traversal
budget may be `null`.

Of several faults the one met first is reported.

## Main definitions

* `Settings.ofJson` — the settings of a text, or why they are refused.
-/

namespace SteinerSearch

namespace Settings

open Json

/-! ### Values -/

/-- The fault of a value that is no number: a value of another form, well-formed as
far as it has to be read to tell. -/
def otherValueFault (cs : List Char) : JsonFault :=
  let mismatchAfter {β : Type} (r : Except JsonFault β) : JsonFault :=
    match r with
    | .ok _ => .mismatched
    | .error e => e
  match cs with
  | [] => .malformed
  | 'n' :: cs => mismatchAfter (expectWord ['u', 'l', 'l'] cs)
  | 't' :: cs => mismatchAfter (expectWord ['r', 'u', 'e'] cs)
  | 'f' :: cs => mismatchAfter (expectWord ['a', 'l', 's', 'e'] cs)
  | '-' :: cs => mismatchAfter (readNumber true cs)
  | '"' :: cs => mismatchAfter (readString cs)
  | '[' :: _ | '\x7b' :: _ => .mismatched
  | c :: cs => if c.isDigit then mismatchAfter (readNumber false (c :: cs)) else .malformed

/-- A number as a 64-bit word. -/
def wordOf : Number × List Char → Except JsonFault (UInt64 × List Char)
  | (.natural n, rest) => .ok (UInt64.ofNat n, rest)
  | (.other, _) => .error .mismatched

/-- Reads a 64-bit word. -/
def readWord : Reader UInt64 := fun cs =>
  match skipBlank cs with
  | [] => .error .unexpectedEnd
  | '-' :: cs => (readNumber true cs).bind wordOf
  | c :: cs =>
      if c.isDigit then (readNumber false (c :: cs)).bind wordOf
      else .error (otherValueFault (c :: cs))

/-- Reads a 64-bit word or `null`. -/
def readWord? : Reader (Option UInt64) := fun cs =>
  match skipBlank cs with
  | 'n' :: cs => (expectWord ['u', 'l', 'l'] cs).map fun (_, rest) => (none, rest)
  | cs => (readWord cs).map fun (x, rest) => (some x, rest)

/-- Reads the value of a setting into `c`. -/
def readValue (c : Settings) (s : Setting) : Reader Settings := fun cs =>
  match s with
  | .traversalBudget => (readWord? cs).map fun (x, rest) => (c.put s x, rest)
  | _ => (readWord cs).map fun (x, rest) => (c.put s (some x), rest)

/-! ### Arrays -/

/-- Reads the end of an array that has a value for every setting. -/
def readArrayEnd (cs : List Char) : Except JsonFault (List Char) :=
  match skipBlank cs with
  | [] => .error .unexpectedEnd
  | ']' :: rest => .ok rest
  | _ => .error .malformed

/-- Reads the rest of an array, for the settings in the list.  `first` says that no
value was read yet. -/
def readArray : List Setting → Bool → Settings → Reader Settings
  | [], _, c, cs => (readArrayEnd cs).map fun rest => (c, rest)
  | s :: settings, first, c, cs =>
      match skipBlank cs with
      | [] => .error .unexpectedEnd
      | ']' :: rest => .ok (c, rest)
      | x :: xs =>
          if first then
            (readValue c s (x :: xs)).bind fun (c, rest) => readArray settings false c rest
          else if x = ',' then
            -- a comma announces a value
            match skipBlank xs with
            | [] => .error .unexpectedEnd
            | ']' :: _ => .error .malformed
            | xs => (readValue c s xs).bind fun (c, rest) => readArray settings false c rest
          else .error .malformed

/-! ### Objects -/

/-- Reads the value of a member of an object, after its key. -/
def readMemberValue (c : Settings) (s? : Option Setting) (cs : List Char) :
    Except JsonFault (Settings × List Char) :=
  match skipBlank cs with
  | [] => .error .unexpectedEnd
  | ':' :: rest =>
      match s? with
      | some s => readValue c s rest
      | none => (skipValue rest).map fun rest => (c, rest)
  | _ => .error .malformed

/-- The settings read so far, and which of them were mentioned. -/
structure Mentioned where
  /-- The settings. -/
  settings : Settings
  /-- The settings that were mentioned. -/
  seen : List Setting

/-- Reads a member of an object, after the opening quote of its key.  A setting that
is mentioned again is a fault at once. -/
def readMember (m : Mentioned) (cs : List Char) : Except JsonFault (Mentioned × List Char) :=
  (readString cs).bind fun (key, rest) =>
    let s? := Setting.ofKey? (String.ofList key)
    if s?.any fun s => m.seen.contains s then .error .mismatched
    else
      (readMemberValue m.settings s? rest).map fun (c, rest) =>
        (⟨c, s?.toList ++ m.seen⟩, rest)

/-- Reads the rest of an object, with fuel for every member.  `first` says that no
member was read yet. -/
def readObject : Nat → Bool → Mentioned → Reader Settings
  | 0, _, _, _ => .error .unexpectedEnd
  | fuel + 1, first, m, cs =>
      match skipBlank cs with
      | [] => .error .unexpectedEnd
      | '\x7d' :: rest => .ok (m.settings, rest)
      | x :: xs =>
          if first then
            if x = '"' then (readMember m xs).bind fun (m, rest) => readObject fuel false m rest
            else .error .malformed
          else if x = ',' then
            match skipBlank xs with
            | [] => .error .unexpectedEnd
            | '"' :: xs => (readMember m xs).bind fun (m, rest) => readObject fuel false m rest
            | _ => .error .malformed
          else .error .malformed

/-! ### Texts -/

/-- Reads settings.  A member takes at least one character, so a member for each
character is enough. -/
def readSettings : Reader Settings := fun cs =>
  match skipBlank cs with
  | [] => .error .unexpectedEnd
  | '[' :: cs => readArray Setting.all true {} cs
  | '\x7b' :: cs => readObject (cs.length + 1) true ⟨{}, []⟩ cs
  | cs => .error (otherValueFault cs)

/-- The settings of a text that holds nothing else. -/
def parse (text : String) : Except JsonFault Settings :=
  (readSettings text.toList).bind fun (c, rest) =>
    if (skipBlank rest).isEmpty then .ok c else .error .malformed

/-- The valid settings of a text. -/
def ofJson (text : String) : Except SettingsError Settings := do
  let c ← (parse text).mapError .json
  c.validate
  return c

end Settings

end SteinerSearch
