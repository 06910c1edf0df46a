import SteinerSearch.Settings.Basic
import SteinerSearch.Text.Blank

/-!
# Settings from environment variables

Every setting may be given by an environment variable.  The value is a decimal
number of at most 64 bits; blanks around it and one plus sign before it are
ignored.  A variable that is not set leaves the default.

Variables are looked at in the order of `Setting.all`, and the ranges only after
all of them.

## Main definitions

* `Settings.ofEnvironment` — the settings that variables give.
-/

namespace SteinerSearch

namespace Settings

/-- The value of decimal digits, if it has at most 64 bits. -/
def wordOfDigits? (cs : List Char) : Option UInt64 :=
  if cs.isEmpty || !cs.all Char.isDigit then none
  else
    let n := cs.foldl (fun n c => n * 10 + (c.toNat - '0'.toNat)) 0
    if n < Nat.pow 2 64 then some (UInt64.ofNat n) else none

/-- The value of the text of a variable. -/
def wordOfText? (text : String) : Option UInt64 :=
  match Text.trim text.toList with
  | '+' :: cs => wordOfDigits? cs
  | cs => wordOfDigits? cs

/-- Takes a setting from its variable, if that is set. -/
def readVariable (lookup : String → Option String) (c : Settings) (s : Setting) :
    Except SettingsError Settings :=
  match lookup s.envName with
  | none => .ok c
  | some text =>
      match wordOfText? text with
      | some x => .ok (c.put s (some x))
      | none => .error (.invalidValue s.envName text)

/-- The settings that the variables found by `lookup` give. -/
def ofEnvironment (lookup : String → Option String) : Except SettingsError Settings := do
  let c ← Setting.all.foldlM (readVariable lookup) {}
  c.validate
  return c

end Settings

end SteinerSearch
