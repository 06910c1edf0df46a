import SteinerSearch.Settings.Basic

/-!
# Printing settings

Settings are printed as a JSON object, one setting to a line in the order of
`Setting.all`, indented by two blanks.  An absent value is `null`.

## Main definitions

* `Settings.toJson` — the printed object.
-/

namespace SteinerSearch

namespace Settings

/-- The text of a value. -/
def valueText : Option UInt64 → String
  | some x => x.toNat.repr
  | none => "null"

/-- The line of a setting. -/
def line (c : Settings) (s : Setting) : String :=
  "  \"" ++ s.key ++ "\": " ++ valueText (c.get s)

/-- The settings as a JSON object. -/
def toJson (c : Settings) : String :=
  "\x7b\n" ++ ",\n".intercalate (Setting.all.map c.line) ++ "\n\x7d"

end Settings

end SteinerSearch
