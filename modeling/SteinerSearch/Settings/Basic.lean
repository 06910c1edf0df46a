import SteinerSearch.Json.Lexeme
import SteinerSearch.Text.Quoted

/-!
# Settings

The limits and sizes that the searches take from their environment.  Each setting
is a 64-bit word; the traversal budget may also be absent.

## Main definitions

* `Setting` — the names of the settings.
* `Settings` — a value for each of them, with `Settings.get` and `Settings.put`.
* `Settings.validate` — the settings that have to lie in a range do.
* `SettingsError` — why settings were refused, with `SettingsError.message`.
-/

namespace SteinerSearch

/-- The names of the settings, in the order in which they are listed. -/
inductive Setting where
  /-- The bound on the length of a trace. -/
  | traceCapacity
  /-- The arc scans of a walk search. -/
  | walkArcLimit
  /-- The arc scans of a star search. -/
  | starArcLimit
  /-- The arc scans of a traversal. -/
  | traversalBudget
  /-- The layers of nearest terminals. -/
  | terminalLayers
  /-- The rounds in which a tree is extended. -/
  | extensionRounds
  /-- The starts from which trees are grown. -/
  | treeStarts
  /-- The seed that orders the starts. -/
  | seed
  deriving DecidableEq, Repr

namespace Setting

/-- All settings in order. -/
def all : List Setting :=
  [traceCapacity, walkArcLimit, starArcLimit, traversalBudget, terminalLayers, extensionRounds,
    treeStarts, seed]

/-- The key of a setting in a JSON object. -/
def key : Setting → String
  | traceCapacity => "ancestor_capacity"
  | walkArcLimit => "sd_edge_limit"
  | starArcLimit => "star_edge_limit"
  | traversalBudget => "dijkstra_edge_budget"
  | terminalLayers => "terminal_layers"
  | extensionRounds => "extension_rounds"
  | treeStarts => "construction_starts"
  | seed => "seed"

/-- The environment variable of a setting. -/
def envName (s : Setting) : String := "STP_PATHS_" ++ s.key.toUpper

/-- The setting with a given key. -/
def ofKey? (k : String) : Option Setting := all.find? fun s => s.key = k

theorem mem_all (s : Setting) : s ∈ all := by cases s <;> decide

end Setting

/-- A value for every setting. -/
structure Settings where
  /-- The bound on the length of a trace. -/
  traceCapacity : UInt64 := 8
  /-- The arc scans of a walk search. -/
  walkArcLimit : UInt64 := 100
  /-- The arc scans of a star search. -/
  starArcLimit : UInt64 := 200
  /-- The arc scans of a traversal, if they are limited. -/
  traversalBudget : Option UInt64 := none
  /-- The layers of nearest terminals. -/
  terminalLayers : UInt64 := 3
  /-- The rounds in which a tree is extended. -/
  extensionRounds : UInt64 := 2
  /-- The starts from which trees are grown. -/
  treeStarts : UInt64 := 8
  /-- The seed that orders the starts. -/
  seed : UInt64 := 0
  deriving DecidableEq, Repr

namespace Settings

/-- The value of a setting; only the traversal budget can be absent. -/
def get (c : Settings) : Setting → Option UInt64
  | .traceCapacity => some c.traceCapacity
  | .walkArcLimit => some c.walkArcLimit
  | .starArcLimit => some c.starArcLimit
  | .traversalBudget => c.traversalBudget
  | .terminalLayers => some c.terminalLayers
  | .extensionRounds => some c.extensionRounds
  | .treeStarts => some c.treeStarts
  | .seed => some c.seed

/-- The settings with one of them changed.  The traversal budget can be made
absent; the others keep their value if none is given. -/
def put (c : Settings) (s : Setting) (value : Option UInt64) : Settings :=
  match s with
  | .traceCapacity => { c with traceCapacity := value.getD c.traceCapacity }
  | .walkArcLimit => { c with walkArcLimit := value.getD c.walkArcLimit }
  | .starArcLimit => { c with starArcLimit := value.getD c.starArcLimit }
  | .traversalBudget => { c with traversalBudget := value }
  | .terminalLayers => { c with terminalLayers := value.getD c.terminalLayers }
  | .extensionRounds => { c with extensionRounds := value.getD c.extensionRounds }
  | .treeStarts => { c with treeStarts := value.getD c.treeStarts }
  | .seed => { c with seed := value.getD c.seed }

end Settings

/-- Why settings were refused. -/
inductive SettingsError where
  /-- The JSON text is wrong. -/
  | json (fault : JsonFault)
  /-- The text `value` is no value for the setting that goes by `name`. -/
  | invalidValue (name value : String)
  deriving DecidableEq, Repr

namespace Settings

/-- The ranges that settings have to lie in, in the order in which they are
checked. -/
def ranges : List (Setting × Nat × Nat) :=
  [(.traceCapacity, 1, 64), (.terminalLayers, 1, 4), (.extensionRounds, 1, 2),
    (.treeStarts, 1, Nat.pow 2 64 - 1)]

/-- Refuses a setting outside its range. -/
def checkRange (c : Settings) (range : Setting × Nat × Nat) : Except SettingsError Unit :=
  let (s, low, high) := range
  match c.get s with
  | none => .ok ()
  | some x =>
      if low ≤ x.toNat ∧ x.toNat ≤ high then .ok ()
      else .error (.invalidValue s.key x.toNat.repr)

/-- Refuses settings outside their ranges. -/
def validate (c : Settings) : Except SettingsError Unit := ranges.forM c.checkRange

end Settings

/-- The text of a refusal for invalid values. -/
def SettingsError.message : SettingsError → String
  | .json _ => "invalid config JSON"
  | .invalidValue name value => "invalid value " ++ Text.quote value ++ " for " ++ name

end SteinerSearch
