import SteinerSearch.Network.Rows
import SteinerSearch.Star.Bias
import SteinerSearch.Star.Space
import SteinerSearch.Stepping

/-!
# Star search

A star search looks at the arcs that leave one node, the center, and tells which
of them can be replaced by paths that are no longer.  Every neighbour starts at
the cost of its arc and is its own *base*; a node further out inherits the base
of the node it was reached from.  The search keeps within the largest cost of an
arc of the center and never enters the center.

When a path from base `b` reaches an unsettled neighbour `m ≠ b` and is no longer
than the arc to `m`, that arc is deletable.  Only arcs to unsettled neighbours are
reported, so of two tied arcs the one settled later is reported.

## Main definitions

* `StarSearch` — the center, its row and the rules.
* `StarSearch.runInto`, `StarSearch.run` — the search, with a buffer for its reports or without.
-/

namespace SteinerSearch

/-- A star search. -/
structure StarSearch (α : Type) where
  /-- The rows of the network. -/
  rows : Rows α
  /-- The profits of nodes, if any. -/
  bias : Option (Bias α)
  /-- The node whose arcs are looked at. -/
  center : Nat
  /-- The number of arc scans that are allowed. -/
  arcLimit : Nat

namespace StarSearch

variable {α : Type} [Weight α]

/-- The state of a star search. -/
structure State (α : Type) where
  /-- The tables. -/
  space : StarSpace α
  /-- Which arcs of the center are deletable. -/
  deletable : Array Bool
  /-- How many arcs of the center are settled or deletable. -/
  decided : Nat
  /-- Whether some arc is deletable. -/
  found : Bool
  /-- Arcs scanned so far. -/
  scanned : Nat

omit [Weight α] in
/-- Reports the arc at place `i` of the center's row as deletable. -/
def State.delete (s : State α) (i : Nat) : State α :=
  { s with
    deletable := s.deletable.setIfInBounds i true
    decided := s.decided + 1
    found := true }

omit [Weight α] in
/-- Whether the arc at place `i` was reported. -/
def State.isDeletable (s : State α) (i : Nat) : Bool := s.deletable.getD i false

omit [Weight α] in
/-- The row of the center. -/
def centerRow (t : StarSearch α) : List (RowEntry α) := t.rows.row t.center

/-- The largest cost of an arc of the center. -/
def radius (t : StarSearch α) : α := Weight.largest (t.centerRow.map RowEntry.cost)

/-- Starts the search at the entry at place `i` of the center's row.  Of parallel
arcs the cheaper one is kept, the other is redundant. -/
def seed (t : StarSearch α) (s : State α) (entry : RowEntry α × Nat) : State α :=
  let (e, i) := entry
  let m := e.head
  let s :=
    match s.space.slotOf m with
    | none => { s with space := (s.space.label m e.cost m t.center).setSlot m i }
    | some j =>
        if Weight.atMost (s.space.distOf m) e.cost then s.delete i
        else
          -- the later arc is cheaper and takes the place of the earlier one
          let s := s.delete j
          { s with space := (s.space.setSlot m i).setDist m e.cost }
  { s with space := s.space.enqueue m (s.space.distOf m) }

/-- What the arc from `k` to `m` gets off its cost. -/
def discount (t : StarSearch α) (k m : Nat) (came? : Option Nat) (cost : α) : α :=
  match t.bias with
  | some bias => bias.discount k m came? cost
  | none => 0

/-- Whether a path of length `d` from base `base?` replaces the arc to `m`, which
has place `i` in the center's row. -/
def replaces (t : StarSearch α) (s : State α) (base? : Option Nat) (m i : Nat) (d : α) : Bool :=
  base? ≠ some m && !s.isDeletable i &&
    match t.centerRow[i]? with
    | some e => Weight.atMost d e.cost
    | none => false

/-- Reports the arc to `m` if a path of length `d` from base `base?` replaces it. -/
def report (t : StarSearch α) (base? : Option Nat) (m : Nat) (d : α) (s : State α) : State α :=
  match s.space.slotOf m with
  | some i => if t.replaces s base? m i d then s.delete i else s
  | none => s

/-- Labels `m` with the path of length `d` that came from `k`, if it is shorter
than the path known so far. -/
def improve (k : Nat) (base? : Option Nat) (m : Nat) (d : α) (w : StarSpace α) : StarSpace α :=
  if Weight.below d (w.distOf m) then (w.label m d (base?.getD k) k).enqueue m d else w

/-- Scans an arc out of `k`, which was settled at distance `dist` with base
`base?` from `came?`. -/
def scan (t : StarSearch α) (k : Nat) (dist : α) (base? came? : Option Nat) (s : State α)
    (e : RowEntry α) : Except (Halt (State α)) (State α) :=
  let m := e.head
  if m = t.center ∨ s.space.queue.placeOf m = .removed then .ok s
  else
    let s := { s with scanned := s.scanned + 1 }
    if t.arcLimit < s.scanned then .error (.overBudget s)
    else
      let d := dist + e.cost - t.discount k m came? e.cost
      if Weight.above d t.radius then .ok s
      else
        let s := t.report base? m d s
        .ok { s with space := improve k base? m d s.space }

/-- Counts the arc to `k`, now settled, as decided unless it was reported. -/
def decide (k : Nat) (s : State α) : State α :=
  match s.space.slotOf k with
  | some i => if s.isDeletable i then s else { s with decided := s.decided + 1 }
  | none => s

/-- Settles the nearest waiting node and scans its row.  The search is over when
every arc of the center is decided. -/
def settleNext (t : StarSearch α) (s : State α) : Progress (State α) Unit :=
  match s.space.queue.popMin? with
  | none => .done () s
  | some (top, queue) =>
      let k := top.node
      let s := decide k { s with space := { s.space with queue := queue } }
      if t.centerRow.length ≤ s.decided then .done () s
      else
        let base? := s.space.baseOf k
        let came? := s.space.prevOf k
        .ofScan () ((t.rows.row k).foldlM (t.scan k top.key base? came?) s)

/-- The answer of a star search. -/
structure Answer (α : Type) where
  /-- Whether some arc is deletable. -/
  found : Bool
  /-- For each arc of the center's row, whether it is deletable. -/
  deletable : Array Bool
  /-- The tables after the search. -/
  space : StarSpace α

/-- Looks at the arcs of the center, and writes the reports into a buffer that has an entry for
each of them; what the buffer held before is overwritten.  An arc limit only ends the search
early.  Every node is settled at most once, so one step more than there are nodes empties the
queue. -/
def runInto (t : StarSearch α) (buffer : Array Bool) (w : StarSpace α) :
    Except Fault (Answer α) := do
  checkNode t.rows.nodeCount t.center
  let row := t.centerRow
  let blank := buffer.map fun _ => false
  let w := { w with scanned := 0 }
  if row.length ≤ 1 then return ⟨false, blank, w⟩
  let seeded := row.zipIdx.foldl t.seed ⟨w, blank, 0, false, 0⟩
  let ((), s) ← Progress.run t.settleNext () (w.capacity + 1) seeded
  return ⟨s.found, s.deletable, { s.space with scanned := s.scanned }.reset⟩

/-- Looks at the arcs of the center, with a buffer of its own for the reports. -/
def run (t : StarSearch α) (w : StarSpace α) : Except Fault (Answer α) :=
  t.runInto (Array.replicate t.centerRow.length false) w

end StarSearch

end SteinerSearch
