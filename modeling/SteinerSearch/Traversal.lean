import SteinerSearch.Network.Basic
import SteinerSearch.Stepping
import SteinerSearch.Workspace

/-!
# Bounded traversal

A traversal settles nodes in the order of their distance from a set of sources.
A label is either the length of a path or, for spanning trees, the cost of the
arc that attaches a node.  A traversal may end early: at a target, when all
required terminals are settled, or over a budget of arc scans.  Labels above a
distance limit are not recorded.

Settled nodes carry final labels.  Labels of nodes that still wait are lengths of
real paths, so they can only be too long.

## Main definitions

* `Traversal` — what to traverse, and under which limits.
* `Traversal.run`, `Traversal.fromTerminals`, `Traversal.toRoot` — traversals
  from given sources, from the required terminals, and backwards from the root.
* `pathArcs` — the labeled path that ends in a node.
-/

namespace SteinerSearch

/-- The cost of each arc, where there is one. -/
abbrev CostView (α : Type) := Nat → Option α

/-- Costs listed by arc. -/
def CostView.ofArray {α : Type} (costs : Array α) : CostView α := fun a => costs[a]?

/-- Costs listed by arc, with every arc priced as its opposite.  Under this view
a traversal walks arcs backwards. -/
def CostView.reversed {α : Type} (costs : Array α) : CostView α := fun a => costs[Arc.rev a]?

/-- What a distance label measures. -/
inductive Labeling where
  /-- The length of the path to the node. -/
  | pathLength
  /-- The cost of the last arc of the path. -/
  | attachment
  deriving DecidableEq, Repr

/-- The label of a node reached over an arc of cost `cost` from a node labeled
`base`. -/
def Labeling.extend {α : Type} [Weight α] (l : Labeling) (base cost : α) : α :=
  match l with
  | .pathLength => base + cost
  | .attachment => cost

/-- A reason to end a traversal before the queue runs empty. -/
inductive StopAt where
  /-- This node is settled. -/
  | target (v : Nat)
  /-- Every marked required terminal is settled. -/
  | allTerminals
  deriving DecidableEq, Repr

/-- The bounds of a traversal. -/
structure Limits (α : Type) where
  /-- The number of arc scans that are allowed. -/
  arcBudget : Option Nat := none
  /-- Labels above this distance are not recorded. -/
  maxDistance : Option α := none
  /-- An early end. -/
  stopAt : Option StopAt := none

/-- How a traversal ended. -/
inductive TraversalOutcome where
  /-- The queue ran empty. -/
  | exhausted
  /-- The target was settled. -/
  | targetReached
  /-- The last marked required terminal was settled. -/
  | allTerminalsReached
  /-- The arc budget was exceeded. -/
  | overBudget
  deriving DecidableEq, Repr

/-- Whether the budget cut the traversal short. -/
def TraversalOutcome.isTruncated (o : TraversalOutcome) : Bool := o = .overBudget

/-- What to traverse, and under which limits. -/
structure Traversal (α : Type) where
  /-- The network. -/
  network : Network α
  /-- The arc costs. -/
  costs : CostView α
  /-- What labels measure. -/
  labeling : Labeling
  /-- The bounds. -/
  limits : Limits α

namespace Traversal

variable {α : Type} [Weight α]

/-- The state of a traversal. -/
structure State (α : Type) where
  /-- The tables. -/
  space : Workspace α
  /-- Arcs scanned so far. -/
  scanned : Nat
  /-- Marked required terminals not settled yet. -/
  openTerminals : Nat

/-- Whether `count` scans exceed the budget. -/
def exceeds (t : Traversal α) (count : Nat) : Bool :=
  match t.limits.arcBudget with
  | some budget => budget < count
  | none => false

/-- Whether a label is too long to be recorded. -/
def tooLong (t : Traversal α) (d : α) : Bool :=
  match t.limits.maxDistance with
  | some limit => Weight.above d limit
  | none => false

/-- Relabels `m` with `d` over arc `a` if that is an improvement. -/
def improve (m : Nat) (d : α) (a : Nat) (w : Workspace α) : Workspace α :=
  if Weight.below d (w.distOf m) then (w.setLabel m d (some a)).enqueue m else w

/-- Scans arc `a` out of a node labeled `base`. -/
def scan (t : Traversal α) (base : α) (s : State α) (a : Nat) :
    Except (Halt (State α)) (State α) :=
  let m := t.network.headOf a
  if !t.network.isMarked m || s.space.isSettled m then .ok s
  else
    -- the scan that exceeds the budget is counted, but has no effect
    let s := { s with scanned := s.scanned + 1 }
    if t.exceeds s.scanned then .error (.overBudget s)
    else
      match t.costs a with
      | none => .error (.fault (.arc a))
      | some c =>
          let d := t.labeling.extend base c
          if t.tooLong d then .ok s
          else .ok { s with space := improve m d a s.space }

/-- Scans the arcs out of `k`. -/
def expand (t : Traversal α) (k : Nat) (s : State α) : Progress (State α) TraversalOutcome :=
  let base := s.space.distOf k
  .ofScan .overBudget ((t.network.outArcs k).foldlM (t.scan base) s)

/-- Settles the nearest waiting node and, unless that ends the traversal, scans
its arcs. -/
def settleNext (t : Traversal α) (s : State α) : Progress (State α) TraversalOutcome :=
  match s.space.popMin? with
  | none => .done .exhausted s
  | some (k, space) =>
      let s := { s with space := space }
      if t.limits.stopAt = some (.target k) then .done .targetReached s
      else if t.network.nodeCount ≤ k then .fault (.node k)
      else if t.limits.stopAt = some .allTerminals ∧
          t.network.isRequired k ∧ t.network.isMarked k then
        let s := { s with openTerminals := s.openTerminals - 1 }
        if s.openTerminals = 0 then .done .allTerminalsReached s else t.expand k s
      else t.expand k s

/-- Labels `v` as a source. -/
def seed (w : Workspace α) (v : Nat) : Except Fault (Workspace α) := do
  checkNode w.capacity v
  return (w.setLabel v 0 none).enqueue v

/-- Traverses from `sources`, in a workspace that was reset.  Every node is
settled at most once, so one step more than there are nodes empties the queue. -/
def run (t : Traversal α) (sources : List Nat) (w : Workspace α) :
    Except Fault (TraversalOutcome × Workspace α) := do
  let w ← sources.foldlM seed w
  let start : State α := ⟨w, 0, t.network.markedRequired.length⟩
  let (outcome, s) ← Progress.run t.settleNext .exhausted (w.capacity + 1) start
  return (outcome, s.space)

/-- Path lengths from the nearest marked required terminal. -/
def fromTerminals (g : Network α) (costs : CostView α) (limits : Limits α) (w : Workspace α) :
    Except Fault (TraversalOutcome × Workspace α) :=
  run ⟨g, costs, .pathLength, limits⟩ g.markedRequired w

/-- Path lengths to the designated root along arc directions, found by walking
backwards from the root.  Without a root there is nothing to do. -/
def toRoot (g : Network α) (costs : Array α) (limits : Limits α) (w : Workspace α) :
    Except Fault (TraversalOutcome × Workspace α) :=
  match g.root with
  | some root => run ⟨g, .reversed costs, .pathLength, limits⟩ [root] w
  | none => .ok (.exhausted, w)

end Traversal

/-! ### Labeled paths -/

/-- The labeled path that ends in `v`, last arc first, at most `fuel` arcs. -/
def backwardArcs {α : Type} (g : Network α) (w : Workspace α) : Nat → Nat → List Nat
  | 0, _ => []
  | fuel + 1, v =>
      match w.predOf v with
      | some a => a :: backwardArcs g w fuel (g.tailOf a)
      | none => []

/-- The labeled path that ends in `v`, first arc first.  A path visits no node
twice, so it has fewer arcs than the network has nodes. -/
def pathArcs {α : Type} (g : Network α) (w : Workspace α) (v : Nat) : Except Fault (List Nat) := do
  checkNode w.capacity v
  return (backwardArcs g w g.nodeCount v).reverse

end SteinerSearch
