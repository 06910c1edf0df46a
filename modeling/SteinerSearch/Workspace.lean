import SteinerSearch.Queue.NodeQueue
import SteinerSearch.TraceLists

/-!
# Workspaces

A workspace holds the tables of a search: labels, queue, flags and traces.  It is
made once for a number of nodes and used by many searches.  Every node that gets
a label is entered in the list of touched nodes, and `reset` restores the entries
of those nodes only.

## Main definitions

* `Workspace` — the tables.
* `Workspace.setLabel`, `Workspace.enqueue`, `Workspace.reopen`,
  `Workspace.popMin?` — what searches do.
* `Workspace.reset`, `Workspace.isPristine` — leaving no trace of a search.
-/

namespace SteinerSearch

/-- The tables of a search. -/
structure Workspace (α : Type) where
  /-- The distance label of each node. -/
  dist : Array α
  /-- The arc over which each node got its label. -/
  pred : Array (Option Nat)
  /-- The nodes that wait, ordered by `dist`. -/
  queue : NodeQueue
  /-- Whether each node was touched. -/
  visited : Array Bool
  /-- Whether the prize of each node was credited somewhere in the search. -/
  claimed : Array Bool
  /-- The touched nodes in the order they were first labeled. -/
  touched : Array Nat
  /-- Credited nodes, or only the required terminals among them if the search
  keeps the others apart. -/
  credited : TraceLists
  /-- Credited nodes that are not required terminals, kept apart. -/
  creditedOther : TraceLists
  /-- Traversed edges. -/
  traversed : TraceLists

namespace Workspace

variable {α : Type} [Weight α]

/-- A workspace for `n` nodes with traces of at most `capacity` ids. -/
def fresh (n capacity : Nat) : Workspace α where
  dist := Array.replicate n Weight.faraway
  pred := Array.replicate n none
  queue := NodeQueue.empty n
  visited := Array.replicate n false
  claimed := Array.replicate n false
  touched := #[]
  credited := TraceLists.empty n capacity
  creditedOther := TraceLists.empty n capacity
  traversed := TraceLists.empty n capacity

/-! ### Reading -/

section Reading

omit [Weight α]

/-- The number of nodes the tables are for. -/
def capacity (w : Workspace α) : Nat := w.dist.size

/-- The bound on the length of a trace. -/
def traceCapacity (w : Workspace α) : Nat := w.credited.capacity

/-- The arc over which `v` got its label. -/
def predOf (w : Workspace α) (v : Nat) : Option Nat := w.pred.getD v none

/-- Whether `v` was touched. -/
def isVisited (w : Workspace α) (v : Nat) : Bool := w.visited.getD v false

/-- Whether the prize of `v` was credited. -/
def isClaimed (w : Workspace α) (v : Nat) : Bool := w.claimed.getD v false

/-- Whether `v` is extracted. -/
def isSettled (w : Workspace α) (v : Nat) : Bool := w.queue.isSettled v

end Reading

/-- The distance label of `v`. -/
def distOf (w : Workspace α) (v : Nat) : α := w.dist.getD v Weight.faraway

/-! ### Writing -/

section Writing

omit [Weight α]

/-- Enters `v` in the list of touched nodes the first time it is labeled. -/
def visit (w : Workspace α) (v : Nat) : Workspace α :=
  if w.isVisited v then w
  else { w with visited := w.visited.setIfInBounds v true, touched := w.touched.push v }

/-- Labels `v`. -/
def setLabel (w : Workspace α) (v : Nat) (dist : α) (pred : Option Nat) : Workspace α :=
  let w := w.visit v
  { w with dist := w.dist.setIfInBounds v dist, pred := w.pred.setIfInBounds v pred }

/-- Changes the distance of `v` and keeps the rest of its label. -/
def setDist (w : Workspace α) (v : Nat) (dist : α) : Workspace α :=
  { w with dist := w.dist.setIfInBounds v dist }

/-- Notes that the prize of `v` was credited. -/
def claim (w : Workspace α) (v : Nat) : Workspace α :=
  { w with claimed := w.claimed.setIfInBounds v true }

/-- Makes `v`, which does not wait, unknown to the queue. -/
def unsettle (w : Workspace α) (v : Nat) : Workspace α :=
  { w with queue := w.queue.setState v .unknown }

end Writing

/-- The distance labels as queue keys. -/
def keyIn (dist : Array α) (v : Nat) : α := dist.getD v Weight.faraway

/-- Makes `v` wait under its distance label. -/
def enqueue (w : Workspace α) (v : Nat) : Workspace α :=
  { w with queue := w.queue.insert (keyIn w.dist) v }

/-- Makes `v` wait under its distance label even if it is settled. -/
def reopen (w : Workspace α) (v : Nat) : Workspace α :=
  { w with queue := w.queue.reopen (keyIn w.dist) v }

/-- Extracts the nearest waiting node. -/
def popMin? (w : Workspace α) : Option (Nat × Workspace α) :=
  (w.queue.popMin? (keyIn w.dist)).map fun (v, queue) => (v, { w with queue := queue })

/-! ### Reset -/

/-- Restores the entries of one node. -/
def restore (w : Workspace α) (v : Nat) : Workspace α :=
  { w with
    dist := w.dist.setIfInBounds v Weight.faraway
    pred := w.pred.setIfInBounds v none
    visited := w.visited.setIfInBounds v false
    claimed := w.claimed.setIfInBounds v false
    queue := w.queue.setState v .unknown
    credited := w.credited.clear v
    creditedOther := w.creditedOther.clear v
    traversed := w.traversed.clear v }

/-- Empties the queue and restores the entries of every touched node. -/
def reset (w : Workspace α) : Workspace α :=
  -- nodes that still wait were touched, so no other entry is left
  let cleared := { w with queue := w.queue.clear, touched := #[] }
  w.touched.foldl restore cleared

/-- Whether the entries of `v` are those of a fresh workspace. -/
def isBlankAt (w : Workspace α) (v : Nat) : Bool :=
  Weight.same (w.distOf v) Weight.faraway && (w.predOf v).isNone && !w.isVisited v &&
    !w.isClaimed v && w.queue.stateOf v = .unknown && w.credited.fillOf v = .holding 0 &&
    w.creditedOther.fillOf v = .holding 0 && w.traversed.fillOf v = .holding 0

/-- Whether no search has left anything behind. -/
def isPristine (w : Workspace α) : Bool :=
  w.touched.isEmpty && w.queue.size == 0 && (List.range w.capacity).all w.isBlankAt

end Workspace

end SteinerSearch
