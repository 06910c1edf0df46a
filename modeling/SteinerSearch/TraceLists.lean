import SteinerSearch.Network.Ids

/-!
# Bounded lists, one per node

A walk search writes down, at each node, what the walk behind the node's label
has used so far.  `TraceLists` holds these traces: for every node a list of at
most `capacity` ids.  A list that would outgrow its bound becomes *saturated*:
its ids are given up, and it may then contain anything.

All lists share one buffer; the list of node `v` lives in the row that starts at
`v * capacity`.  Clearing a list gives up its row as it is, and what is left there is
no part of any list.

## Main definitions

* `Fill` — how much of its row a list uses.
* `TraceLists` — the lists, with `push`, `copy`, `saturate` and `clear`.
* `TraceLists.get?`, `TraceLists.mayContain` — what is known of a list.
-/

namespace SteinerSearch

/-- How much of its row a list uses. -/
inductive Fill where
  /-- The first `count` entries of the row are the list. -/
  | holding (count : Nat)
  /-- The list has outgrown its row. -/
  | saturated
  deriving DecidableEq, Repr

/-- Bounded lists of ids, one per node, in one buffer. -/
structure TraceLists where
  /-- The bound on the length of each list. -/
  capacity : Nat
  /-- The rows of all nodes, one after the other. -/
  ids : Array Nat
  /-- The fill of each node's row. -/
  fill : Array Fill
  deriving DecidableEq, Repr

namespace TraceLists

/-- Empty lists for `n` nodes, each of at most `capacity` ids. -/
def empty (n capacity : Nat) : TraceLists :=
  ⟨capacity, Array.replicate (n * capacity) 0, Array.replicate n (.holding 0)⟩

/-- The number of nodes. -/
def size (l : TraceLists) : Nat := l.fill.size

/-- The fill of the row of `v`. -/
def fillOf (l : TraceLists) (v : Nat) : Fill := l.fill.getD v (.holding 0)

/-- Position `i` of the row of `v` in the buffer. -/
def position (l : TraceLists) (v i : Nat) : Nat := v * l.capacity + i

/-- The list of `v`, or `none` once it is saturated. -/
def get? (l : TraceLists) (v : Nat) : Option (List Nat) :=
  match l.fillOf v with
  | .holding count => some ((List.range count).map fun i => l.ids.getD (l.position v i) 0)
  | .saturated => none

/-- Whether `id` may be in the list of `v`.  A saturated list may contain
anything. -/
def mayContain (l : TraceLists) (v id : Nat) : Bool :=
  match l.get? v with
  | some ids => ids.contains id
  | none => true

/-- Whether `id` is known to be in the list of `v`. -/
def surelyContains (l : TraceLists) (v id : Nat) : Bool :=
  match l.get? v with
  | some ids => ids.contains id
  | none => false

/-- Writes `id` at position `i` of the row of `v`. -/
def write (l : TraceLists) (v i id : Nat) : TraceLists :=
  { l with ids := l.ids.setIfInBounds (l.position v i) id }

/-- Sets the fill of the row of `v`. -/
def setFill (l : TraceLists) (v : Nat) (f : Fill) : TraceLists :=
  { l with fill := l.fill.setIfInBounds v f }

/-- Appends `id` to the list of `v`, or saturates the list if it is full. -/
def push (l : TraceLists) (v id : Nat) : TraceLists :=
  match l.fillOf v with
  | .holding count =>
      if count < l.capacity then (l.write v count id).setFill v (.holding (count + 1))
      else l.setFill v .saturated
  | .saturated => l

/-- Replaces the list of `target` by the list of `source`, another node.  A
saturated target stays saturated. -/
def copy (l : TraceLists) (source target : Nat) : TraceLists :=
  match l.fillOf target, l.fillOf source with
  | .saturated, _ => l
  | .holding _, .saturated => l.setFill target .saturated
  | .holding _, .holding count =>
      let copied := (List.range count).foldl
        (fun l i => l.write target i (l.ids.getD (l.position source i) 0)) l
      copied.setFill target (.holding count)

/-- Gives up the list of `v`. -/
def saturate (l : TraceLists) (v : Nat) : TraceLists := l.setFill v .saturated

/-- Empties the list of `v`. -/
def clear (l : TraceLists) (v : Nat) : TraceLists := l.setFill v (.holding 0)

/-- Applies `f` if there is a list of `v`. -/
def withNode {β : Type} (l : TraceLists) (v : Nat) (f : TraceLists → β) : Except Fault β := do
  checkNode l.size v
  return f l

/-- `copy`, refused unless both nodes have lists. -/
def copy? (l : TraceLists) (source target : Nat) : Except Fault TraceLists := do
  checkNode l.size source
  checkNode l.size target
  return l.copy source target

end TraceLists

end SteinerSearch
