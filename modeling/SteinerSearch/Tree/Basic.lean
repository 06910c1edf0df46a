import SteinerSearch.Network.Basic
import SteinerSearch.Traversal

/-!
# Steiner trees

A tree in a network is given by the set of its nodes and, for every node but the
root, the arc that enters it from its parent.

## Main definitions

* `Tree` — nodes with the arcs entering them.
* `Tree.cost` — the sum of the arc costs.
* `Tree.objective` — the cost plus the prizes of optional terminals left out.
-/

namespace SteinerSearch

/-- A tree in a network. -/
structure Tree where
  /-- Whether each node is in the tree. -/
  connected : Array Bool
  /-- The arc entering each node from its parent. -/
  pred : Array (Option Nat)
  deriving DecidableEq, Repr

namespace Tree

/-- The empty tree in a network of `n` nodes. -/
def empty (n : Nat) : Tree := ⟨Array.replicate n false, Array.replicate n none⟩

/-- The number of nodes of the network. -/
def capacity (t : Tree) : Nat := t.connected.size

/-- Whether `v` is in the tree. -/
def contains (t : Tree) (v : Nat) : Bool := t.connected.getD v false

/-- The arc entering `v` from its parent. -/
def predOf (t : Tree) (v : Nat) : Option Nat := t.pred.getD v none

/-- Puts `v` into the tree, entered over `pred`. -/
def connect (t : Tree) (v : Nat) (pred : Option Nat) : Tree :=
  ⟨t.connected.setIfInBounds v true, t.pred.setIfInBounds v pred⟩

/-- Takes `v` out of the tree. -/
def disconnect (t : Tree) (v : Nat) : Tree :=
  ⟨t.connected.setIfInBounds v false, t.pred.setIfInBounds v none⟩

/-- The nodes of the tree in order. -/
def nodes (t : Tree) : List Nat := (List.range t.capacity).filter t.contains

/-- The arcs of the tree, ordered by the node they enter. -/
def arcs (t : Tree) : List Nat := t.pred.toList.filterMap id

/-- Puts a listed node into the tree. -/
def addNode (t : Tree) (v : Nat) : Except Fault Tree := do
  checkNode t.capacity v
  return { t with connected := t.connected.setIfInBounds v true }

/-- Enters a listed node over a listed arc. -/
def addArc (t : Tree) (entry : Nat × Nat) : Except Fault Tree := do
  checkNode t.capacity entry.1
  return { t with pred := t.pred.setIfInBounds entry.1 (some entry.2) }

/-- The tree with the given nodes and entering arcs. -/
def ofLists (n : Nat) (nodes : List Nat) (preds : List (Nat × Nat)) : Except Fault Tree := do
  preds.foldlM addArc (← nodes.foldlM addNode (empty n))

/-! ### Costs -/

variable {α : Type} [Weight α]

omit [Weight α] in
/-- The cost of arc `a`. -/
def arcCost (costs : CostView α) (a : Nat) : Except Fault α :=
  match costs a with
  | some c => .ok c
  | none => .error (.arc a)

/-- The arcs entering nodes of the tree, in node order. -/
def treeArcs (t : Tree) : List Nat := t.nodes.filterMap t.predOf

/-- The sum of the arc costs. -/
def cost (t : Tree) (costs : CostView α) : Except Fault α := do
  return Weight.sum (← t.treeArcs.mapM (arcCost costs))

/-- The prizes of the optional terminals that the tree leaves out. -/
def missedPrizes (t : Tree) (g : Network α) : α :=
  Weight.sum ((g.nodes.filter fun v => g.isPseudo v && !t.contains v).map g.prizeOf)

/-- The cost of the tree plus the prizes it misses. -/
def objective (t : Tree) (g : Network α) (costs : CostView α) : Except Fault α := do
  return (← t.cost costs) + t.missedPrizes g

end Tree

end SteinerSearch
