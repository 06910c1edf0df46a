import SteinerSearch.Stepping
import SteinerSearch.Tree.Basic

/-!
# Pruning a tree

A leaf of a tree is useless if it does not pay for the arc that enters it: a plain
node always, an optional terminal if its prize is below the cost of the arc, a
required terminal never.  Pruning removes useless leaves until there are none.
The root of a tree has no entering arc and stays.

## Main definitions

* `Tree.isUseless` — a node that is not worth its arc.
* `Tree.prune` — the tree without useless leaves, and how many nodes were removed.
-/

namespace SteinerSearch

namespace Tree

variable {α : Type} [Weight α]

/-- Whether `v`, entered over `a`, is not worth its arc once it is a leaf. -/
def isUseless (g : Network α) (costs : CostView α) (v a : Nat) : Except Fault Bool :=
  if g.isRequired v then .ok false
  else if g.isPseudo v then
    match costs a with
    | some c => .ok (Weight.below (g.prizeOf v) c)
    | none => .error (.arc a)
  else .ok true

/-- The state of a pruning. -/
structure Pruning where
  /-- The tree so far. -/
  tree : Tree
  /-- The number of children of each node. -/
  children : Array Nat
  /-- Leaves to look at, the next one first. -/
  leaves : List Nat
  /-- Nodes removed so far. -/
  removed : Nat

namespace Pruning

omit [Weight α] in
/-- Counts the arc entering `v`, if any, for its tail. -/
def countChild (g : Network α) (t : Tree) (children : Array Nat) (v : Nat) :
    Except Fault (Array Nat) :=
  match t.predOf v with
  | none => .ok children
  | some a => do
      checkArc g.arcCount a
      let parent := g.tailOf a
      return children.setIfInBounds parent (children.getD parent 0 + 1)

/-- Looks at the next leaf. -/
def step (g : Network α) (costs : CostView α) (s : Pruning) : Progress Pruning Unit :=
  match s.leaves with
  | [] => .done () s
  | v :: leaves =>
      let s := { s with leaves := leaves }
      match s.tree.predOf v with
      | none => .more s
      | some a =>
          match isUseless g costs v a with
          | .error f => .fault f
          | .ok false => .more s
          | .ok true =>
              -- only a leaf that is removed needs the tail of its arc
              if g.arcCount ≤ a then .fault (.arc a)
              else
                let parent := g.tailOf a
                let count := s.children.getD parent 0 - 1
                .more {
                  tree := s.tree.disconnect v
                  children := s.children.setIfInBounds parent count
                  leaves := if count = 0 then parent :: s.leaves else s.leaves
                  removed := s.removed + 1 }

end Pruning

/-- Removes useless leaves.  Leaves are looked at from the last node to the first,
and a node that becomes a leaf is next.  Every node becomes a leaf at most once. -/
def prune (t : Tree) (g : Network α) (costs : CostView α) : Except Fault (Nat × Tree) := do
  let nodes := t.nodes
  let children ← nodes.foldlM (Pruning.countChild g t) (Array.replicate g.nodeCount 0)
  let leaves := (nodes.filter fun v => children.getD v 0 == 0).reverse
  let ((), s) ← Progress.run (Pruning.step g costs) () (2 * g.nodeCount + 1)
    ⟨t, children, leaves, 0⟩
  return (s.removed, s.tree)

end Tree

end SteinerSearch
