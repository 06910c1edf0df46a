import SteinerSearch.Random.Shuffle
import SteinerSearch.Settings.Basic
import SteinerSearch.Tree.Growth
import SteinerSearch.Tree.Pruning

/-!
# Trees from several starts

A tree is grown from each of several terminals, extended and pruned.  The one with
the least objective is kept, and of equally good ones the first.

The starts are drawn from the marked required terminals, or from the marked optional
ones if there are none.  A network with a root has the root as its only start.

## Main definitions

* `RootedTree` — a tree with its start and its costs.
* `Multistart.candidates`, `Multistart.starts` — where trees may and do start.
* `Multistart.best` — the best tree.
-/

namespace SteinerSearch

/-- A tree with its start and its costs. -/
structure RootedTree (α : Type) where
  /-- The node the tree was grown from. -/
  start : Nat
  /-- The tree. -/
  tree : Tree
  /-- The sum of the arc costs. -/
  cost : α
  /-- The cost plus the prizes that the tree misses. -/
  objective : α

namespace Multistart

variable {α : Type}

/-- The nodes from which a tree may be grown. -/
def candidates (g : Network α) : List Nat :=
  match g.markedRequired with
  | [] => g.terminals.filter g.isMarked
  | required => required

/-- The nodes from which trees are grown. -/
def starts (g : Network α) (settings : Settings) : List Nat :=
  match candidates g with
  | [] => []
  | candidates =>
      -- a root replaces the candidates, but not where there are none
      match g.root with
      | some root => [root]
      | none =>
          (Generator.shuffle candidates (.ofSeed settings.seed)).take
            (Nat.max settings.treeStarts.toNat 1)

/-- Whether there are optional terminals, so that trees are grown for profit. -/
def isPrizeCollecting (g : Network α) : Bool := g.nodes.any g.isPseudo

variable [Weight α]

/-- Grows a tree from `start`. -/
def growFrom (g : Network α) (costs : CostView α) (settings : Settings) (start : Nat)
    (w : Workspace α) : Except Fault (GrowthOutcome × Tree × Workspace α) :=
  if isPrizeCollecting g then do
    let (outcome, t, w) ← Growth.growFrom ⟨g, costs, .profitable .targetOnly⟩ start w
    let (_, t, w) ←
      Growth.extend ⟨g, costs, .profitable .alongPath⟩ settings.extensionRounds.toNat t w
    return (outcome, t, w)
  else Growth.growFrom ⟨g, costs, .required⟩ start w

/-- The tree from `start`, pruned, unless it misses a required terminal. -/
def treeFrom (g : Network α) (costs : CostView α) (settings : Settings) (start : Nat)
    (w : Workspace α) : Except Fault (Option (RootedTree α) × Workspace α) := do
  let (outcome, t, w) ← growFrom g costs settings start w
  if outcome = .complete then
    let (_, t) ← t.prune g costs
    let cost ← t.cost costs
    let objective ← t.objective g costs
    return (some ⟨start, t, cost, objective⟩, w)
  else return (none, w)

/-- The better of two trees; the first unless the second has a smaller objective. -/
def better (best? new? : Option (RootedTree α)) : Option (RootedTree α) :=
  match best?, new? with
  | none, new? => new?
  | some best, none => some best
  | some best, some new =>
      if Weight.below new.objective best.objective then some new else some best

/-- The best tree from the given starts, and the workspace after them. -/
def bestOf (g : Network α) (costs : CostView α) (settings : Settings) :
    List Nat → Option (RootedTree α) → Workspace α →
      Except Fault (Option (RootedTree α) × Workspace α)
  | [], best?, w => .ok (best?, w)
  | start :: starts, best?, w => do
      let (new?, w) ← treeFrom g costs settings start w
      bestOf g costs settings starts (better best? new?) w

/-- The best tree, if there is a terminal to start from and some start reaches every
required terminal. -/
def best (g : Network α) (costs : CostView α) (settings : Settings) (w : Workspace α) :
    Except Fault (Option (RootedTree α) × Workspace α) :=
  bestOf g costs settings (starts g settings) none w

end Multistart

end SteinerSearch
