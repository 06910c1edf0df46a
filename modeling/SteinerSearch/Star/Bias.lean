import SteinerSearch.Network.Basic

/-!
# Biases

A bias gives nodes a profit.  A path that leaves a node gets the profit of the
node off the cost of the next arc, but never more than that cost.  A profit may
have been paid for by an edge to a neighbour, its source; then arcs to the source
and paths that came from it get nothing off.

## Main definitions

* `Bias` — profits with their sources.
* `Bias.ofPrizes` — the bias that the prizes of a network suggest.
* `Bias.discount` — what a step of a path gets off.
-/

namespace SteinerSearch

/-- Profits of nodes, with the neighbours they stem from. -/
structure Bias (α : Type) where
  /-- The profit of each node. -/
  profit : Array α
  /-- The neighbour the profit of each node stems from. -/
  source : Array (Option Nat)

namespace Bias

variable {α : Type} [Weight α]

/-- No profits. -/
def zero (n : Nat) : Bias α := ⟨Array.replicate n 0, Array.replicate n none⟩

/-- The profit of `v`. -/
def profitOf (b : Bias α) (v : Nat) : α := b.profit.getD v 0

omit [Weight α] in
/-- The neighbour the profit of `v` stems from. -/
def sourceOf (b : Bias α) (v : Nat) : Option Nat := b.source.getD v none

omit [Weight α] in
/-- Gives `v` a profit. -/
def set (b : Bias α) (v : Nat) (profit : α) (source : Option Nat) : Bias α :=
  ⟨b.profit.setIfInBounds v profit, b.source.setIfInBounds v source⟩

omit [Weight α] in
/-- `set`, refused for a node that the bias does not have. -/
def set? (b : Bias α) (v : Nat) (profit : α) (source : Option Nat) : Except Fault (Bias α) := do
  checkNode b.profit.size v
  return b.set v profit source

/-- The better of a gain so far and what the arc `a` offers: the prize of an
optional terminal at its head, less the cost of the arc. -/
def betterGain (g : Network α) (gain : α × Option Nat) (a : Nat) : α × Option Nat :=
  let t := g.headOf a
  if g.isPseudo t then
    let offer := g.prizeOf t - g.costOf a
    if Weight.above offer gain.1 then (offer, some t) else gain
  else gain

/-- The profit of `v` and its source: an optional terminal has its own prize, a
plain node the best gain among its arcs, a required terminal nothing. -/
def gainOf (g : Network α) (v : Nat) : α × Option Nat :=
  if g.isPseudo v then (g.prizeOf v, none)
  else if g.isTerminal v then (0, none)
  else (g.outArcs v).foldl (betterGain g) (0, none)

/-- The bias that the prizes of a network suggest. -/
def ofPrizes (g : Network α) : Bias α :=
  let gains := g.nodes.map (gainOf g)
  ⟨(gains.map Prod.fst).toArray, (gains.map Prod.snd).toArray⟩

/-- What a path that came to `k` from `came?` gets off the cost of an arc to
`m`. -/
def discount (b : Bias α) (k m : Nat) (came? : Option Nat) (cost : α) : α :=
  match b.sourceOf k with
  | some s => if s = m ∨ some s = came? then 0 else Weight.min (b.profitOf k) cost
  | none => Weight.min (b.profitOf k) cost

end Bias

end SteinerSearch
