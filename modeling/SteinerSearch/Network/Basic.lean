import SteinerSearch.Network.Ids
import SteinerSearch.Weight

/-!
# Networks

A network is a static graph with weighted arcs, terminals and prizes.  The arcs
that leave a node form a chain: `firstOut` names the newest, `nextOut` leads from
each arc to the next older one.  A node can be unmarked, which takes it out of
the searches without taking it out of the network.

## Main definitions

* `TerminalKind` — what a Steiner tree owes to a node.
* `Network` — the graph, with `outArcs`, `findArc` and the terminal predicates.
* `Network.addEdge`, `Network.addArcPair`, `Network.setTerminal`,
  `Network.setPrize`, `Network.setRoot` — checked construction.
* `Network.masked`, `Network.restoreMarks` — unmarking two nodes for a while.
* `NetworkError` — why a construction step was refused.
-/

namespace SteinerSearch

/-- What a Steiner tree owes to a node. -/
inductive TerminalKind where
  /-- Nothing: a plain node. -/
  | steiner
  /-- It must be in the tree. -/
  | proper
  /-- It may be left out at the price of its prize. -/
  | pseudo
  /-- It must be in the tree of a rooted instance, whatever it costs. -/
  | fixed
  deriving DecidableEq, Repr

/-- Why a construction step was refused. -/
inductive NetworkError (α : Type) where
  /-- The network has only `nodes` nodes. -/
  | nodeOutOfRange (node nodes : Nat)
  /-- Both ends of the edge are `node`. -/
  | selfLoop (node : Nat)
  /-- An arc cost must be finite and not negative. -/
  | invalidCost (cost : α)
  /-- A prize must be finite and not negative. -/
  | invalidPrize (node : Nat) (prize : α)
  /-- A list of row offsets has one entry more than there are nodes. -/
  | offsetsMissing
  /-- Row offsets start at zero and do not decrease. -/
  | offsetsUnordered
  /-- The offsets speak of `count` entries, and there are fewer. -/
  | entriesMissing (count : Nat)
  deriving DecidableEq, Repr

/-- A static graph with weighted arcs, terminals and prizes. -/
structure Network (α : Type) where
  /-- Whether each node takes part in the searches. -/
  mark : Array Bool
  /-- The kind of each node. -/
  kind : Array TerminalKind
  /-- The prize of each node. -/
  prize : Array α
  /-- The number of arcs leaving each node. -/
  degree : Array Nat
  /-- The newest arc leaving each node. -/
  firstOut : Array (Option Nat)
  /-- The next older arc with the same tail, by arc. -/
  nextOut : Array (Option Nat)
  /-- The node each arc leads to. -/
  head : Array Nat
  /-- The node each arc leaves. -/
  tail : Array Nat
  /-- The cost of each arc. -/
  cost : Array α
  /-- The designated root. -/
  root : Option Nat

namespace Network

variable {α : Type} [Weight α]

/-- The network of `n` marked plain nodes and no edges. -/
def empty (n : Nat) : Network α where
  mark := Array.replicate n true
  kind := Array.replicate n .steiner
  prize := Array.replicate n 0
  degree := Array.replicate n 0
  firstOut := Array.replicate n none
  nextOut := #[]
  head := #[]
  tail := #[]
  cost := #[]
  root := none

/-! ### Reading -/

section Reading

omit [Weight α]

/-- The number of nodes. -/
def nodeCount (g : Network α) : Nat := g.mark.size

/-- The number of arcs. -/
def arcCount (g : Network α) : Nat := g.head.size

/-- The number of edges. -/
def edgeCount (g : Network α) : Nat := g.head.size / 2

/-- The nodes in order. -/
def nodes (g : Network α) : List Nat := List.range g.nodeCount

/-- Whether `v` takes part in the searches. -/
def isMarked (g : Network α) (v : Nat) : Bool := g.mark.getD v false

/-- The kind of `v`. -/
def kindOf (g : Network α) (v : Nat) : TerminalKind := g.kind.getD v .steiner

/-- The number of arcs leaving `v`. -/
def degreeOf (g : Network α) (v : Nat) : Nat := g.degree.getD v 0

/-- The newest arc leaving `v`. -/
def firstOf (g : Network α) (v : Nat) : Option Nat := g.firstOut.getD v none

/-- The next older arc with the same tail as `a`. -/
def nextOf (g : Network α) (a : Nat) : Option Nat := g.nextOut.getD a none

/-- The node `a` leads to. -/
def headOf (g : Network α) (a : Nat) : Nat := g.head.getD a 0

/-- The node `a` leaves. -/
def tailOf (g : Network α) (a : Nat) : Nat := g.tail.getD a 0

/-- `v` must be in every tree: it is a proper or a fixed terminal. -/
def isRequired (g : Network α) (v : Nat) : Bool :=
  match g.kindOf v with
  | .proper | .fixed => true
  | .steiner | .pseudo => false

/-- `v` is optional and carries a prize. -/
def isPseudo (g : Network α) (v : Nat) : Bool := g.kindOf v = .pseudo

/-- `v` is a fixed terminal of a rooted instance. -/
def isFixed (g : Network α) (v : Nat) : Bool := g.kindOf v = .fixed

/-- `v` is a terminal of some kind; a walk may be credited its prize. -/
def isTerminal (g : Network α) (v : Nat) : Bool := g.kindOf v ≠ .steiner

/-- The required terminals in order. -/
def requiredTerminals (g : Network α) : List Nat := g.nodes.filter g.isRequired

/-- The terminals of every kind in order. -/
def terminals (g : Network α) : List Nat := g.nodes.filter g.isTerminal

/-- The marked required terminals in order. -/
def markedRequired (g : Network α) : List Nat :=
  g.nodes.filter fun v => g.isRequired v && g.isMarked v

/-- The chain of arcs from `a?` on, at most `fuel` of them. -/
def chain (g : Network α) : Nat → Option Nat → List Nat
  | 0, _ => []
  | _ + 1, none => []
  | fuel + 1, some a => a :: g.chain fuel (g.nextOf a)

/-- The arcs leaving `v`, newest first.  A chain has no arc twice, so its length
is at most the number of arcs. -/
def outArcs (g : Network α) (v : Nat) : List Nat := g.chain g.arcCount (g.firstOf v)

/-- The newest arc from `u` to `v`. -/
def findArc (g : Network α) (u v : Nat) : Option Nat :=
  (g.outArcs u).find? fun a => g.headOf a == v

end Reading

/-- The prize of `v`. -/
def prizeOf (g : Network α) (v : Nat) : α := g.prize.getD v 0

/-- The cost of `a`. -/
def costOf (g : Network α) (a : Nat) : α := g.cost.getD a 0

/-- The costs with every arc priced as its opposite. -/
def reversedCosts (g : Network α) : Array α :=
  ((List.range g.arcCount).map fun a => g.costOf (Arc.rev a)).toArray

/-! ### Construction

Every step checks its arguments first and changes nothing when it refuses. -/

omit [Weight α] in
/-- Refuses a node that the network does not have. -/
def requireNode (g : Network α) (v : Nat) : Except (NetworkError α) Unit :=
  if v < g.nodeCount then .ok () else .error (.nodeOutOfRange v g.nodeCount)

/-- Refuses a cost that is not finite or is negative. -/
def requireCost (c : α) : Except (NetworkError α) Unit :=
  if Weight.admissible c then .ok () else .error (.invalidCost c)

omit [Weight α] in
/-- Appends an arc, in front of the chain of its tail. -/
def pushArc (g : Network α) (tail head : Nat) (cost : α) : Network α :=
  { g with
    head := g.head.push head
    tail := g.tail.push tail
    cost := g.cost.push cost
    nextOut := g.nextOut.push (g.firstOf tail)
    firstOut := g.firstOut.setIfInBounds tail (some g.arcCount)
    degree := g.degree.setIfInBounds tail (g.degreeOf tail + 1) }

/-- Adds an edge whose arc from `u` to `v` costs `forward` and whose arc back
costs `backward`.  Answers the new edge. -/
def addArcPair (g : Network α) (u v : Nat) (forward backward : α) :
    Except (NetworkError α) (Nat × Network α) := do
  g.requireNode u
  g.requireNode v
  if u = v then throw (.selfLoop u)
  requireCost forward
  requireCost backward
  return (g.edgeCount, (g.pushArc u v forward).pushArc v u backward)

/-- Adds an edge with the same cost both ways. -/
def addEdge (g : Network α) (u v : Nat) (cost : α) :
    Except (NetworkError α) (Nat × Network α) :=
  g.addArcPair u v cost cost

omit [Weight α] in
/-- Makes `v` a node of the given kind. -/
def setTerminal (g : Network α) (v : Nat) (kind : TerminalKind) :
    Except (NetworkError α) (Network α) := do
  g.requireNode v
  return { g with kind := g.kind.setIfInBounds v kind }

/-- Gives `v` a prize. -/
def setPrize (g : Network α) (v : Nat) (prize : α) : Except (NetworkError α) (Network α) := do
  g.requireNode v
  if Weight.admissible prize then return { g with prize := g.prize.setIfInBounds v prize }
  else throw (.invalidPrize v prize)

omit [Weight α] in
/-- Designates `v` as the root. -/
def setRoot (g : Network α) (v : Nat) : Except (NetworkError α) (Network α) := do
  g.requireNode v
  return { g with root := some v }

/-! ### Marks -/

section Marks

omit [Weight α]

/-- Marks or unmarks `v`. -/
def setMark (g : Network α) (v : Nat) (mark : Bool) : Network α :=
  { g with mark := g.mark.setIfInBounds v mark }

/-- The network with `a` and `b` unmarked.  A search that must not pass through
two nodes runs on the masked network. -/
def masked (g : Network α) (a b : Nat) : Network α := (g.setMark a false).setMark b false

/-- The marks of some nodes, noted down before they are changed. -/
def marksOf (g : Network α) (vs : List Nat) : List (Nat × Bool) :=
  vs.map fun v => (v, g.isMarked v)

/-- Puts noted marks back, the last one first. -/
def restoreMarks (g : Network α) (noted : List (Nat × Bool)) : Network α :=
  noted.reverse.foldl (fun g m => g.setMark m.1 m.2) g

/-- `setMark`, refused for a node that the network does not have. -/
def setMark? (g : Network α) (v : Nat) (mark : Bool) : Except Fault (Network α) := do
  checkNode g.nodeCount v
  return g.setMark v mark

/-- `masked`, refused unless the network has both nodes. -/
def masked? (g : Network α) (a b : Nat) : Except Fault (Network α) := do
  checkNode g.nodeCount a
  checkNode g.nodeCount b
  return g.masked a b

/-- `findArc`, refused for a tail that the network does not have. -/
def findArc? (g : Network α) (u v : Nat) : Except Fault (Option Nat) := do
  checkNode g.nodeCount u
  return g.findArc u v

/-- The tail and the head of `a`. -/
def ends? (g : Network α) (a : Nat) : Except Fault (Nat × Nat) := do
  checkArc g.arcCount a
  return (g.tailOf a, g.headOf a)

end Marks

end Network

end SteinerSearch
