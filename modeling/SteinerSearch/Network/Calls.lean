import SteinerSearch.Network.Basic

/-!
# Building a network in place

The user of a network builds it by calls, one after the other, and goes on with it when a
call was refused.  A call works on the network in place: it checks its arguments and then
writes to the tables.  Nothing takes back what a call has written by the time it is refused.

## Main definitions

* `Network.Call` — a construction step with its arguments.
* `Network.InPlace` — work on a network, which may be refused on the way.
* `Network.Call.perform` — what a call does.
* `Network.afterCalls` — a network after some calls.
-/

namespace SteinerSearch

namespace Network

variable {α : Type}

/-- A construction step with its arguments. -/
inductive Call (α : Type) where
  /-- Add an edge with the same cost both ways. -/
  | addEdge (u v : Nat) (cost : α)
  /-- Add an edge with a cost for each way. -/
  | addArcPair (u v : Nat) (forward backward : α)
  /-- Make `v` a node of the given kind. -/
  | setTerminal (v : Nat) (kind : TerminalKind)
  /-- Give `v` a prize. -/
  | setPrize (v : Nat) (prize : α)
  /-- Designate `v` as the root. -/
  | setRoot (v : Nat)
  /-- Mark or unmark `v`. -/
  | setMark (v : Nat) (mark : Bool)

/-- What a call answers. -/
inductive Answer where
  /-- The edge that was added. -/
  | edge (e : Nat)
  /-- Nothing but that it is done. -/
  | done
  deriving DecidableEq, Repr

/-- Why a call was refused. -/
inductive Refusal (α : Type) where
  /-- The construction step does not allow its arguments. -/
  | disallowed (e : NetworkError α)
  /-- A table has no entry for a number. -/
  | absent (f : Fault)
  deriving DecidableEq, Repr

/-- Work on a network in place.  What was written before a refusal stays written. -/
abbrev InPlace (α : Type) : Type → Type := EStateM (Refusal α) (Network α)

namespace InPlace

/-- Goes on if the check is passed. -/
def ensure (check : Network α → Except (Refusal α) Unit) : InPlace α Unit := do
  match check (← get) with
  | .ok () => return ()
  | .error r => throw r

/-- Goes on if the network has the node `v`. -/
def ensureNode (v : Nat) : InPlace α Unit :=
  ensure fun g => (g.requireNode v).mapError .disallowed

/-- Goes on if there is a mark for `v`. -/
def ensureMark (v : Nat) : InPlace α Unit :=
  ensure fun g => (checkNode g.nodeCount v).mapError .absent

variable [Weight α]

/-- Goes on if `c` may be the cost of an arc. -/
def ensureCost (c : α) : InPlace α Unit :=
  ensure fun _ => (requireCost c).mapError .disallowed

/-- Adds two opposite arcs, one after the other. -/
def addArcPair (u v : Nat) (forward backward : α) : InPlace α Answer := do
  ensureNode u
  ensureNode v
  if u = v then throw (.disallowed (.selfLoop u))
  ensureCost forward
  ensureCost backward
  let edge := (← get).edgeCount
  modify (·.pushArc u v forward)
  modify (·.pushArc v u backward)
  return .edge edge

end InPlace

variable [Weight α]

/-- What a call does to the network it is made on. -/
def Call.perform : Call α → InPlace α Answer
  | .addEdge u v cost => InPlace.addArcPair u v cost cost
  | .addArcPair u v forward backward => InPlace.addArcPair u v forward backward
  | .setTerminal v kind => do
      InPlace.ensureNode v
      modify fun g => { g with kind := g.kind.setIfInBounds v kind }
      return .done
  | .setPrize v prize => do
      InPlace.ensureNode v
      if !Weight.admissible prize then throw (.disallowed (.invalidPrize v prize))
      modify fun g => { g with prize := g.prize.setIfInBounds v prize }
      return .done
  | .setRoot v => do
      InPlace.ensureNode v
      modify fun g => { g with root := some v }
      return .done
  | .setMark v mark => do
      InPlace.ensureMark v
      modify (·.setMark v mark)
      return .done

/-- The network after a call, as the call leaves it when it is done or refused. -/
def afterCall (g : Network α) (c : Call α) : Network α :=
  match c.perform.run g with
  | .ok _ g' => g'
  | .error _ g' => g'

/-- The network after some calls. -/
def afterCalls (g : Network α) (calls : List (Call α)) : Network α := calls.foldl afterCall g

end Network

end SteinerSearch
