import SteinerSearch.Stepping
import SteinerSearch.Traversal
import SteinerSearch.Walk.Ledger

/-!
# Walks with prizes

A walk search looks for a cheap walk from a start to a goal.  Entering a terminal
may be credited with its prize, which lowers the label of the node, though never
below zero.  Neither the start nor the goal is passed through.  A settled node
goes back to unknown, so that a cheaper walk may label it again; only required
terminals stay settled.

The distance limit is checked after the credit, so a prize can pull a label back
under the limit.  The goal is never refused.

## Main definitions

* `WalkQuery` — what to look for, and under which limits.
* `WalkOutcome` — what was found.
* `Walk.runOn`, `Walk.run` — the search.
-/

namespace SteinerSearch

/-- What to look for, and under which limits. -/
structure WalkQuery (α : Type) where
  /-- Where the walk starts. -/
  start : Nat
  /-- Where the walk ends. -/
  goal : Nat
  /-- Labels above this distance are dropped. -/
  maxDistance : α
  /-- The number of arc scans that are allowed.  The largest number of 64 bits is no limit. -/
  arcLimit : Nat

/-- Whether the number of scans is limited.  Scans are counted with 64 bits, so that the count
never exceeds the largest number of 64 bits. -/
def WalkQuery.isLimited {α : Type} (query : WalkQuery α) : Bool :=
  query.arcLimit < 18446744073709551615

/-- What a walk search found. -/
inductive WalkOutcome (α : Type) where
  /-- The goal was settled with this label. -/
  | reached (distance : α)
  /-- No walk within the distance limit. -/
  | notFound
  /-- The scan limit was exceeded. -/
  | overBudget

namespace WalkOutcome

variable {α : Type}

/-- Whether the goal was settled. -/
def isSuccess : WalkOutcome α → Bool
  | .reached _ => true
  | .notFound | .overBudget => false

/-- The length of the walk, if the goal was settled. -/
def distance? : WalkOutcome α → Option α
  | .reached d => some d
  | .notFound | .overBudget => none

end WalkOutcome

/-- A walk search. -/
structure Walk (α : Type) where
  /-- The network, with start and goal unmarked. -/
  network : Network α
  /-- The arc costs. -/
  costs : CostView α
  /-- How credits are kept track of. -/
  ledger : Ledger
  /-- What to look for. -/
  query : WalkQuery α

namespace Walk

variable {α : Type} [Weight α]

/-- The state of a walk search. -/
structure State (α : Type) where
  /-- The tables. -/
  space : Workspace α
  /-- Arcs scanned so far. -/
  scanned : Nat

/-- Whether the prize of `m` is credited when it is labeled from `k`. -/
def credits (t : Walk α) (w : Workspace α) (k m : Nat) : Bool :=
  m ≠ t.query.goal && t.network.isTerminal m && !Weight.negligible (t.network.prizeOf m) &&
    t.ledger.mayCredit t.network w k m

/-- The label of `m` when it is reached over an arc of cost `cost` from a node
labeled `base`. -/
def labelOf (t : Walk α) (base cost : α) (m : Nat) (credit : Bool) : α :=
  if credit then Weight.max (base + cost - t.network.prizeOf m) 0 else base + cost

/-- Takes arc `a`, of cost `cost`, from `k` to `m`. -/
def take (t : Walk α) (k m a : Nat) (base cost : α) (w : Workspace α) : Workspace α :=
  let credit := t.credits w k m
  let d := t.labelOf base cost m credit
  if Weight.above d t.query.maxDistance then w
  else if Weight.below d (w.distOf m) then
    (t.ledger.record t.network (w.setLabel m d (some a)) k m a credit).enqueue m
  else w

/-- Scans arc `a` out of `k`, which is labeled `base`. -/
def scan (t : Walk α) (k : Nat) (base : α) (s : State α) (a : Nat) :
    Except (Halt (State α)) (State α) :=
  let m := t.network.headOf a
  if m ≠ t.query.goal ∧ !t.network.isMarked m then .ok s
  else if s.space.isSettled m then .ok s
  else
    -- an arc counts as scanned even if the ledger refuses it
    let s := { s with scanned := s.scanned + 1 }
    if t.query.isLimited ∧ t.query.arcLimit < s.scanned then .error (.overBudget s)
    else if m ≠ t.query.goal ∧ t.ledger.refuses t.network s.space k m a then .ok s
    else
      match t.costs a with
      | none => .error (.fault (.arc a))
      | some cost => .ok { s with space := t.take k m a base cost s.space }

/-- Settles the nearest waiting node and scans its arcs, unless it is the goal. -/
def settleNext (t : Walk α) (s : State α) : Progress (State α) (WalkOutcome α) :=
  match s.space.popMin? with
  | none => .done .notFound s
  | some (k, space) =>
      let s := { s with space := space }
      if k = t.query.goal then .done (.reached (space.distOf k)) s
      else
        -- a node that is no required terminal may be labeled and settled again
        let s := if t.network.isRequired k then s else { s with space := space.unsettle k }
        .ofScan .overBudget ((t.network.outArcs k).foldlM (t.scan k (space.distOf k)) s)

/-- More steps than a search in `g` can take.  The start waits at first; besides, a node waits
only after its label fell.  A label of 64 bits can fall less than `2 ^ 64` times, whatever the
costs are.  An exact label falls by more than the tolerance each time, from no more than the
distance of an unreached node, and so less than `2 ^ 80` times before it is negative. -/
def fuel (g : Network α) : Nat := (g.nodeCount + 1) * Nat.pow 2 80

/-- Looks for a walk, in a workspace that was reset.  Start and goal are unmarked while
the search lasts, and their marks are put back however it ends. -/
def runOn (g : Network α) (costs : CostView α) (ledger : Ledger) (query : WalkQuery α)
    (w : Workspace α) : Except Fault (WalkOutcome α × Network α × Workspace α) := do
  checkNode g.nodeCount query.start
  if g.degreeOf query.start = 0 then return (.notFound, g, w)
  checkNode g.nodeCount query.goal
  if g.degreeOf query.goal = 0 then return (.notFound, g, w)
  let noted := g.marksOf [query.start, query.goal]
  let t : Walk α := ⟨g.masked query.start query.goal, costs, ledger, query⟩
  let w := (w.setLabel query.start 0 none).enqueue query.start
  let (outcome, s) ← Progress.run t.settleNext .notFound (fuel t.network) ⟨w, 0⟩
  return (outcome, t.network.restoreMarks noted, s.space)

/-- What is found, and the workspace after the search. -/
def run (g : Network α) (costs : CostView α) (ledger : Ledger) (query : WalkQuery α)
    (w : Workspace α) : Except Fault (WalkOutcome α × Workspace α) := do
  let (outcome, _, w) ← runOn g costs ledger query w
  return (outcome, w)

end Walk

end SteinerSearch
