import SteinerSearch.Network.Basic
import SteinerSearch.Queue.NodeQueue
import SteinerSearch.Stepping

/-!
# Nearest terminals in layers

Layer `l` of a node holds the terminal that is nearest to it among those not held
by its lower layers, with the distance and the arc over which the label arrived.
Required and optional terminals count alike, and only marked nodes take part.

All labels wait in one queue, layer `l` of node `v` as slot `l * n + v`.  Labels
are settled in the order of their distance, so the layers of a node are filled
from below and their distances do not decrease.

Paths to the designated root are measured along the arc directions away from it;
every other label measures the way from the node to its terminal.

## Main definitions

* `TerminalLayers` — the labels of all layers.
* `TerminalLayers.compute` — the search.
* `TerminalLayers.areOrdered` — the layers of a node do not decrease, and no
  terminal is in two of them.
-/

namespace SteinerSearch

/-- The labels of all layers. -/
structure TerminalLayers (α : Type) where
  /-- The number of nodes. -/
  nodeCount : Nat
  /-- The number of layers. -/
  layers : Nat
  /-- The distance in each slot. -/
  dist : Array α
  /-- The terminal in each slot. -/
  base : Array (Option Nat)
  /-- The arc over which the label of each slot arrived. -/
  pred : Array (Option Nat)
  /-- The number of filled layers of each node. -/
  filled : Array Nat

namespace TerminalLayers

/-- The largest number of layers. -/
def maxLayers : Nat := 4

variable {α : Type}

/-- The slot of layer `layer` of `v`. -/
def slot (t : TerminalLayers α) (layer v : Nat) : Nat := layer * t.nodeCount + v

/-- The number of layers of `v` that hold a terminal. -/
def filledOf (t : TerminalLayers α) (v : Nat) : Nat := t.filled.getD v 0

/-- The terminal in slot `x`. -/
def baseIn (t : TerminalLayers α) (x : Nat) : Option Nat := t.base.getD x none

/-- The terminal in layer `layer` of `v`. -/
def baseOf (t : TerminalLayers α) (v layer : Nat) : Option Nat :=
  if layer < t.filledOf v then t.baseIn (t.slot layer v) else none

/-- The arc over which the label in layer `layer` of `v` arrived. -/
def predOf (t : TerminalLayers α) (v layer : Nat) : Option Nat :=
  if layer < t.filledOf v then t.pred.getD (t.slot layer v) none else none

/-- Whether a filled layer of `v` holds the terminal `b`. -/
def holds (t : TerminalLayers α) (v b : Nat) : Bool :=
  (List.range (t.filledOf v)).any fun layer => t.baseIn (t.slot layer v) == some b

/-- Writes a label into slot `x`. -/
def setLabel (t : TerminalLayers α) (x : Nat) (dist : α) (base : Nat) (pred : Option Nat) :
    TerminalLayers α :=
  { t with
    dist := t.dist.setIfInBounds x dist
    base := t.base.setIfInBounds x (some base)
    pred := t.pred.setIfInBounds x pred }

variable [Weight α]

/-- The distance in slot `x`. -/
def distIn (t : TerminalLayers α) (x : Nat) : α := t.dist.getD x Weight.faraway

/-- The distance in layer `layer` of `v`. -/
def distOf (t : TerminalLayers α) (v layer : Nat) : α := t.distIn (t.slot layer v)

/-- Blank layers for `n` nodes. -/
def blank (n layers : Nat) : TerminalLayers α where
  nodeCount := n
  layers := layers
  dist := Array.replicate (layers * n) Weight.faraway
  base := Array.replicate (layers * n) none
  pred := Array.replicate (layers * n) none
  filled := Array.replicate n 0

/-! ### Search -/

/-- What the arc `a`, over which a label moves, costs the label of terminal `b`. -/
def stepCost (g : Network α) (a b : Nat) : α :=
  if g.root = some b then g.costOf a else g.costOf (Arc.rev a)

/-- The state of a search: the labels and the slots that wait. -/
structure State (α : Type) where
  /-- The labels. -/
  labels : TerminalLayers α
  /-- The slots that wait, ordered by distance. -/
  queue : NodeQueue

/-- The distances as queue keys. -/
def keyIn (dist : Array α) (x : Nat) : α := dist.getD x Weight.faraway

/-- Makes slot `x` wait. -/
def State.enqueue (s : State α) (x : Nat) : State α :=
  { s with queue := s.queue.insert (keyIn s.labels.dist) x }

/-- Starts at a terminal: it is its own nearest terminal. -/
def seed (s : State α) (b : Nat) : State α :=
  { s with labels := s.labels.setLabel b 0 b none }.enqueue b

/-- Offers the terminal `b`, settled at distance `dist`, over arc `a` to the open
layer of the node that `a` leads to. -/
def offer (g : Network α) (b : Nat) (dist : α) (s : State α) (a : Nat) : State α :=
  let t := s.labels
  let m := g.headOf a
  if !g.isMarked m then s
  else if t.filledOf m = t.layers ∨ t.holds m b then s
  else
    let x := t.slot (t.filledOf m) m
    let d := dist + stepCost g a b
    if Weight.below d (t.distIn x) then
      { s with labels := t.setLabel x d b (some a) }.enqueue x
    else s

/-- Takes the label in layer `layer` of `u` over arc `a` into slot `x` of `v`, if
it is an improvement there and its terminal is new to `v`. -/
def takeLabel (g : Network α) (v x u a : Nat) (t : TerminalLayers α) (layer : Nat) :
    TerminalLayers α :=
  match t.baseIn (t.slot layer u) with
  | none => t
  | some b =>
      if t.holds v b then t
      else
        let d := t.distOf u layer + stepCost g a b
        if Weight.below d (t.distIn x) then t.setLabel x d b (some a) else t

/-- Takes the settled labels of the neighbour that `a` leads to into slot `x` of
`v`. -/
def takeFrom (g : Network α) (v x : Nat) (t : TerminalLayers α) (a : Nat) : TerminalLayers α :=
  let u := g.headOf a
  if g.isMarked u then
    (List.range (t.filledOf u)).foldl (takeLabel g v x u (Arc.rev a)) t
  else t

/-- Opens the next layer of `v`, in slot `x`, with the best label its neighbours
can give. -/
def openLayer (g : Network α) (v x : Nat) (s : State α) : State α :=
  let s := { s with labels := (g.outArcs v).foldl (takeFrom g v x) s.labels }
  if (s.labels.baseIn x).isSome then s.enqueue x else s

/-- Settles the nearest waiting slot: its label is offered to the neighbours, and
the next layer of its node is opened. -/
def settleNext (g : Network α) (s : State α) : Progress (State α) Unit :=
  match s.queue.popMin? (keyIn s.labels.dist) with
  | none => .done () s
  | some (x, queue) =>
      let n := s.labels.nodeCount
      let layer := x / n
      let v := x % n
      let t := s.labels
      -- the label is final, so its layer is filled before it is offered
      let t := { t with filled := t.filled.setIfInBounds v (t.filledOf v + 1) }
      let s : State α := ⟨t, queue⟩
      match t.baseIn x with
      | none => .more s
      | some b =>
          let s := (g.outArcs v).foldl (offer g b (t.distIn x)) s
          if layer + 1 < t.layers then .more (openLayer g v (t.slot (layer + 1) v) s)
          else .more s

/-- Labels every marked node with up to `layers` nearest terminals.  The number of
layers is kept between one and `maxLayers`.  Every slot is settled at most once. -/
def compute (g : Network α) (layers : Nat) : TerminalLayers α :=
  let layers := Nat.min (Nat.max layers 1) maxLayers
  let n := g.nodeCount
  let sources := g.nodes.filter fun v => g.isTerminal v && g.isMarked v
  let start : State α := ⟨blank n layers, NodeQueue.empty (layers * n)⟩
  match Progress.run (settleNext g) () (layers * n + 1) (sources.foldl seed start) with
  | .ok ((), s) => s.labels
  | .error _ => start.labels

/-- Whether the layers of a node do not decrease and no terminal is in two of
them, at every node. -/
def areOrdered (t : TerminalLayers α) : Bool :=
  (List.range t.nodeCount).all fun v =>
    let k := t.filledOf v
    (List.range' 1 (t.layers - 1)).all (fun l =>
      !Weight.above (t.distOf v (l - 1)) (t.distOf v l)) &&
    (List.range k).all fun i =>
      (List.range' (i + 1) (k - (i + 1))).all fun j => t.baseOf v i != t.baseOf v j

end TerminalLayers

end SteinerSearch
