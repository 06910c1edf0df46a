import Std.Data.TreeMap
import SteinerSearch.Layers.Basic

/-!
# Bounds on the distance between terminals

An edge whose ends have different nearest terminals joins the regions of two
terminals.  For a label `(s, x)` at one end and a label `(t, y)` at the other, the
walk from `s` over the edge to `t` has length `x` plus the cost of the edge plus
`y`.  The least such length bounds the distance between `s` and `t`.

## Main definitions

* `PairBounds` — a bound for some pairs of terminals.
* `TerminalLayers.boundaryBounds` — the bounds read off the edges.
-/

namespace SteinerSearch

/-- The order of pairs of terminals: by the first, then by the second. -/
def comparePairs (x y : Nat × Nat) : Ordering := compareLex (compareOn Prod.fst)
  (compareOn Prod.snd) x y

/-- Bounds for some unordered pairs of terminals.  A pair is stored with its
smaller terminal first. -/
structure PairBounds (α : Type) where
  /-- The bounds by pair. -/
  bounds : Std.TreeMap (Nat × Nat) α comparePairs

namespace PairBounds

variable {α : Type}

/-- No bounds. -/
def empty : PairBounds α := ⟨{}⟩

/-- The pair of two terminals as it is stored. -/
def pair (s t : Nat) : Nat × Nat := if s < t then (s, t) else (t, s)

/-- The bound for two terminals, in either order. -/
def bound? (b : PairBounds α) (s t : Nat) : Option α := b.bounds[pair s t]?

/-- The number of pairs with a bound. -/
def size (b : PairBounds α) : Nat := b.bounds.size

/-- The pairs with their bounds, in order. -/
def toList (b : PairBounds α) : List ((Nat × Nat) × α) := b.bounds.toList

/-- Lowers the bound for two terminals to `x`, or sets it. -/
def lower [Weight α] (b : PairBounds α) (s t : Nat) (x : α) : PairBounds α :=
  match b.bound? s t with
  | some y => if Weight.below x y then ⟨b.bounds.insert (pair s t) x⟩ else b
  | none => ⟨b.bounds.insert (pair s t) x⟩

end PairBounds

namespace TerminalLayers

variable {α : Type} [Weight α]

/-- Uses label `i` of `u` and label `j` of `v`, the ends of an edge of cost
`cost`. -/
def joinLabels (t : TerminalLayers α) (u v : Nat) (cost : α) (b : PairBounds α)
    (labels : Nat × Nat) : PairBounds α :=
  let (i, j) := labels
  match t.baseOf u i, t.baseOf v j with
  | some x, some y => if x = y then b else b.lower x y (t.distOf u i + cost + t.distOf v j)
  | _, _ => b

/-- Uses every pair of labels at the ends of edge `e`, if it joins two regions. -/
def joinEdge (g : Network α) (t : TerminalLayers α) (b : PairBounds α) (e : Nat) : PairBounds α :=
  let a := Edge.forward e
  let u := g.tailOf a
  let v := g.headOf a
  if !g.isMarked u || !g.isMarked v then b
  else
    match t.baseOf u 0, t.baseOf v 0 with
    | some x, some y =>
        if x = y then b
        else
          let cost := Weight.max (g.costOf a) (g.costOf (Arc.rev a))
          let labels := (List.range (t.filledOf u)).flatMap fun i =>
            (List.range (t.filledOf v)).map fun j => (i, j)
          labels.foldl (t.joinLabels u v cost) b
    | _, _ => b

/-- The bounds read off the edges between different regions. -/
def boundaryBounds (t : TerminalLayers α) (g : Network α) : PairBounds α :=
  (List.range g.edgeCount).foldl (joinEdge g t) .empty

end TerminalLayers

end SteinerSearch
