import SteinerSearch.Queue.KeyedQueue

/-!
# Tables of the star search

The tables for star searches in networks of up to a given number of nodes.  A
star search restores every entry that it changed, so one set of tables serves any
number of searches.

## Main definitions

* `StarSpace` — the tables.
* `StarSpace.label`, `StarSpace.reset` — what a search does with them.
* `StarSpace.isPristine` — no search has left anything behind.
-/

namespace SteinerSearch

/-- The tables of a star search. -/
structure StarSpace (α : Type) where
  /-- The nodes that wait. -/
  queue : KeyedQueue α
  /-- The distance of each node from the center. -/
  dist : Array α
  /-- The neighbour of the center through which each node is reached. -/
  base : Array (Option Nat)
  /-- The node before each node on its path. -/
  prev : Array (Option Nat)
  /-- The place of each neighbour in the row of the center. -/
  slot : Array (Option Nat)
  /-- The nodes with changed entries. -/
  touched : Array Nat
  /-- The arcs scanned by the latest search. -/
  scanned : Nat

namespace StarSpace

variable {α : Type} [Weight α]

/-- Tables for `n` nodes. -/
def fresh (n : Nat) : StarSpace α where
  queue := KeyedQueue.ofCapacity n
  dist := Array.replicate n Weight.faraway
  base := Array.replicate n none
  prev := Array.replicate n none
  slot := Array.replicate n none
  touched := #[]
  scanned := 0

/-- The distance of `v` from the center. -/
def distOf (w : StarSpace α) (v : Nat) : α := w.dist.getD v Weight.faraway

section

omit [Weight α]

/-- The number of nodes the tables are for. -/
def capacity (w : StarSpace α) : Nat := w.dist.size

/-- The neighbour of the center through which `v` is reached. -/
def baseOf (w : StarSpace α) (v : Nat) : Option Nat := w.base.getD v none

/-- The node before `v` on its path. -/
def prevOf (w : StarSpace α) (v : Nat) : Option Nat := w.prev.getD v none

/-- The place of `v` in the row of the center. -/
def slotOf (w : StarSpace α) (v : Nat) : Option Nat := w.slot.getD v none

/-- Gives `v` a place in the row of the center. -/
def setSlot (w : StarSpace α) (v i : Nat) : StarSpace α :=
  { w with slot := w.slot.setIfInBounds v (some i) }

/-- Changes the distance of `v` only. -/
def setDist (w : StarSpace α) (v : Nat) (dist : α) : StarSpace α :=
  { w with dist := w.dist.setIfInBounds v dist }

end

/-- Labels `v`, and enters it among the touched nodes if its entries were blank. -/
def label (w : StarSpace α) (v : Nat) (dist : α) (base prev : Nat) : StarSpace α :=
  { w with
    touched :=
      if Weight.same (w.distOf v) Weight.faraway && (w.slotOf v).isNone then w.touched.push v
      else w.touched
    dist := w.dist.setIfInBounds v dist
    base := w.base.setIfInBounds v (some base)
    prev := w.prev.setIfInBounds v (some prev) }

/-- Makes `v` wait with key `x`, or lowers its key to `x`. -/
def enqueue (w : StarSpace α) (v : Nat) (x : α) : StarSpace α :=
  { w with queue := w.queue.insert v x }

/-- Restores the entries of one node. -/
def restore (w : StarSpace α) (v : Nat) : StarSpace α :=
  { w with
    dist := w.dist.setIfInBounds v Weight.faraway
    base := w.base.setIfInBounds v none
    prev := w.prev.setIfInBounds v none
    slot := w.slot.setIfInBounds v none
    queue := w.queue.forget v }

/-- Empties the queue and restores the entries of every touched node. -/
def reset (w : StarSpace α) : StarSpace α :=
  let cleared := { w with queue := w.queue.empty, touched := #[] }
  w.touched.foldl restore cleared

/-- Whether the entries of `v` are those of fresh tables. -/
def isBlankAt (w : StarSpace α) (v : Nat) : Bool :=
  Weight.same (w.distOf v) Weight.faraway && (w.baseOf v).isNone && (w.prevOf v).isNone &&
    (w.slotOf v).isNone && w.queue.placeOf v = .unknown

/-- Whether no search has left anything behind. -/
def isPristine (w : StarSpace α) : Bool :=
  w.touched.isEmpty && w.queue.size == 0 && (List.range w.capacity).all w.isBlankAt

end StarSpace

end SteinerSearch
