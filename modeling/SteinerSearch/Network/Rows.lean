import SteinerSearch.Network.Basic

/-!
# Sorted rows of arcs

`Rows` lists, for every node, the arcs leaving it, ordered by the node they lead
to and then by arc.  The rows come from a network, where unmarked nodes drop
out, or from raw arrays in compressed row form: `offsets` says where each row
starts in two parallel arrays of targets and weights.

## Main definitions

* `RowEntry`, `Rows` — an arc as a row shows it, and the rows.
* `Rows.ofNetwork` — the rows of the marked part of a network.
* `Rows.ofRaw` — the rows of raw arrays, or the first thing wrong with them.
* `Rows.ranges` — where each row lies when the rows are laid out in sequence.
-/

namespace SteinerSearch

/-- An arc as the row of its tail shows it. -/
structure RowEntry (α : Type) where
  /-- The node the arc leads to. -/
  head : Nat
  /-- The cost of the arc. -/
  cost : α
  /-- The arc of the network, or the position in the raw arrays. -/
  arc : Nat
  deriving Repr

/-- The order of a row: by head, then by arc. -/
def RowEntry.le {α : Type} (x y : RowEntry α) : Bool :=
  x.head < y.head || (x.head == y.head && x.arc ≤ y.arc)

/-- For every node, the arcs leaving it in order. -/
structure Rows (α : Type) where
  /-- The rows, by node. -/
  rows : Array (List (RowEntry α))

namespace Rows

variable {α : Type}

/-- The number of nodes. -/
def nodeCount (r : Rows α) : Nat := r.rows.size

/-- The row of `v`. -/
def row (r : Rows α) (v : Nat) : List (RowEntry α) := r.rows.getD v []

/-- The number of arcs in the row of `v`. -/
def degree (r : Rows α) (v : Nat) : Nat := (r.row v).length

/-- All rows in sequence. -/
def entries (r : Rows α) : List (RowEntry α) := r.rows.toList.flatten

/-- The first position and the end of each of several rows laid out from
position `start`. -/
def rangesFrom (start : Nat) : List (List (RowEntry α)) → List (Nat × Nat)
  | [] => []
  | row :: rows => (start, start + row.length) :: rangesFrom (start + row.length) rows

/-- Where each row lies when the rows are laid out in sequence. -/
def ranges (r : Rows α) : List (Nat × Nat) := rangesFrom 0 r.rows.toList

/-- The rows of a network.  An arc is left out if one of its ends is unmarked. -/
def ofNetwork [Weight α] (g : Network α) : Rows α :=
  let row (v : Nat) : List (RowEntry α) :=
    if g.isMarked v then
      let arcs := (g.outArcs v).filter fun a => g.isMarked (g.headOf a)
      (arcs.map fun a => ⟨g.headOf a, g.costOf a, a⟩).mergeSort RowEntry.le
    else []
  ⟨(g.nodes.map row).toArray⟩

/-! ### Raw arrays -/

section Raw

variable [Weight α]

/-- The entry at position `e` of the row of `v`, checked: its target is another
node and its weight is admissible. -/
def rawEntry (n : Nat) (targets : Array Nat) (weights : Array α) (v e : Nat) :
    Except (NetworkError α) (RowEntry α) :=
  let target := targets.getD e 0
  let weight := weights.getD e 0
  if n ≤ target then .error (.nodeOutOfRange target n)
  else if target = v then .error (.selfLoop target)
  else if !Weight.admissible weight then .error (.invalidCost weight)
  else .ok ⟨target, weight, e⟩

/-- The row of `v` in raw arrays, sorted. -/
def rawRow (offsets targets : Array Nat) (weights : Array α) (v : Nat) :
    Except (NetworkError α) (List (RowEntry α)) := do
  let start := offsets.getD v 0
  let stop := offsets.getD (v + 1) 0
  let entries ← (List.range' start (stop - start)).mapM
    (rawEntry (offsets.size - 1) targets weights v)
  return entries.mergeSort RowEntry.le

/-- Row offsets start at zero and do not decrease. -/
def offsetsOrdered (offsets : Array Nat) : Bool :=
  offsets.getD 0 0 == 0 &&
    (List.range (offsets.size - 1)).all fun v => offsets.getD v 0 ≤ offsets.getD (v + 1) 0

/-- The rows of raw arrays.  The shape is checked first, then the entries from
the first position on.  The arc of an entry is its position in the arrays. -/
def ofRaw (offsets targets : Array Nat) (weights : Array α) :
    Except (NetworkError α) (Rows α) := do
  if offsets.size = 0 then throw .offsetsMissing
  if !offsetsOrdered offsets then throw .offsetsUnordered
  let n := offsets.size - 1
  let m := offsets.getD n 0
  if targets.size < m || weights.size < m then throw (.entriesMissing m)
  let rows ← (List.range n).mapM (rawRow offsets targets weights)
  return ⟨rows.toArray⟩

end Raw

end Rows

end SteinerSearch
