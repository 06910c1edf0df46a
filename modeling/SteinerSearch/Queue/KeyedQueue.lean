import SteinerSearch.Network.Ids
import SteinerSearch.Queue.Buffer
import SteinerSearch.Weight

/-!
# A queue of nodes with its own keys

`KeyedQueue` is a binary heap of entries, each a node with its key.  It can be
emptied without a sweep over all nodes, which suits many small searches in a
large network.  Slots are numbered from 1, and of two children with equal keys
the left one moves up.  A slot that is given up keeps its last entry.

## Main definitions

* `Place` — where a node stands.
* `KeyedQueue` — the queue, with `insert`, `popMin?`, `keyOf?`, `forget`,
  `empty` and `clear`.
* `KeyedQueue.isOrdered` — the heap order and the places agree with the slots.
-/

namespace SteinerSearch

/-- Where a node stands in a queue with keys. -/
inductive Place where
  /-- Not inserted since it was last forgotten. -/
  | unknown
  /-- Waiting in this slot. -/
  | slot (i : Nat)
  /-- Extracted. -/
  | removed
  deriving DecidableEq, Repr

/-- A waiting node with its key. -/
structure KeyedNode (α : Type) where
  /-- The key. -/
  key : α
  /-- The node. -/
  node : Nat

/-- A binary heap of nodes with their keys. -/
structure KeyedQueue (α : Type) where
  /-- The buffer, slot 1 first. -/
  entries : Array (KeyedNode α)
  /-- The number of slots in use. -/
  count : Nat
  /-- The place of each node. -/
  place : Array Place
  /-- The buffer has the slots in use. -/
  count_le : count ≤ entries.size

namespace KeyedQueue

variable {α : Type} [Weight α]

/-- The empty queue for `n` nodes. -/
def ofCapacity (n : Nat) : KeyedQueue α where
  entries := Array.replicate n ⟨0, 0⟩
  count := 0
  place := Array.replicate n .unknown
  count_le := Nat.zero_le _

/-- The number of waiting nodes. -/
def size (q : KeyedQueue α) : Nat := q.count

/-- The number of nodes the queue is for. -/
def capacity (q : KeyedQueue α) : Nat := q.place.size

/-- The place of `v`. -/
def placeOf (q : KeyedQueue α) (v : Nat) : Place := q.place.getD v .unknown

/-- The entry in slot `i`, for a slot in use. -/
def entryAt (q : KeyedQueue α) (i : Nat) : KeyedNode α := q.entries.getD (i - 1) ⟨0, 0⟩

/-- The key of `v` if it waits. -/
def keyOf? (q : KeyedQueue α) (v : Nat) : Option α :=
  match q.placeOf v with
  | .slot i => some (q.entryAt i).key
  | .unknown | .removed => none

/-- Writes `e` into slot `i`, and the slot into the place of its node. -/
def put (q : KeyedQueue α) (i : Nat) (e : KeyedNode α) : KeyedQueue α where
  entries := q.entries.setIfInBounds (i - 1) e
  count := q.count
  place := q.place.setIfInBounds e.node (.slot i)
  count_le := by simpa using q.count_le

omit [Weight α] in
@[simp] theorem size_put (q : KeyedQueue α) (i : Nat) (e : KeyedNode α) :
    (q.put i e).size = q.size := rfl

/-! ### Sifting -/

/-- Moves the hole at slot `i` towards the root while `e` is smaller than the
entry above it, and writes `e` there. -/
def siftUp (e : KeyedNode α) (q : KeyedQueue α) (i : Nat) : KeyedQueue α :=
  if 1 < i then
    let above := q.entryAt (i / 2)
    if Weight.below e.key above.key then siftUp e (q.put i above) (i / 2) else q.put i e
  else q.put i e
termination_by i

/-- The child of slot `i` that is to move up: the left one, unless there is a
right one with a smaller key. -/
def lesserChild (q : KeyedQueue α) (i : Nat) : Nat :=
  if 2 * i < q.size && Weight.below (q.entryAt (2 * i + 1)).key (q.entryAt (2 * i)).key
  then 2 * i + 1 else 2 * i

/-- Moves the hole at slot `i` away from the root while the lesser child is
smaller than `e`, and writes `e` there. -/
def siftDown (e : KeyedNode α) (q : KeyedQueue α) (i : Nat) : KeyedQueue α :=
  if 0 < i ∧ 2 * i ≤ q.size then
    let child := q.lesserChild i
    if Weight.below (q.entryAt child).key e.key then
      siftDown e (q.put i (q.entryAt child)) child
    else q.put i e
  else q.put i e
termination_by q.size + 1 - i
decreasing_by
  simp only [size_put, lesserChild]
  split <;> simp_all <;> omega

/-! ### Operations -/

/-- Writes `e` into a new slot. -/
def append (q : KeyedQueue α) (e : KeyedNode α) : KeyedQueue α where
  entries := Buffer.write q.entries q.count e
  count := q.count + 1
  place := q.place
  count_le := Buffer.size_write q.count_le e

/-- Makes `v` wait with key `x`.  A waiting node keeps the smaller of its key and
`x`; a removed node is appended again. -/
def insert (q : KeyedQueue α) (v : Nat) (x : α) : KeyedQueue α :=
  match q.placeOf v with
  | .slot i => if Weight.below x (q.entryAt i).key then siftUp ⟨x, v⟩ q i else q
  | .unknown | .removed => siftUp ⟨x, v⟩ (q.append ⟨x, v⟩) (q.size + 1)

/-- The entry that would be extracted next. -/
def peekMin? (q : KeyedQueue α) : Option (KeyedNode α) :=
  if q.size = 0 then none else some (q.entryAt 1)

/-- Gives up the last slot, which keeps its entry. -/
def shorten (q : KeyedQueue α) : KeyedQueue α :=
  { q with count := q.count - 1, count_le := Nat.le_trans (Nat.sub_le _ _) q.count_le }

/-- Extracts the entry in slot 1: the last entry fills the gap and moves down. -/
def popMin? (q : KeyedQueue α) : Option (KeyedNode α × KeyedQueue α) :=
  q.peekMin?.map fun top =>
    -- the last entry is free once its slot is given up; it may be the top itself
    let last := q.entryAt q.size
    let rest := q.shorten
    let rest := if rest.size = 0 then rest else siftDown last rest 1
    (top, { rest with place := rest.place.setIfInBounds top.node .removed })

/-- Makes the place of `v` unknown. -/
def forget (q : KeyedQueue α) (v : Nat) : KeyedQueue α :=
  { q with place := q.place.setIfInBounds v .unknown }

/-- The waiting nodes, in the order of their slots. -/
def waiting (q : KeyedQueue α) : List Nat :=
  (List.range' 1 q.size).map fun i => (q.entryAt i).node

/-- Empties the queue and forgets the waiting nodes only. -/
def empty (q : KeyedQueue α) : KeyedQueue α :=
  { q with
    count := 0
    place := q.waiting.foldl (fun ps v => ps.setIfInBounds v .unknown) q.place
    count_le := Nat.zero_le _ }

/-- Empties the queue and forgets every node. -/
def clear (q : KeyedQueue α) : KeyedQueue α :=
  { q with
    count := 0
    place := Array.replicate q.capacity .unknown
    count_le := Nat.zero_le _ }

/-- Whether every waiting node knows its slot and no entry is smaller than the
one above it. -/
def isOrdered (q : KeyedQueue α) : Bool :=
  (List.range' 1 q.size).all fun i =>
    let e := q.entryAt i
    q.placeOf e.node = .slot i && (i == 1 || !Weight.below e.key (q.entryAt (i / 2)).key)

/-- Applies `f` if the queue is for `v`. -/
def withNode {β : Type} (q : KeyedQueue α) (v : Nat) (f : KeyedQueue α → β) :
    Except Fault β := do
  checkNode q.capacity v
  return f q

/-- `insert`, refused for a node the queue is not for and for an append to a full
queue.  A full queue is met when a waiting node was forgotten. -/
def insert? (q : KeyedQueue α) (v : Nat) (x : α) : Except Fault (KeyedQueue α) := do
  checkNode q.capacity v
  match q.placeOf v with
  | .slot _ => return q.insert v x
  | .unknown | .removed => if q.size < q.capacity then return q.insert v x else throw (.node v)

end KeyedQueue

end SteinerSearch
