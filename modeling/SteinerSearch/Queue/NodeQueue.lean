import SteinerSearch.Network.Ids
import SteinerSearch.Queue.Buffer
import SteinerSearch.Weight

/-!
# A queue of nodes with outside keys

`NodeQueue` is a binary heap of nodes.  It holds no keys: every operation that
compares nodes is given the keys it is to compare.  The searches keep their
distance table as the keys, so lowering a distance and telling the queue about
it are two separate steps.

Slots are numbered from 1, so that the parent of slot `i` is slot `i / 2` and
its children are `2 * i` and `2 * i + 1`.  Of two children with equal keys the
left one moves up, which makes the order of extraction reproducible.  The slots lie in
a buffer that never shrinks, so a slot that is given up keeps its last node.

## Main definitions

* `NodeState` — what the queue knows about a node.
* `Usage` — counters over the lifetime of a queue.
* `NodeQueue` — the queue, with `insert`, `reopen`, `peekMin?`, `popMin?`,
  `clear` and `setState`.
* `NodeQueue.isOrdered` — the heap order and the states agree with the slots.
-/

namespace SteinerSearch

/-- What a queue knows about a node. -/
inductive NodeState where
  /-- Not inserted since the queue was last cleared of it. -/
  | unknown
  /-- Waiting in this slot. -/
  | queued (slot : Nat)
  /-- Extracted. -/
  | settled
  deriving DecidableEq, Repr

/-- Counters over the lifetime of a queue.  Lowering a key counts for none. -/
structure Usage where
  /-- Nodes appended. -/
  pushes : Nat := 0
  /-- Nodes extracted. -/
  pops : Nat := 0
  /-- The largest number of nodes waiting at once. -/
  peak : Nat := 0
  deriving DecidableEq, Repr

/-- A binary heap of nodes, ordered by keys kept elsewhere. -/
@[ext]
structure NodeQueue where
  /-- The buffer, slot 1 first. -/
  slots : Array Nat
  /-- The number of slots in use.  They hold the waiting nodes. -/
  count : Nat
  /-- The state of each node. -/
  state : Array NodeState
  /-- The counters. -/
  usage : Usage
  /-- The buffer has the slots in use. -/
  count_le : count ≤ slots.size

namespace NodeQueue

variable {α : Type} [Weight α]

/-- The empty queue for `n` nodes. -/
def empty (n : Nat) : NodeQueue where
  slots := Array.replicate n 0
  count := 0
  state := Array.replicate n .unknown
  usage := {}
  count_le := Nat.zero_le _

/-- The number of waiting nodes. -/
def size (q : NodeQueue) : Nat := q.count

/-- The number of nodes the queue is for. -/
def capacity (q : NodeQueue) : Nat := q.state.size

/-- The state of `v`. -/
def stateOf (q : NodeQueue) (v : Nat) : NodeState := q.state.getD v .unknown

/-- Whether `v` was extracted and not inserted again. -/
def isSettled (q : NodeQueue) (v : Nat) : Bool := q.stateOf v = .settled

/-- The node in slot `i`, for a slot in use. -/
def nodeAt (q : NodeQueue) (i : Nat) : Nat := q.slots.getD (i - 1) 0

/-- Writes `v` into slot `i`, and the slot into the state of `v`. -/
def put (q : NodeQueue) (i : Nat) (v : Nat) : NodeQueue :=
  { q with
    slots := q.slots.setIfInBounds (i - 1) v
    state := q.state.setIfInBounds v (.queued i)
    count_le := by simpa using q.count_le }

@[simp] theorem size_put (q : NodeQueue) (i : Nat) (v : Nat) : (q.put i v).size = q.size := rfl

/-! ### Sifting

Both sifts move a hole: slot `i` is free, and `v` is to be written at the end of
the hole's way. -/

/-- Moves the hole at slot `i` towards the root while `v` is smaller than the
node above it. -/
def siftUp (key : Nat → α) (v : Nat) (q : NodeQueue) (i : Nat) : NodeQueue :=
  if 1 < i then
    let p := q.nodeAt (i / 2)
    if Weight.below (key v) (key p) then siftUp key v (q.put i p) (i / 2) else q.put i v
  else q.put i v
termination_by i

/-- The child of slot `i` that is to move up: the left one, unless there is a
right one with a smaller key. -/
def lesserChild (key : Nat → α) (q : NodeQueue) (i : Nat) : Nat :=
  if 2 * i < q.size && Weight.below (key (q.nodeAt (2 * i + 1))) (key (q.nodeAt (2 * i)))
  then 2 * i + 1 else 2 * i

/-- Moves the hole at slot `i` away from the root while the lesser child is
smaller than `v`. -/
def siftDown (key : Nat → α) (v : Nat) (q : NodeQueue) (i : Nat) : NodeQueue :=
  if 0 < i ∧ 2 * i ≤ q.size then
    let c := q.lesserChild key i
    if Weight.below (key (q.nodeAt c)) (key v) then siftDown key v (q.put i (q.nodeAt c)) c
    else q.put i v
  else q.put i v
termination_by q.size + 1 - i
decreasing_by
  simp only [size_put, lesserChild]
  split <;> simp_all <;> omega

/-! ### Operations -/

/-- Writes `v` into a new slot. -/
def append (q : NodeQueue) (v : Nat) : NodeQueue where
  slots := Buffer.write q.slots q.count v
  count := q.count + 1
  state := q.state
  usage := { q.usage with
    pushes := q.usage.pushes + 1, peak := Nat.max q.usage.peak (q.count + 1) }
  count_le := Buffer.size_write q.count_le v

/-- Appends `v` and restores the order. -/
def push (q : NodeQueue) (key : Nat → α) (v : Nat) : NodeQueue :=
  siftUp key v (q.append v) (q.size + 1)

/-- Makes `v` wait: appended if it is unknown, moved towards the root if it
already waits and its key was lowered.  An extracted node stays extracted. -/
def insert (q : NodeQueue) (key : Nat → α) (v : Nat) : NodeQueue :=
  match q.stateOf v with
  | .unknown => q.push key v
  | .queued i => siftUp key v q i
  | .settled => q

/-- Like `insert`, but an extracted node waits again. -/
def reopen (q : NodeQueue) (key : Nat → α) (v : Nat) : NodeQueue :=
  match q.stateOf v with
  | .queued i => siftUp key v q i
  | .unknown | .settled => q.push key v

/-- The node that would be extracted next. -/
def peekMin? (q : NodeQueue) : Option Nat := if q.size = 0 then none else some (q.nodeAt 1)

/-- Gives up the last slot, which keeps its node. -/
def shorten (q : NodeQueue) : NodeQueue :=
  { q with count := q.count - 1, count_le := Nat.le_trans (Nat.sub_le _ _) q.count_le }

/-- Extracts the node in slot 1: the last node fills the gap and moves down. -/
def popMin? (q : NodeQueue) (key : Nat → α) : Option (Nat × NodeQueue) :=
  q.peekMin?.map fun top =>
    -- the last node is free once its slot is given up; it may be the top itself
    let last := q.nodeAt q.size
    let rest := q.shorten
    let rest := if rest.size = 0 then rest else siftDown key last rest 1
    (top, { rest with
      state := rest.state.setIfInBounds top .settled
      usage := { rest.usage with pops := rest.usage.pops + 1 } })

/-- Sets the state of a node that does not wait. -/
def setState (q : NodeQueue) (v : Nat) (s : NodeState) : NodeQueue :=
  { q with state := q.state.setIfInBounds v s }

/-- The waiting nodes, in the order of their slots. -/
def waiting (q : NodeQueue) : List Nat := (List.range' 1 q.size).map q.nodeAt

/-- Empties the queue.  Waiting nodes become unknown; extracted nodes keep their
state.  The slots are given up as they are. -/
def clear (q : NodeQueue) : NodeQueue :=
  { q with
    count := 0
    state := q.waiting.foldl (fun st v => st.setIfInBounds v .unknown) q.state
    count_le := Nat.zero_le _ }

/-- Starts the counters anew. -/
def resetUsage (q : NodeQueue) : NodeQueue := { q with usage := {} }

/-- Whether every waiting node knows its slot and no node is smaller than the one
above it. -/
def isOrdered (q : NodeQueue) (key : Nat → α) : Bool :=
  (List.range' 1 q.size).all fun i =>
    let v := q.nodeAt i
    q.stateOf v = .queued i && (i == 1 || !Weight.below (key v) (key (q.nodeAt (i / 2))))

/-- Applies `f` if the queue is for `v`. -/
def withNode {β : Type} (q : NodeQueue) (v : Nat) (f : NodeQueue → β) : Except Fault β := do
  checkNode q.capacity v
  return f q

end NodeQueue

end SteinerSearch
