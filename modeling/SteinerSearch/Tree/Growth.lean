import SteinerSearch.Stepping
import SteinerSearch.Tree.Basic
import SteinerSearch.Workspace

/-!
# Growing a tree

A tree grows by one continued shortest-path search from all of its nodes.  When a
settled node is worth connecting, the whole labeled path to it joins the tree: its
nodes drop to distance zero and wait again, so that the search goes on from the
new branch at no cost.

A required terminal is always worth connecting.  An optional terminal is, under a
profit rule, if prizes pay for its branch.

## Main definitions

* `Credit`, `GrowthRule` — what is worth connecting.
* `Growth` — growth in a network, with `Growth.growFrom` and `Growth.extend`.
* `GrowthOutcome` — whether all required terminals were reached.
-/

namespace SteinerSearch

/-- Which prizes pay for the branch to an optional terminal. -/
inductive Credit where
  /-- The prize of the terminal alone. -/
  | targetOnly
  /-- The prizes of all optional terminals on the branch. -/
  | alongPath
  deriving DecidableEq, Repr

/-- Which nodes are worth connecting. -/
inductive GrowthRule where
  /-- Required terminals. -/
  | required
  /-- Also optional terminals whose branch is paid for. -/
  | profitable (credit : Credit)
  deriving DecidableEq, Repr

/-- How a growth ended. -/
inductive GrowthOutcome where
  /-- Every marked required terminal is in the tree. -/
  | complete
  /-- So many marked required terminals cannot be reached. -/
  | unreachable (count : Nat)
  deriving DecidableEq, Repr

/-- The outcome when `missing` marked required terminals are left. -/
def GrowthOutcome.ofMissing (missing : Nat) : GrowthOutcome :=
  if missing = 0 then .complete else .unreachable missing

/-- Growth in a network. -/
structure Growth (α : Type) where
  /-- The network. -/
  network : Network α
  /-- The arc costs. -/
  costs : CostView α
  /-- What is worth connecting. -/
  rule : GrowthRule

namespace Growth

variable {α : Type} [Weight α]

/-- The state of a growth. -/
structure State (α : Type) where
  /-- The tables. -/
  space : Workspace α
  /-- The tree so far. -/
  tree : Tree
  /-- Marked required terminals outside the tree. -/
  openRequired : Nat
  /-- Nodes added to the tree. -/
  added : Nat
  /-- What the optional terminals outside the tree could still pay. -/
  bound : α

/-- The prizes of the marked optional terminals outside a tree. -/
def openPrizes (g : Network α) (t : Tree) : List α :=
  (g.nodes.filter fun v => g.isPseudo v && g.isMarked v && !t.contains v).map g.prizeOf

/-- What the optional terminals outside a tree could pay for one branch. -/
def prizeBound (c : Growth α) (t : Tree) : α :=
  match c.rule with
  | .required => 0
  | .profitable .targetOnly => Weight.largest (openPrizes c.network t)
  | .profitable .alongPath => Weight.sum (openPrizes c.network t)

/-- Adds to `prize` the prizes of the optional terminals on the labeled path from
the tree to `v`, without `v`. -/
def prizeAlong (g : Network α) (w : Workspace α) (t : Tree) : Nat → Nat → α → α
  | 0, _, prize => prize
  | fuel + 1, v, prize =>
      match w.predOf v with
      | none => prize
      | some a =>
          let u := g.tailOf a
          if t.contains u then prize
          else prizeAlong g w t fuel u (if g.isPseudo u then prize + g.prizeOf u else prize)

/-- The prizes that pay for the branch to the optional terminal `k`. -/
def creditedPrize (c : Growth α) (credit : Credit) (w : Workspace α) (t : Tree) (k : Nat) : α :=
  let prize := c.network.prizeOf k
  match credit with
  | .targetOnly => prize
  | .alongPath => prizeAlong c.network w t c.network.nodeCount k prize

/-- Whether the settled node `k` is worth connecting. -/
def isWorth (c : Growth α) (w : Workspace α) (t : Tree) (k : Nat) : Bool :=
  c.network.isRequired k ||
    match c.rule with
    | .required => false
    | .profitable credit =>
        c.network.isPseudo k && Weight.atLeast (c.creditedPrize credit w t k) (w.distOf k)

/-- Connects `v` over the arc of its label, and makes it wait at distance zero. -/
def join (g : Network α) (v : Nat) (s : State α) : State α :=
  { s with
    tree := s.tree.connect v (s.space.predOf v)
    openRequired := if g.isRequired v then s.openRequired - 1 else s.openRequired
    added := s.added + 1
    space := (s.space.setDist v 0).reopen v }

/-- Connects the labeled path that ends in `v`, back to the first node that is in
the tree.  Every node on the way is new, so there are at most `fuel` of them if
`fuel` is the number of nodes. -/
def splice (g : Network α) : Nat → Nat → State α → State α
  | 0, _, s => s
  | fuel + 1, v, s =>
      if s.tree.contains v then s
      else
        match s.space.predOf v with
        | some a => splice g fuel (g.tailOf a) (join g v s)
        | none => join g v s

/-- Takes arc `a` out of a node labeled `base`. -/
def take (c : Growth α) (base : α) (s : State α) (a : Nat) : Except Fault (State α) := do
  let m := c.network.headOf a
  if !c.network.isMarked m || s.tree.contains m then return s
  else
    let d := base + (← Tree.arcCost c.costs a)
    checkNode s.space.capacity m
    if Weight.below d (s.space.distOf m) then
      return { s with space := (s.space.setLabel m d (some a)).reopen m }
    else return s

/-- Takes the arcs out of `k`. -/
def expand (c : Growth α) (k : Nat) (s : State α) : Progress (State α) Unit :=
  match (c.network.outArcs k).foldlM (c.take (s.space.distOf k)) s with
  | .ok s => .more s
  | .error f => .fault f

/-- Whether nothing that waits, the nearest being `top`, can be worth connecting. -/
def isOver (c : Growth α) (s : State α) (top : Nat) : Bool :=
  s.openRequired == 0 && (c.rule = .required || Weight.above (s.space.distOf top) s.bound)

/-- Settles the nearest waiting node: connects it if it is worth that, and takes
its arcs otherwise. -/
def settleNext (c : Growth α) (s : State α) : Progress (State α) Unit :=
  match s.space.queue.peekMin? with
  | none => .done () s
  | some top =>
      if c.isOver s top then .done () s
      else
        match s.space.popMin? with
        | none => .done () s
        | some (k, space) =>
            let s := { s with space := space }
            if !s.tree.contains k && c.isWorth space s.tree k then
              -- the terminals on the branch no longer pay for another one
              let s := splice c.network c.network.nodeCount k s
              .more { s with bound := c.prizeBound s.tree }
            else c.expand k s

/-- More steps than a growth in `g` can take.  A node waits at the start and when it is
connected, each at most once; besides, it waits again only after its label fell.  A label
of 64 bits can fall less than `2 ^ 64` times, whatever the costs are, and so can a whole
number below the distance of an unreached node. -/
def fuel (g : Network α) : Nat := (g.nodeCount + 1) * Nat.pow 2 65

/-- The marked required terminals outside a tree. -/
def openRequired (g : Network α) (t : Tree) : Nat :=
  (g.markedRequired.filter fun v => !t.contains v).length

/-- The state before the first step. -/
def initial (c : Growth α) (t : Tree) (w : Workspace α) : State α :=
  ⟨w, t, openRequired c.network t, 0, c.prizeBound t⟩

/-- Grows a tree from the waiting nodes until nothing is worth connecting. -/
def grow (c : Growth α) (t : Tree) (w : Workspace α) : Except Fault (State α) := do
  let ((), s) ← Progress.run c.settleNext () (fuel c.network) (c.initial t w)
  return { s with space := s.space.reset }

/-- Labels `v` with distance zero. -/
def seed (w : Workspace α) (v : Nat) : Except Fault (Workspace α) := do
  checkNode w.capacity v
  return (w.setLabel v 0 none).enqueue v

/-- Grows a new tree from `start`. -/
def growFrom (c : Growth α) (start : Nat) (w : Workspace α) :
    Except Fault (GrowthOutcome × Tree × Workspace α) := do
  let n := c.network.nodeCount
  checkNode n start
  let s ← c.grow ((Tree.empty n).connect start none) (← seed w start)
  return (.ofMissing s.openRequired, s.tree, s.space)

/-- Grows `t` for up to `rounds` rounds, each from all nodes of the tree.  Answers
the number of nodes added.  A round that adds nothing is the last. -/
def extendRounds (c : Growth α) : Nat → Tree → Workspace α →
    Except Fault (Nat × Tree × Workspace α)
  | 0, t, w => .ok (0, t, w)
  | rounds + 1, t, w => do
      let s ← c.grow t (← (t.nodes).foldlM seed w)
      if s.added = 0 then return (0, s.tree, s.space)
      else
        let (more, t, w) ← extendRounds c rounds s.tree s.space
        return (s.added + more, t, w)

/-- The largest number of rounds of an extension. -/
def maxRounds : Nat := 2

/-- Grows a given tree. -/
def extend (c : Growth α) (rounds : Nat) (t : Tree) (w : Workspace α) :
    Except Fault (Nat × Tree × Workspace α) :=
  c.extendRounds (Nat.min rounds maxRounds) t w

end Growth

end SteinerSearch
