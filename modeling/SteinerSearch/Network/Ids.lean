/-!
# Numbering of nodes, arcs and edges

Nodes, arcs and edges are numbered from zero.  An undirected edge `e` is a pair
of opposite arcs, `2 * e` and `2 * e + 1`; the even arc points the way the edge
was given.

## Main definitions

* `Arc.rev`, `Arc.edge`, `Edge.forward` — moving between arcs and edges.
* `Fault` — a number that a table has no entry for.
-/

namespace SteinerSearch

/-- The opposite arc of the same edge. -/
def Arc.rev (a : Nat) : Nat := if a % 2 = 0 then a + 1 else a - 1

/-- The edge an arc belongs to. -/
def Arc.edge (a : Nat) : Nat := a / 2

/-- The arc of an edge that points the way the edge was given. -/
def Edge.forward (e : Nat) : Nat := 2 * e

/-- How a node is shown to a reader. -/
def Node.label (v : Nat) : String := "n" ++ v.repr

theorem Arc.rev_rev (a : Nat) : Arc.rev (Arc.rev a) = a := by
  unfold Arc.rev
  split <;> split <;> omega

theorem Arc.edge_rev (a : Nat) : Arc.edge (Arc.rev a) = Arc.edge a := by
  unfold Arc.rev Arc.edge
  split <;> omega

/-- Two arcs of one edge are the same, or opposite to each other. -/
theorem Arc.eq_or_eq_rev_of_edge {a b : Nat} (h : Arc.edge b = Arc.edge a) :
    b = a ∨ b = Arc.rev a := by
  unfold Arc.edge at h
  unfold Arc.rev
  split <;> omega

theorem Arc.edge_forward (e : Nat) : Arc.edge (Edge.forward e) = e := by
  unfold Arc.edge Edge.forward
  omega

/-- A number that a table has no entry for.  Operations on tables stop with a
fault instead of making up an entry. -/
inductive Fault where
  /-- No entry for this node. -/
  | node (v : Nat)
  /-- No entry for this arc. -/
  | arc (a : Nat)
  deriving DecidableEq, Repr

/-- Stops with a fault unless `v` is one of `n` nodes. -/
def checkNode (n v : Nat) : Except Fault Unit :=
  if v < n then .ok () else .error (.node v)

/-- Stops with a fault unless `a` is one of `m` arcs. -/
def checkArc (m a : Nat) : Except Fault Unit :=
  if a < m then .ok () else .error (.arc a)

end SteinerSearch
