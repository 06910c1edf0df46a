import SteinerSearch.Network.Basic
import SteinerSearch.Workspace

/-!
# Ledgers

When a walk enters a terminal that carries a prize, the prize may be credited to
it, but only once along the same walk.  A ledger is a way of keeping track.  It
answers, for an arc from `k` to `m`, whether the arc may be taken and whether the
prize of `m` may still be credited, and it writes down what a new label of `m`
has used.

A saturated trace may contain anything, so it rules out further credits and
counts as a conflict.

## Main definitions

* `Ledger` — the three ways of keeping track.
* `Ledger.refuses`, `Ledger.mayCredit`, `Ledger.record`.
-/

namespace SteinerSearch

/-- A way of keeping track of the prizes credited along a walk. -/
inductive Ledger where
  /-- No traces: a prize is credited only with the first label a node gets in the
  whole search, and a required terminal whose prize was credited keeps its label. -/
  | firstVisit
  /-- One trace per node, of all credited nodes. -/
  | combined
  /-- Three traces per node: credited required terminals, other credited nodes and
  traversed edges.  No edge on the trace is taken again. -/
  | split
  deriving DecidableEq, Repr

namespace Ledger

variable {α : Type}

/-- Whether the arc `a` from `k` to `m` must not be taken. -/
def refuses (l : Ledger) (g : Network α) (w : Workspace α) (k m a : Nat) : Bool :=
  match l with
  | .firstVisit => g.isRequired m && w.isClaimed m
  | .combined => g.isRequired m && w.isVisited m && w.credited.mayContain k m
  | .split =>
      (g.isRequired m && w.isVisited m && w.credited.mayContain k m) ||
        w.traversed.surelyContains k (Arc.edge a)

/-- Whether the prize of `m` is still to be had by the walk to `k`. -/
def mayCredit (l : Ledger) (g : Network α) (w : Workspace α) (k m : Nat) : Bool :=
  match l with
  | .firstVisit => !w.isVisited m
  | .combined => !w.credited.mayContain k m
  | .split =>
      if g.isRequired m then !w.credited.mayContain k m else !w.creditedOther.mayContain k m

/-- Writes down that `m` was labeled from `k` over `a`. -/
def record (l : Ledger) (g : Network α) (w : Workspace α) (k m a : Nat) (credit : Bool) :
    Workspace α :=
  match l with
  | .firstVisit => if credit then w.claim m else w
  | .combined =>
      let credited := w.credited.copy k m
      { w with credited := if credit then credited.push m m else credited }
  | .split =>
      let credited := w.credited.copy k m
      let other := w.creditedOther.copy k m
      { w with
        credited := if credit && g.isRequired m then credited.push m m else credited
        creditedOther := if credit && !g.isRequired m then other.push m m else other
        traversed := (w.traversed.copy k m).push m (Arc.edge a) }

end Ledger

end SteinerSearch
