import SteinerSearch.Network.Ids

/-!
# Runs of a search

Every search repeats one step: take the next node from a queue and look at its
arcs.  This module has the two ways a search is put together from its parts, and
nothing about any particular search.

## Main definitions

* `Halt` — why a scan over arcs was cut short.
* `Progress` — what one step of a search comes to.
* `Progress.run` — a bounded number of steps.
-/

namespace SteinerSearch

/-- Why a scan over the arcs of a node was cut short. -/
inductive Halt (σ : Type) where
  /-- The scan budget was exceeded in this state. -/
  | overBudget (s : σ)
  /-- A table has no entry for something the scan met. -/
  | fault (f : Fault)

/-- What one step of a search comes to. -/
inductive Progress (σ ω : Type) where
  /-- The search goes on from this state. -/
  | more (s : σ)
  /-- The search is over, with an answer. -/
  | done (answer : ω) (s : σ)
  /-- The search met something that a table has no entry for. -/
  | fault (f : Fault)

namespace Progress

variable {σ ω : Type}

/-- The outcome of a scan as a step: on the way, or over its budget. -/
def ofScan (overBudget : ω) : Except (Halt σ) σ → Progress σ ω
  | .ok s => .more s
  | .error (.overBudget s) => .done overBudget s
  | .error (.fault f) => .fault f

/-- At most `fuel` steps from `s`.  A run that uses up its fuel answers
`exhausted`; each search gives its runs more fuel than they can use. -/
def run (step : σ → Progress σ ω) (exhausted : ω) : Nat → σ → Except Fault (ω × σ)
  | 0, s => .ok (exhausted, s)
  | fuel + 1, s =>
      match step s with
      | .more s' => run step exhausted fuel s'
      | .done answer s' => .ok (answer, s')
      | .fault f => .error f

theorem run_succ (step : σ → Progress σ ω) (e : ω) (fuel : Nat) (s : σ) :
    run step e (fuel + 1) s =
      match step s with
      | .more s' => run step e fuel s'
      | .done answer s' => .ok (answer, s')
      | .fault f => .error f := rfl

end Progress

end SteinerSearch
