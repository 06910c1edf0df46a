import SteinerSearch.Star.Search

/-!
# Star search over raw arrays

The entry point for callers that hold a network as raw arrays and keep buffers for
the answer.  An argument that the caller left out is `none`.  The answer marks the
arcs of the center in the order of the caller's arrays, although the search works
on sorted rows.

A negative code is an error: `-1` no nodes, `-2` the center is no node, `-3` an
argument is missing, `-4` the arrays are malformed.  Errors are looked for in this
order, and leave the marks alone.

## Main definitions

* `RawStar.Request`, `RawStar.Info`, `RawStar.Reply` — arguments and answer.
* `RawStar.run` — the entry point.
* `RawStar.version` — the version of this interface.
-/

namespace SteinerSearch

namespace RawStar

/-- The version of this interface. -/
def version : Nat := 1

/-- The figures of a search. -/
structure Info where
  /-- The arcs scanned. -/
  scanned : Nat
  /-- The arcs of the center that are deletable. -/
  deletable : Nat
  /-- Zero, or the code of the error. -/
  errorCode : Int
  deriving DecidableEq, Repr

/-- The arguments of a search. -/
structure Request (α : Type) where
  /-- The number of nodes. -/
  nodeCount : Nat
  /-- Where each row starts; one entry more than there are nodes. -/
  offsets : Option (Array Nat)
  /-- The node each arc leads to. -/
  targets : Option (Array Nat)
  /-- The cost of each arc. -/
  weights : Option (Array α)
  /-- The node whose arcs are looked at. -/
  center : Nat
  /-- The number of arc scans that are allowed. -/
  arcLimit : Nat
  /-- The marks of the center's arcs, to be overwritten. -/
  marks : Option (Array Nat)
  /-- The figures, to be overwritten. -/
  info : Option Info

/-- The answer to a request. -/
structure Reply where
  /-- Whether some arc is deletable, or a negative error code. -/
  code : Int
  /-- The marks: 1 for a deletable arc, 0 for another. -/
  marks : Option (Array Nat)
  /-- The figures. -/
  info : Option Info
  deriving DecidableEq, Repr

/-- Why a request is refused. -/
inductive Refusal where
  /-- There are no nodes. -/
  | emptyNetwork
  /-- The center is no node. -/
  | centerOutOfRange
  /-- An argument is missing. -/
  | argumentMissing
  /-- The arrays are malformed. -/
  | malformed
  deriving DecidableEq, Repr

/-- The code of a refusal. -/
def Refusal.code : Refusal → Int
  | .emptyNetwork => -1
  | .centerOutOfRange => -2
  | .argumentMissing => -3
  | .malformed => -4

variable {α : Type} [Weight α]

/-- What a search found, with the marks in the caller's order. -/
structure Finding where
  /-- Whether some arc is deletable. -/
  found : Bool
  /-- The marks after the search. -/
  marks : Array Nat
  /-- The arcs scanned. -/
  scanned : Nat
  /-- The number of deletable arcs. -/
  deletable : Nat

/-- Writes the marks of a row, whose caller's positions start at `start`. -/
def writeMarks (start : Nat) (marks : Array Nat) (row : List (RowEntry α × Bool)) : Array Nat :=
  row.foldl (fun marks (e, flag) => marks.setIfInBounds (e.arc - start) flag.toNat) marks

/-- Searches, or refuses the request. -/
def search (r : Request α) : Except Refusal Finding :=
  if r.nodeCount = 0 then .error .emptyNetwork
  else if r.nodeCount ≤ r.center then .error .centerOutOfRange
  else
    match r.offsets, r.targets, r.weights, r.marks with
    | some offsets, some targets, some weights, some marks =>
        -- what follows the last offset is not part of the request
        let offsets := offsets.take (r.nodeCount + 1)
        match Rows.ofRaw offsets targets weights with
        | .error _ => .error .malformed
        | .ok rows =>
            match StarSearch.run ⟨rows, none, r.center, r.arcLimit⟩ (.fresh r.nodeCount) with
            | .error _ => .error .centerOutOfRange
            | .ok answer =>
                let flags := answer.deletable.toList
                .ok {
                  found := answer.found
                  marks := writeMarks (offsets.getD r.center 0) marks
                    ((rows.row r.center).zip flags)
                  scanned := answer.space.scanned
                  deletable := flags.count true }
    | _, _, _, _ => .error .argumentMissing

/-- Answers a request. -/
def run (r : Request α) : Reply :=
  match search r with
  | .error refusal =>
      { code := refusal.code
        marks := r.marks
        info := r.info.map fun _ => ⟨0, 0, refusal.code⟩ }
  | .ok finding =>
      { code := finding.found.toNat
        marks := some finding.marks
        info := r.info.map fun _ => ⟨finding.scanned, finding.deletable, 0⟩ }

end RawStar

end SteinerSearch
