import SteinerSearch.Network.Basic

/-!
# Messages for refused construction steps

## Main definitions

* `NetworkError.message` — the text of a refusal.
-/

namespace SteinerSearch

/-- The text of a refusal, given how weights are shown. -/
def NetworkError.message {α : Type} (weight : α → String) : NetworkError α → String
  | .nodeOutOfRange node nodes =>
      "node " ++ node.repr ++ " out of range (graph has " ++ nodes.repr ++ " nodes)"
  | .selfLoop node => "self loop at node " ++ node.repr
  | .invalidCost cost =>
      "invalid arc cost " ++ weight cost ++ " (must be finite and non-negative)"
  | .invalidPrize node prize => "invalid prize " ++ weight prize ++ " at node " ++ node.repr
  | .offsetsMissing => "malformed CSR: offsets must have length n+1"
  | .offsetsUnordered => "malformed CSR: offsets must start at 0 and be monotone"
  | .entriesMissing count => "malformed CSR: expected " ++ count.repr ++ " targets and weights"

end SteinerSearch
