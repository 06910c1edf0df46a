import SteinerSearch.Decimal.Notation
import SteinerSearch.Layers.PairBounds
import SteinerSearch.Network.Message
import SteinerSearch.Settings.Environment
import SteinerSearch.Settings.Printer
import SteinerSearch.Settings.Reader
import SteinerSearch.Star.RawEntry
import SteinerSearch.Tree.Multistart
import SteinerSearch.Walk.Search
import SteinerSearch.Proofs.Comparison
import SteinerSearch.Proofs.Queue.Slots
import SteinerSearch.Proofs.Queue.Order
import SteinerSearch.Proofs.Queue.Operations
import SteinerSearch.Proofs.Network.Construction
import SteinerSearch.Proofs.Network.Paths
import SteinerSearch.Proofs.Network.Components
import SteinerSearch.Proofs.Stepping
import SteinerSearch.Proofs.Workspace
import SteinerSearch.Proofs.Traversal.Invariant
import SteinerSearch.Proofs.Traversal.Exactness
import SteinerSearch.Proofs.Walk.Ledger
import SteinerSearch.Proofs.Walk.Credits
import SteinerSearch.Proofs.Network.Rows
import SteinerSearch.Proofs.Queue.Keyed
import SteinerSearch.Proofs.Star.Seeding
import SteinerSearch.Proofs.Star.Replacement
import SteinerSearch.Proofs.Layers.Labels
import SteinerSearch.Proofs.Layers.Ranking
import SteinerSearch.Proofs.Layers.Invariant
import SteinerSearch.Proofs.Layers.Spreading
import SteinerSearch.Proofs.Layers.Settling
import SteinerSearch.Proofs.Layers.Exactness
import SteinerSearch.Proofs.Layers.Trails
import SteinerSearch.Proofs.Layers.Completeness
import SteinerSearch.Proofs.Layers.Directions
import SteinerSearch.Proofs.Queue.Membership
import SteinerSearch.Proofs.Queue.Histories
import SteinerSearch.Proofs.Queue.Twins
import SteinerSearch.Proofs.Tree.Spanning
import SteinerSearch.Proofs.Tree.Steps
import SteinerSearch.Proofs.Reuse.Calls
import SteinerSearch.Proofs.Tree.Frontier
import SteinerSearch.Proofs.Tree.Exhaustion
import SteinerSearch.Proofs.Tree.Forests
import SteinerSearch.Proofs.Tree.Remnants
import SteinerSearch.Proofs.Tree.Grafts
import SteinerSearch.Proofs.Tree.Nearest
import SteinerSearch.Proofs.Network.Degrees
import SteinerSearch.Proofs.Walk.Passages
import SteinerSearch.Proofs.Walk.Steps
import SteinerSearch.Proofs.Walk.Frontier
import SteinerSearch.Proofs.Walk.Runs
import SteinerSearch.Proofs.Walk.Refusals
import SteinerSearch.Proofs.Walk.Domination
import SteinerSearch.Proofs.Walk.Unpaid
import SteinerSearch.Proofs.Tree.Values
import SteinerSearch.Proofs.Tree.Extended
import SteinerSearch.Proofs.Tree.Pruned
import SteinerSearch.Proofs.Tree.Selection
import SteinerSearch.Proofs.Tree.Profit
import SteinerSearch.Proofs.Network.Tours
import SteinerSearch.Proofs.Tree.FactorTwo
import SteinerSearch.Proofs.Star.Steps
import SteinerSearch.Proofs.Star.Covering
import SteinerSearch.Proofs.Star.Connection
import SteinerSearch.Proofs.Star.Counting
import SteinerSearch.Proofs.Star.Settling
import SteinerSearch.Proofs.Star.Completeness
import SteinerSearch.Proofs.Truncation
import SteinerSearch.Proofs.Budgets
import SteinerSearch.Proofs.Walk.Termination
import SteinerSearch.Proofs.Reuse.KeyedQueues
import SteinerSearch.Proofs.Star.Tracking
import SteinerSearch.Proofs.Star.Reuse
import SteinerSearch.Proofs.Star.Limits
import SteinerSearch.Proofs.Network.Inward
import SteinerSearch.Proofs.Traversal.Unlimited
import SteinerSearch.Proofs.Traversal.Backwards
import SteinerSearch.Proofs.Walk.Spelling
import SteinerSearch.Proofs.Walk.Traces
import SteinerSearch.Proofs.Layers.PairBounds
import SteinerSearch.Proofs.Layers.Boundaries
import SteinerSearch.Proofs.Network.SpanningTrees
import SteinerSearch.Proofs.Traversal.Attachment
import SteinerSearch.Proofs.Queue.Drift
import SteinerSearch.Proofs.Network.Listing
import SteinerSearch.Proofs.Star.RawArrays
import SteinerSearch.Proofs.Settings.Codecs
import SteinerSearch.Proofs.SharedRows
import SteinerSearch.Proofs.Network.Histories
