import Recalc.Graph.Check
import Recalc.Session.Basic
import Recalc.Tree.Json
import Recalc.Value.Printer
import Recalc.Proofs.Graph.Grounded
import Recalc.Proofs.Graph.Lasting
import Recalc.Proofs.Schedule.Order
import Recalc.Proofs.Binding.Extraction
import Recalc.Proofs.Error.Store
import Recalc.Proofs.Session.Coherence
import Recalc.Proofs.Session.Invalidation
import Recalc.Proofs.Session.Rebuild
import Recalc.Proofs.Graph.Containment
import Recalc.Proofs.Session.Containment
import Recalc.Proofs.Binding.Locality
import Recalc.Proofs.Session.Known
import Recalc.Proofs.Session.Settled
import Recalc.Proofs.Session.Reshaping
import Recalc.Proofs.Session.Removal
import Recalc.Proofs.Session.Unresolved
import Recalc.Proofs.Session.Forward
import Recalc.Proofs.Graph.Licensed
import Recalc.Proofs.Session.Policy
import Recalc.Proofs.Graph.Exchange
import Recalc.Proofs.Session.Lacking
import Recalc.Proofs.Session.Entering
import Recalc.Proofs.Session.Returning
import Recalc.Proofs.Session.Loading
import Recalc.Proofs.Session.Clearing
import Recalc.Proofs.Binding.Usage
import Recalc.Proofs.Session.Usage
import Recalc.Proofs.Session.Caching
import Recalc.Proofs.Session.Reporting
import Recalc.Proofs.Path.Location
import Recalc.Proofs.Session.Revising
import Recalc.Proofs.Session.Stale
import Recalc.Proofs.Session.Linking
import Recalc.Proofs.Path.Lenient
import Recalc.Proofs.Binding.Chain
import Recalc.Proofs.Schedule.Determined
import Recalc.Proofs.Session.Readers
import Recalc.Proofs.Binding.Segmentation
import Recalc.Proofs.Binding.Embedding
import Recalc.Proofs.Tree.Kept
import Recalc.Proofs.Error.History
import Recalc.Proofs.Path.Grammar
import Recalc.Proofs.Graph.Change
import Recalc.Proofs.Graph.Saturation
import Recalc.Proofs.Binding.Growth
import Recalc.Proofs.Binding.Nesting
import Recalc.Proofs.Text.Slice
import Recalc.Proofs.Binding.Indexed.Parsed
