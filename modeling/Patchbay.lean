import Patchbay.Editor
import Patchbay.Files.Store
import Patchbay.Main
import Patchbay.Proofs.Number
import Patchbay.Proofs.Sharing
import Patchbay.Proofs.Stream
import Patchbay.Proofs.Accounting
import Patchbay.Proofs.Addressing
import Patchbay.Proofs.Agreement
import Patchbay.Proofs.Arrangement
import Patchbay.Proofs.Atomicity
import Patchbay.Proofs.CallPattern
import Patchbay.Proofs.Conversion
import Patchbay.Proofs.Coverage
import Patchbay.Proofs.EdgeOrder
import Patchbay.Proofs.Editing
import Patchbay.Proofs.Erasure
import Patchbay.Proofs.Failure
import Patchbay.Proofs.FirstEdge
import Patchbay.Proofs.Inertness
import Patchbay.Proofs.Literal
import Patchbay.Proofs.NodeOrder
import Patchbay.Proofs.Rebuild
import Patchbay.Proofs.Reset
import Patchbay.Proofs.Safety
import Patchbay.Proofs.Silence
import Patchbay.Proofs.Sink
import Patchbay.Proofs.Upstream
import Patchbay.Proofs.IssuedId
import Patchbay.Proofs.Refusal
import Patchbay.Proofs.MeterReport
import Patchbay.Proofs.Totality
import Patchbay.Proofs.Echo
import Patchbay.Proofs.Replacement
import Patchbay.Proofs.Tiling
import Patchbay.Proofs.Playhead
import Patchbay.Proofs.PureDelay
import Patchbay.Proofs.Contour
import Patchbay.Proofs.Defaults
import Patchbay.Proofs.FilterRange
import Patchbay.Proofs.Enumeration
import Patchbay.Proofs.Layering
import Patchbay.Proofs.Directory
import Patchbay.Proofs.Lookup
import Patchbay.Proofs.TomlRoundTrip
import Patchbay.Proofs.Reach
import Patchbay.Proofs.Recurrence
import Patchbay.Proofs.Lowering
