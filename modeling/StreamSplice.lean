import StreamSplice.Document.Request
import StreamSplice.Pipeline
import StreamSplice.Synthesis
import StreamSplice.Proofs.Exclusion
import StreamSplice.Proofs.Shape
import StreamSplice.Proofs.Coverage
import StreamSplice.Proofs.Determinism
import StreamSplice.Proofs.Enabling
import StreamSplice.Proofs.EndToEnd
import StreamSplice.Proofs.Failures
import StreamSplice.Proofs.Conservation
import StreamSplice.Proofs.Density
import StreamSplice.Proofs.LengthIndependence
import StreamSplice.Proofs.Walking
import StreamSplice.Proofs.Skipping
import StreamSplice.Proofs.LayoutSet
import StreamSplice.Layout.Odometer
import StreamSplice.Layout.Following
import StreamSplice.Proofs.Counting
import StreamSplice.Proofs.CrossProduct
import StreamSplice.Proofs.CombinationLimit
import StreamSplice.Proofs.SampledCounts
import StreamSplice.Proofs.ClosedForm
import StreamSplice.Proofs.Joining
import StreamSplice.Proofs.StreamOrder
import StreamSplice.Proofs.EndOffsets
import StreamSplice.Proofs.Multiplexing
import StreamSplice.Proofs.Ordering
import StreamSplice.Proofs.Attempts
import StreamSplice.Proofs.Representation
import StreamSplice.Proofs.Scanning
import StreamSplice.Proofs.Describing
