import TensorGraph.Graph.Lookup
import TensorGraph.Graph.Remap
import TensorGraph.Typing.Call
import TensorGraph.Number.Shortest
import TensorGraph.Text.Nest
import TensorGraph.Text.Type
import TensorGraph.Text.Module
import TensorGraph.Text.Print
import TensorGraph.Typing.Verify
import TensorGraph.Json.Decode
import TensorGraph.Binary.Decode
import TensorGraph.Binary.Encode
import TensorGraph.Build.Builder
import TensorGraph.Adjoint.Builtin
import TensorGraph.Transform.Error
import TensorGraph.Transform.Pass
import TensorGraph.Eval.Run
import TensorGraph.Proofs.WellFormed
import TensorGraph.Proofs.Soundness
import TensorGraph.Proofs.Mirror
import TensorGraph.Proofs.Composition
import TensorGraph.Proofs.Adjoints
import TensorGraph.Proofs.Construction
import TensorGraph.Proofs.Emission
import TensorGraph.Proofs.Partials
import TensorGraph.Proofs.Sweep
import TensorGraph.Proofs.Differentiation
import TensorGraph.Proofs.Opaque
import TensorGraph.Proofs.Economy
import TensorGraph.Proofs.DualNumbers
import TensorGraph.Proofs.Pairing
import TensorGraph.Proofs.Transposition
import TensorGraph.Proofs.Balance
import TensorGraph.Proofs.Gradients
import TensorGraph.Proofs.Appending
import TensorGraph.Proofs.Closure
import TensorGraph.Proofs.Completeness
import TensorGraph.Proofs.Swept
import TensorGraph.Proofs.Conservation
import TensorGraph.Proofs.Requests
import TensorGraph.Proofs.Passes
import TensorGraph.Proofs.Roundtrip
import TensorGraph.Proofs.Splicing
import TensorGraph.Proofs.Codec
import TensorGraph.Proofs.JsonForm
import TensorGraph.Proofs.Reprinting
import TensorGraph.Proofs.Accepted
import TensorGraph.Proofs.Rereading
import TensorGraph.Proofs.Tiling
import TensorGraph.Proofs.Collapsing
import TensorGraph.Proofs.AxisOrder
import TensorGraph.Proofs.CrossEntropy
import TensorGraph.Proofs.ShapeOrder
import TensorGraph.Proofs.Additions
import TensorGraph.Proofs.Comments
import TensorGraph.Proofs.Freshness
import TensorGraph.Proofs.Partition
import TensorGraph.Proofs.AdjointSums
import TensorGraph.Proofs.Keywords
