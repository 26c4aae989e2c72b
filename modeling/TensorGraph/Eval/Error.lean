/-
# TensorGraph.Eval.Error -- why an evaluation stopped

Either something has no implementation, or the evaluation met values that do not fit. A
fault inside a kernel is reported with the binding that called it. The last four faults
stop the machine: a number of elements that no word holds, a buffer that no memory holds,
an access beyond the end of the data, a division by zero. The kernels check for each of
them, so that where they arise, and that they do not arise elsewhere, can be shown.
-/
import TensorGraph.Graph.Basic

namespace TensorGraph

/-- What has no implementation. -/
inductive Missing where
  /-- A call whose declared type is a tuple. -/
  | tupleResult (op : String)
  /-- A literal of a type that is not floating, or of the wrong length. -/
  | literal (dtype : DType)
  | kernel (target : String)
  /-- An operation and a reason that a kernel gives. -/
  | refusal (op reason : String)
  deriving DecidableEq

/-- The operation that is missing, and the reason. -/
def Missing.parts : Missing → String × String
  | tupleResult op => (op, "calls with tuple results")
  | literal dtype => ("literal", s!"dtype {dtype}")
  | kernel target => ("custom_call", s!"no kernel for target `{target}`")
  | refusal op reason => (op, reason)

/-- **`EvalFault`** -- values that do not fit. -/
inductive EvalFault where
  | inputCount (function : String) (expected found : Nat)
  | inputType (param : String) (ty : ValueType)
  | resultType (binding : String) (ty : ValueType)
  | functionNotFound (name : String)
  | unavailable (id : ValueId)
  /-- An operand of a call is a tuple. -/
  | tupleOperand
  | tupleForTensor
  | componentRange (index arity : Nat)
  | componentOfTensor
  | valueCount (found : Nat) (spec : TensorSpec)
  | itemCount (spec : TensorSpec) (found : Nat)
  | notSingle
  | notPair
  | contraction (lhs rhs : TensorSpec)
  | transposeRank
  | reshapeCount
  | softmaxAxis
  | labelShape
  | noClassAxis
  | collapseRank
  | collapseTarget
  | broadcastRank
  | broadcastDim
  /-- A message that a kernel gives. -/
  | refusal (message : String)
  | inBinding (binding : String) (fault : EvalFault)
  /-- An access beyond the end of a list. -/
  | outOfBounds
  /-- A position in a tensor without elements. -/
  | divisionByZero
  /-- A product of extents that does not fit a word. -/
  | overflow
  /-- A buffer of more bytes than there are addresses. -/
  | capacity
  deriving DecidableEq

/-- The wording of a fault. -/
def EvalFault.message : EvalFault → String
  | inputCount function expected found => s!"@{function} expects {expected} inputs, got {found}"
  | inputType param ty => s!"input for %{param} does not match {ty}"
  | resultType binding ty => s!"%{binding} evaluated to a value not of type {ty}"
  | functionNotFound name => s!"function @{name} not found"
  | unavailable ⟨n⟩ => s!"value %{n} is not available"
  | tupleOperand => "call operand is a tuple"
  | tupleForTensor => "expected a tensor, found a tuple"
  | componentRange index arity => s!"tuple index {index} out of range for arity {arity}"
  | componentOfTensor => "tuple element read from a tensor"
  | valueCount found spec => s!"{found} values supplied for {spec}"
  | itemCount spec found => s!"item() on tensor {spec} with {found} elements"
  | notSingle => "operation expects single input"
  | notPair => "operation expects two inputs"
  | contraction lhs rhs => s!"matmul shapes {lhs} and {rhs} do not contract"
  | transposeRank => "transpose rank mismatch"
  | reshapeCount => "reshape element count mismatch"
  | softmaxAxis => "softmax axis out of range"
  | labelShape => "logits and labels differ in shape"
  | noClassAxis => "logits must have a class axis"
  | collapseRank => "collapse_sum_like target rank exceeds data rank"
  | collapseTarget => "collapse_sum_like target does not broadcast to data"
  | broadcastRank => "broadcast result rank must be >= operand rank"
  | broadcastDim => "broadcast dim mismatch"
  | refusal message => message
  | inBinding binding fault => s!"%{binding}: {fault.message}"
  | outOfBounds => "index out of bounds"
  | divisionByZero => "division by zero"
  | overflow => "attempt to multiply with overflow"
  | capacity => "capacity overflow"

/-- Whether a fault stops the machine: then there is no error to report. -/
def EvalFault.stops : EvalFault → Bool
  | outOfBounds | divisionByZero | overflow | capacity => true
  | _ => false

/-- **`EvalError`** -- why an evaluation stopped. -/
inductive EvalError where
  | unimplemented (what : Missing)
  | execution (fault : EvalFault)
  deriving DecidableEq

/-- The wording of an error. -/
def EvalError.message : EvalError → String
  | unimplemented what =>
    let (op, reason) := what.parts
    s!"{op} is not implemented: {reason}"
  | execution fault => s!"backend execution failure: {fault.message}"

/-- The error of a kernel as the binding that called it reports it. -/
def EvalError.inBinding (binding : String) : EvalError → EvalError
  | unimplemented what => .unimplemented what
  | execution fault => .execution (if fault.stops then fault else .inBinding binding fault)

end TensorGraph
