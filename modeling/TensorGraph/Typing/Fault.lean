/-
# TensorGraph.Typing.Fault -- why a call has no type

The causes for which operand types do not fit an operator, and for which adjoint
expressions cannot be combined, each with its wording. A fault names the operator as
messages show it: the operator's own name, or the target of a custom call.
-/
import TensorGraph.Shape.Basic

namespace TensorGraph

/-- **`CallFault`** -- a condition of one operator that the operands do not meet. -/
inductive CallFault where
  /-- A matrix product of operands that are not both of rank 2. -/
  | operandRank
  /-- A matrix product whose inner extents differ. -/
  | contraction (lhs rhs : Nat)
  | notPermutation (perm : List Nat) (rank : Nat)
  /-- A reshape to a shape with another element count. -/
  | reshapeCount (count : Nat) (target : Shape)
  | reductionAxes (axes : List Nat) (rank : Nat)
  | axisRange (axis rank : Nat)
  | labelShape (logits labels : Shape)
  | noClassAxis
  /-- A collapse to a shape that does not stretch to that of the data. -/
  | collapseTarget (target data : Shape)
  /-- An adjoint expression whose type is a tuple. -/
  | tupleResult
  | tupleArity (lhs rhs : Nat)
  /-- A component of an adjoint that is a tensor. -/
  | notTuple
  | componentRange (index arity : Nat)
  deriving DecidableEq

/-- A list of numbers between brackets. -/
def listText (ns : List Nat) : String :=
  "[" ++ ", ".intercalate (ns.map Nat.repr) ++ "]"

/-- The wording of a fault. -/
def CallFault.message : CallFault → String
  | operandRank => "operands must be rank 2"
  | contraction lhs rhs => s!"contracting dims differ: {lhs} vs {rhs}"
  | notPermutation perm rank => s!"{listText perm} is not a permutation of rank {rank}"
  | reshapeCount count target => s!"cannot reshape {count} elements into [{target}]"
  | reductionAxes axes rank => s!"invalid reduction axes {listText axes} for rank {rank}"
  | axisRange axis rank => s!"axis {axis} out of range for rank {rank}"
  | labelShape logits labels => s!"logits [{logits}] and labels [{labels}] differ"
  | noClassAxis => "logits must have a class axis"
  | collapseTarget target data => s!"[{target}] does not broadcast to [{data}]"
  | tupleResult => "gradient expressions must be tensors"
  | tupleArity lhs rhs => s!"tuple adjoints of arity {lhs} and {rhs} cannot be added"
  | notTuple => "adjoint placeholder is not a tuple"
  | componentRange index arity => s!"index {index} out of range for arity {arity}"

/-- **`ShapeError`** -- a call without a type. -/
inductive ShapeError where
  | arity (op : String) (expected found : Nat)
  | tupleOperand (op : String) (index : Nat)
  | incompatible (lhs rhs : Shape)
  | dtypeMismatch (op : String) (lhs rhs : DType)
  | invalid (op : String) (fault : CallFault)
  /-- The result type must be declared and is not, or not as a tensor. -/
  | missingDeclaredType (op : String)
  deriving DecidableEq

/-- The wording of an error. -/
def ShapeError.message : ShapeError → String
  | arity op expected found => s!"{op} expects {expected} operands, got {found}"
  | tupleOperand op index => s!"{op} operand {index} must be a tensor"
  | incompatible lhs rhs => s!"shapes [{lhs}] and [{rhs}] cannot be broadcast together"
  | dtypeMismatch op lhs rhs => s!"{op} mixes dtypes {lhs} and {rhs}"
  | invalid op fault => s!"{op}: {fault.message}"
  | missingDeclaredType op => s!"{op} needs a declared tensor result type"

end TensorGraph
