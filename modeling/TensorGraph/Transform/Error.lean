/-
# TensorGraph.Transform.Error -- why a transformation was not carried out

Every failure names the function it is about. A transformation that fails produces
nothing.
-/
import TensorGraph.Adjoint.Rule
import TensorGraph.Typing.Verify

namespace TensorGraph

/-- What went wrong at a call whose rule was to be applied. -/
inductive RuleFailure where
  | tupleResult
  | rule (error : RuleError)
  | partialCount (partials operands : Nat)
  | partialType (found expected : ValueType)
  deriving DecidableEq

/-- The wording of a failure. -/
def RuleFailure.message : RuleFailure → String
  | tupleResult => "calls returning tuples cannot be differentiated"
  | rule error => error.message
  | partialCount partials operands => s!"returned {partials} partials for {operands} operands"
  | partialType found expected => s!"partial has type {found}, operand has type {expected}"

/-- What does not fit together in a transformation. -/
inductive Misfit where
  | shape (fault : ShapeError)
  /-- The adjoint of a tuple construction is a tensor. -/
  | tensorForTuple
  | fieldCount (components fields : Nat)
  | untypedTuple (id : ValueId)
  | tupleOperand
  | operandNotTensor
  /-- A tuple inside the tuple that is returned. -/
  | nestedReturn
  | predictionCount (requested available : Nat)
  | parameterCount (params requested : Nat)
  | predictionType (index : Nat) (found : Option ValueType) (param : String)
      (expected : ValueType)
  deriving DecidableEq

/-- The wording of a misfit. -/
def Misfit.message : Misfit → String
  | shape fault => fault.message
  | tensorForTuple => "tensor adjoint routed to a tuple construction"
  | fieldCount components fields =>
    s!"tuple adjoint of arity {components} routed to {fields} fields"
  | untypedTuple ⟨n⟩ => s!"tuple %{n} has no type"
  | tupleOperand => "tuple adjoint used as a call operand"
  | operandNotTensor => "call operand is not a tensor"
  | nestedReturn => "backbone must return a value or a flat tuple of values"
  | predictionCount requested available =>
    s!"num_backbone_outputs is {requested} but the backbone returns {available} values"
  | parameterCount params requested =>
    s!"loss takes {params} parameters but {requested} prediction outputs are spliced in"
  | predictionType index found param expected =>
    let found := (found.map toString).getD "<undefined>"
    s!"prediction output {index} has type {found} but loss parameter `{param}` expects {expected}"

/-- **`TransformError`** -- why a transformation failed. -/
inductive TransformError where
  | functionNotFound (name : String)
  | multiRegion (function : String) (regions : Nat)
  /-- What is returned is no scalar; without a type when it is not defined. -/
  | nonScalarTarget (function : String) (found : Option ValueType)
  | notAParameter (function value : String)
  | missingRule (function op : String)
  | ruleFailed (function op : String) (failure : RuleFailure)
  | misfit (function : String) (fault : Misfit)
  | returnNotOutput (function value : String)
  | illFormed (function : String) (fault : VerifyError)
  deriving DecidableEq

namespace TransformError

/-- The function that an error is about. -/
def function : TransformError → String
  | functionNotFound name => name
  | multiRegion function _ => function
  | nonScalarTarget function _ => function
  | notAParameter function _ => function
  | missingRule function _ => function
  | ruleFailed function _ _ => function
  | misfit function _ => function
  | returnNotOutput function _ => function
  | illFormed function _ => function

/-- The wording of an error. -/
def message : TransformError → String
  | functionNotFound name => s!"function @{name} not found in module"
  | multiRegion function regions =>
    s!"function @{function} has {regions} regions; exactly one is required"
  | nonScalarTarget function found =>
    let found := (found.map toString).getD "an undefined value"
    s!"function @{function} must return a rank-0 tensor, found {found}"
  | notAParameter function value => s!"`{value}` is not a parameter of function @{function}"
  | missingRule function op =>
    s!"no differentiation rule registered for operator `{op}` in function @{function}"
  | ruleFailed function op failure =>
    s!"gradient rule for `{op}` failed in function @{function}: {failure.message}"
  | misfit function fault => s!"shape mismatch in function @{function}: {fault.message}"
  | returnNotOutput function value =>
    s!"function @{function} returns %{value}, which is not a declared output"
  | illFormed function fault => s!"function @{function} is ill-formed: {fault.message}"

end TransformError

end TensorGraph
