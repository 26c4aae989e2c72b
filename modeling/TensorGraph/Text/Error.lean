/-
# TensorGraph.Text.Error -- what can be wrong with a text

One constructor for each cause for which a text is no module, with the words it is
reported in. A cause inside a function, after its header, is reported with the name of
the function.
-/
import TensorGraph.Prelude

namespace TensorGraph

/-- **`TextError`** -- why a text could not be read. -/
inductive TextError where
  -- the module
  | emptyInput
  | missingBodyOpen
  | missingBodyClose
  | duplicateFunction (name : String)
  | functionCount (found : Nat)
  | inFunction (name : String) (cause : TextError)
  -- the header of a function
  | headerKeyword
  | headerOpen
  | headerClose
  | emptyFunctionName
  | missingResultType
  | paramForm
  | emptyParamName
  | emptyParamType
  -- types
  | unclosedTupleType
  | malformedTupleType (text : String)
  | unsupportedType (text : String)
  | tensorForm
  | unsupportedDType (text : String)
  | emptyDimension
  | invalidDimension (text : String)
  -- the body of a function
  | resultTypeMismatch
  | afterReturn
  | nestedRegion
  | mixedRegions
  | unmatchedClose
  | returnInRegion
  | emptyReturn
  | repeatedOutput
  | unclosedRegion
  | missingReturn
  | unclosedReturn
  | returnOverrun
  -- bindings and expressions
  | statementForm
  | emptyResultName
  | missingBindingType
  | emptyRightHandSide
  | tupleForm
  | unclosedTuple
  | tupleOverrun
  | emptyOperationName
  | unsupportedOperation (name : String)
  | unexpectedToken (rest : String)
  | unclosedOperands
  | unclosedAttribute
  | missingOperand (op : String)
  | operandNotTensor (op : String)
  | reshapeResult
  | softmaxRank
  | missingTarget
  -- operands and values
  | emptyOperand
  | invalidOperand (text : String)
  | emptyOperandName
  | elementUnclosed
  | elementMalformed
  | emptyElementBase
  | invalidElementIndex (text : String)
  | unknownOperandType
  | emptyValueName
  | duplicateValue (name : String)
  | unknownValue (name : String)
  -- attributes
  | emptyListEntry
  | invalidInteger (text : String)
  | invalidBool (text : String)
  deriving DecidableEq

/-- The wording of an error. -/
def TextError.message : TextError → String
  | emptyInput => "input is empty"
  | missingBodyOpen => s!"missing `{leftBrace}` to start function body"
  | missingBodyClose => s!"missing `{rightBrace}` to end function body"
  | duplicateFunction name => s!"function @{name} is defined more than once"
  | functionCount found => s!"expected exactly one function, found {found}"
  | inFunction name cause => s!"in @{name}: {cause.message}"
  | headerKeyword => "function header must start with `func`"
  | headerOpen => "missing `(` in function header"
  | headerClose => "missing `)` to close parameter list"
  | emptyFunctionName => "function name cannot be empty"
  | missingResultType => "missing `->` and return type in header"
  | paramForm => "parameter must be `name: type`"
  | emptyParamName => "parameter name cannot be empty"
  | emptyParamType => "parameter type cannot be empty"
  | unclosedTupleType => "unmatched `(` in tuple type"
  | malformedTupleType text => s!"malformed tuple type `{text}`"
  | unsupportedType text => s!"unsupported type `{text}`; expected `tensor<...>` or a tuple"
  | tensorForm => "tensor type accepts only `tensor<dtype, dims>` form"
  | unsupportedDType text => s!"unsupported dtype `{text}`"
  | emptyDimension => "dimension sizes cannot be empty"
  | invalidDimension text => s!"invalid dimension `{text}`"
  | resultTypeMismatch => "declared result type does not match returned value type"
  | afterReturn => "statements after `return` are not allowed"
  | nestedRegion => "regions cannot be nested"
  | mixedRegions =>
    s!"bindings outside `region {leftBrace} ... {rightBrace}` cannot be mixed with explicit regions"
  | unmatchedClose => s!"unmatched `{rightBrace}` in function body"
  | returnInRegion => "`return` inside a region"
  | emptyReturn => "`return` must reference a value"
  | repeatedOutput => "region declares `output` more than once"
  | unclosedRegion => s!"unterminated `region {leftBrace}`"
  | missingReturn => "function body must end with a `return` statement"
  | unclosedReturn => "unmatched `(` in return"
  | returnOverrun => "trailing tokens after return tuple"
  | statementForm => "statements must be of the form `%result = ...`"
  | emptyResultName => "result identifier cannot be empty"
  | missingBindingType => "bindings must specify result type with `->`"
  | emptyRightHandSide => "binding right-hand side is empty"
  | tupleForm => "`tuple` expects a parenthesized field list"
  | unclosedTuple => "unmatched `(` in tuple"
  | tupleOverrun => "trailing tokens after tuple fields"
  | emptyOperationName => "operation name cannot be empty"
  | unsupportedOperation name => s!"unsupported operation `{name}` in graph text"
  | unexpectedToken rest => s!"unexpected token starting at `{rest}`"
  | unclosedOperands => "unmatched `(` in operand list"
  | unclosedAttribute => "unmatched `[` in attribute"
  | missingOperand op => s!"{op} expects an operand"
  | operandNotTensor op => s!"{op} operand must be a tensor"
  | reshapeResult => "reshape result must be a tensor"
  | softmaxRank => "softmax needs an operand of rank >= 1"
  | missingTarget => "custom_call requires `target[...]`"
  | emptyOperand => "operand cannot be empty"
  | invalidOperand text => s!"invalid operand `{text}`"
  | emptyOperandName => "operand name cannot be empty"
  | elementUnclosed => "tuple element operand missing `]`"
  | elementMalformed => "tuple element operand malformed"
  | emptyElementBase => "tuple element base value cannot be empty"
  | invalidElementIndex text => s!"invalid tuple index `{text}`"
  | unknownOperandType => "operand type is unknown"
  | emptyValueName => "value name cannot be empty"
  | duplicateValue name => s!"value `%{name}` is defined more than once"
  | unknownValue name => s!"unknown value `%{name}`"
  | emptyListEntry => "empty entry in integer list"
  | invalidInteger text => s!"invalid integer `{text}`"
  | invalidBool text => s!"invalid boolean literal `{text}`"

end TensorGraph
