/-
# TensorGraph.Text.Binding -- bindings in the text form

`%name = expression -> type`. The name ends at the first equals sign and the type starts
after the last arrow. An expression that starts with `%`, `-` or a digit is an operand on
its own: a component of a tuple is read as a projection, anything else as an alias. The
word `tuple` constructs a tuple; every other word is an operation.
-/
import TensorGraph.Text.Call
import TensorGraph.Text.Type

namespace TensorGraph

mutual

/-- A field of a tuple construction. -/
def TupleField.ofNest (scope : Scope) : Nest → Except TextError TupleField
  | .leaf text => (Operand.ofText scope text).map .operand
  | .unclosed => .error .unclosedTuple
  | .overrun _ => .error .tupleOverrun
  | .group elements => (TupleField.ofNests scope elements).map .tuple

/-- Fields of a tuple construction; the first fault counts. -/
def TupleField.ofNests (scope : Scope) : List Nest → Except TextError (List TupleField)
  | [] => .ok []
  | nest :: rest => do
    let field ← TupleField.ofNest scope nest
    return field :: (← TupleField.ofNests scope rest)

end

theorem TupleField.ofNests_eq_mapM (scope : Scope) (nests : List Nest) :
    TupleField.ofNests scope nests = nests.mapM (TupleField.ofNest scope) := by
  induction nests with
  | nil => rfl
  | cons nest rest ih =>
    rw [TupleField.ofNests, ih, List.mapM_cons]

/-- The expression that a parenthesised list of fields constructs. -/
def readTuple (scope : Scope) (s : List Char) : Except TextError Expr :=
  match Nest.ofText false s with
  | .leaf _ => .error .tupleForm
  | .unclosed => .error .unclosedTuple
  | .overrun _ => .error .tupleOverrun
  | .group elements => (TupleField.ofNests scope elements).map .tuple

/-- A call of the operation of the given name. -/
def readCall (scope : Scope) (declared : ValueType) (name : String) (s : List Char) :
    Except TextError Expr := do
  let parts ← clauses (trim s)
  let operands ← (operandTexts parts).mapM (Operand.ofText scope)
  let op ← CallText.operation ⟨scope, operands, parts, declared⟩ name
  return .call op operands

/-- An operand on its own. -/
def readAlias (scope : Scope) (s : List Char) : Except TextError Expr := do
  match ← Operand.ofText scope s with
  | .tupleElement source index => return .tupleGet source index
  | operand => return .alias operand

/-- Whether an expression that starts with `c` is an operand. -/
def startsOperand (c : Char) : Bool := c == '%' || c == '-' || c.isDigit

/-- Whether `c` belongs to the name of an operation. -/
def isOperationChar (c : Char) : Bool := !(isBlank c || c == '(' || c == '%')

/-- **`Expr.ofText`** -- reads an expression of the declared type. -/
def Expr.ofText (scope : Scope) (declared : ValueType) (s : List Char) :
    Except TextError Expr :=
  match trim s with
  | [] => .error .emptyRightHandSide
  | c :: rest =>
    let name := (c :: rest).takeWhile isOperationChar
    let arguments := (c :: rest).dropWhile isOperationChar
    if startsOperand c then readAlias scope (c :: rest)
    else if name.isEmpty then .error .emptyOperationName
    else if name = "tuple".toList then readTuple scope arguments
    else readCall scope declared (String.ofList name) arguments

/-- **`Binding.ofText`** -- reads a binding and brings its name into scope. -/
def Binding.ofText (scope : Scope) (s : List Char) : Except TextError (Binding × Scope) :=
  match cutAtFirst '=' s with
  | none => .error .statementForm
  | some (left, right) =>
    let name := valueName left
    if name = "" then .error .emptyResultName
    else
      match cutAtLastArrow right with
      | none => .error .missingBindingType
      | some (rhs, declared) => do
        let ty ← ValueType.ofText declared
        let expr ← Expr.ofText scope ty rhs
        let (id, scope) ← scope.define name ty
        return (⟨id, name, expr, ty⟩, scope)

end TensorGraph
