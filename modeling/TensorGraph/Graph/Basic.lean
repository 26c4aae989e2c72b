/-
# TensorGraph.Graph.Basic -- functions and modules of the graph language

A function is a list of parameters, a list of regions and a return expression. A region
holds bindings in order and the list of values it exposes; a binding names the value of an
expression and declares its type. Parameters and bindings share one space of identifiers,
private to the function. A module is an ordered list of functions together with the
version word of its stored form.

Nothing in these types enforces single assignment, typing or scoping; the verifier does.
-/
import TensorGraph.Graph.Literal
import TensorGraph.Graph.Operation
import TensorGraph.Graph.ValueType

namespace TensorGraph

/-! ## Expressions -/

/-- **`ValueId`** -- the identity of a value within its function. -/
structure ValueId where
  /-- The number by which stored forms refer to the value. -/
  index : Nat
  deriving DecidableEq, Inhabited

/-- **`Operand`** -- what an expression reads. -/
inductive Operand where
  | value (id : ValueId)
  | tupleElement (tuple : ValueId) (index : Nat)
  | literal (constant : Literal)
  deriving DecidableEq, Inhabited

/-- **`TupleField`** -- one field of a tuple construction; tuples may be nested inline. -/
inductive TupleField where
  | operand (operand : Operand)
  | tuple (fields : List TupleField)
  deriving Inhabited

namespace TupleField

mutual

/-- Decides equality of fields. -/
def decEq : (a b : TupleField) → Decidable (a = b)
  | .operand x, .operand y =>
    if h : x = y then isTrue (congrArg _ h) else isFalse fun e => h (operand.inj e)
  | .tuple xs, .tuple ys =>
    match decEqList xs ys with
    | isTrue h => isTrue (congrArg _ h)
    | isFalse h => isFalse fun e => h (tuple.inj e)
  | .operand _, .tuple _ => isFalse fun e => nomatch e
  | .tuple _, .operand _ => isFalse fun e => nomatch e

/-- Decides equality of lists of fields. -/
def decEqList : (as bs : List TupleField) → Decidable (as = bs)
  | [], [] => isTrue rfl
  | [], _ :: _ => isFalse fun e => nomatch e
  | _ :: _, [] => isFalse fun e => nomatch e
  | a :: as, b :: bs =>
    match decEq a b, decEqList as bs with
    | isTrue h, isTrue hs => isTrue (h ▸ hs ▸ rfl)
    | isFalse h, _ => isFalse fun e => h (List.cons.inj e).1
    | _, isFalse hs => isFalse fun e => hs (List.cons.inj e).2

end

instance : DecidableEq TupleField := decEq

end TupleField

/-- **`Expr`** -- the right-hand side of a binding. -/
inductive Expr where
  | call (op : Operation) (operands : List Operand)
  | tuple (fields : List TupleField)
  | tupleGet (tuple : ValueId) (index : Nat)
  /-- A second name for a value or a constant. -/
  | alias (operand : Operand)
  deriving DecidableEq, Inhabited

/-- **`ReturnExpr`** -- what a function returns: a value, or a tuple built of values. -/
inductive ReturnExpr where
  | value (id : ValueId)
  | tuple (elements : List ReturnExpr)
  deriving Inhabited

namespace ReturnExpr

mutual

/-- Decides equality of return expressions. -/
def decEq : (a b : ReturnExpr) → Decidable (a = b)
  | .value x, .value y =>
    if h : x = y then isTrue (congrArg _ h) else isFalse fun e => h (value.inj e)
  | .tuple xs, .tuple ys =>
    match decEqList xs ys with
    | isTrue h => isTrue (congrArg _ h)
    | isFalse h => isFalse fun e => h (tuple.inj e)
  | .value _, .tuple _ => isFalse fun e => nomatch e
  | .tuple _, .value _ => isFalse fun e => nomatch e

/-- Decides equality of lists of return expressions. -/
def decEqList : (as bs : List ReturnExpr) → Decidable (as = bs)
  | [], [] => isTrue rfl
  | [], _ :: _ => isFalse fun e => nomatch e
  | _ :: _, [] => isFalse fun e => nomatch e
  | a :: as, b :: bs =>
    match decEq a b, decEqList as bs with
    | isTrue h, isTrue hs => isTrue (h ▸ hs ▸ rfl)
    | isFalse h, _ => isFalse fun e => h (List.cons.inj e).1
    | _, isFalse hs => isFalse fun e => hs (List.cons.inj e).2

end

instance : DecidableEq ReturnExpr := decEq

end ReturnExpr

/-! ## Functions and modules -/

/-- **`Param`** -- a parameter of a function. -/
structure Param where
  /-- The identity of the value it brings. -/
  id : ValueId
  /-- Its name in the text form. -/
  name : String
  /-- Its type. -/
  ty : ValueType
  deriving DecidableEq, Inhabited

/-- **`Binding`** -- a named expression with its declared type. -/
structure Binding where
  /-- The identity of the value it defines. -/
  id : ValueId
  /-- Its name in the text form. -/
  name : String
  /-- The expression. -/
  expr : Expr
  /-- The declared type. -/
  ty : ValueType
  deriving DecidableEq, Inhabited

/-- **`Region`** -- bindings in order, and the values exposed downstream. -/
structure Region where
  /-- Bindings, each free to read those before it. -/
  bindings : List Binding
  /-- Exposed values. -/
  outputs : List ValueId
  deriving DecidableEq, Inhabited

/-- **`Function`** -- one function of a module. -/
structure Function where
  /-- Its name, unique in a well-formed module. -/
  name : String
  /-- Parameters in calling order. -/
  params : List Param
  /-- Regions in the order of evaluation. -/
  regions : List Region
  /-- What is returned. -/
  ret : ReturnExpr
  deriving DecidableEq, Inhabited

/-- The version word of the stored forms. -/
def currentVersion : String := "gradgraph.v1"

/-- **`Module`** -- functions in order of insertion. -/
structure Module where
  /-- The version word carried by the stored forms. -/
  version : String
  /-- The functions. -/
  functions : List Function
  deriving DecidableEq, Inhabited

end TensorGraph
