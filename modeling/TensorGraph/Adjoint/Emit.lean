/-
# TensorGraph.Adjoint.Emit -- binding adjoints

Emitting an adjoint appends the bindings that compute it to a function in the making. The
arguments of an operator come first, depth-first and left to right, each under a name for
intermediate values; a leaf needs no binding.
-/
import TensorGraph.Adjoint.Expr
import TensorGraph.Build.Builder

namespace TensorGraph

/-- **`Emit`** -- appends to a function; fails when an adjoint that is a tuple stands where
a tensor is needed. -/
abbrev Emit := StateT Builder Option

namespace Emit

/-- Appends a binding. -/
def bind (hint : String) (expr : Expr) (ty : ValueType) : Emit ValueId :=
  fun b => some (b.bind hint expr ty)

mutual

/-- **`operand`** -- an operand that holds an adjoint; `temp` names what is bound on the
way. -/
def operand (temp : String) : Adjoint → Emit Operand
  | .leaf operand _ => pure operand
  | .zeros spec => .value <$> bind temp (.call .zeros []) (.tensor spec)
  | .call op args spec => do
    let xs ← operands temp args
    .value <$> bind temp (.call op xs) (.tensor spec)
  | .tuple _ => failure

/-- Operands that hold several adjoints. -/
def operands (temp : String) : List Adjoint → Emit (List Operand)
  | [] => pure []
  | a :: rest => do
    let x ← operand temp a
    let xs ← operands temp rest
    return x :: xs

end

/-- **`settle`** -- an adjoint without pending operators: what has to be computed is bound
under the name `hint`; a leaf or a tuple stays as it is. -/
def settle (temp hint : String) : Adjoint → Emit Adjoint
  | .zeros spec => do
    let id ← bind hint (.call .zeros []) (.tensor spec)
    return .leaf (.value id) spec
  | .call op args spec => do
    let xs ← operands temp args
    let id ← bind hint (.call op xs) (.tensor spec)
    return .leaf (.value id) spec
  | settled => pure settled

mutual

/-- A field of a tuple construction that holds an adjoint. -/
def field (temp : String) : Adjoint → Emit TupleField
  | .tuple components => .tuple <$> fields temp components
  | a => .operand <$> operand temp a

/-- Fields that hold several adjoints. -/
def fields (temp : String) : List Adjoint → Emit (List TupleField)
  | [] => pure []
  | a :: rest => do
    let x ← field temp a
    let xs ← fields temp rest
    return x :: xs

end

/-- The expression that reads an operand. -/
def reading : Operand → Expr
  | .tupleElement tuple index => .tupleGet tuple index
  | operand => .alias operand

/-- **`value`** -- a value that holds an adjoint of type `ty`, bound under the name
`hint`. -/
def value (temp hint : String) (ty : ValueType) : Adjoint → Emit ValueId
  | .leaf operand spec => bind hint (reading operand) (.tensor spec)
  | .tuple components => do
    let xs ← fields temp components
    bind hint (.tuple xs) ty
  | .zeros spec => bind hint (.call .zeros []) (.tensor spec)
  | .call op args spec => do
    let xs ← operands temp args
    bind hint (.call op xs) (.tensor spec)

end Emit

end TensorGraph
