/-
# TensorGraph.Adjoint.Expr -- adjoints before they are bound

The adjoint of a value has the tuple structure of the value. Its tensors are operands that
exist already, known zeros, or operators applied to other adjoints that nobody has bound
yet: contributions are summed first and bound once. Adding a zero changes nothing, not
even the form of the other summand.
-/
import TensorGraph.Graph.Basic
import TensorGraph.Typing.Call

namespace TensorGraph

/-- **`Adjoint`** -- an adjoint in the making. -/
inductive Adjoint where
  /-- A tensor that the function computes already. -/
  | leaf (operand : Operand) (spec : TensorSpec)
  /-- An operator applied to adjoints. -/
  | call (op : Operation) (args : List Adjoint) (spec : TensorSpec)
  /-- A tensor known to be zero. -/
  | zeros (spec : TensorSpec)
  | tuple (components : List Adjoint)
  deriving Inhabited

namespace Adjoint

/-! ## Constants -/

mutual

/-- **`zerosOf`** -- zero in every tensor of a type. -/
def zerosOf : ValueType → Adjoint
  | .tensor spec => .zeros spec
  | .tuple elements => .tuple (zerosOfAll elements)

/-- Zeros for several types. -/
def zerosOfAll : List ValueType → List Adjoint
  | [] => []
  | ty :: rest => zerosOf ty :: zerosOfAll rest

end

theorem zerosOfAll_eq_map (tys : List ValueType) : zerosOfAll tys = tys.map zerosOf := by
  induction tys with
  | nil => rfl
  | cons ty rest ih => rw [zerosOfAll, ih, List.map_cons]

/-- One in every element. -/
def ones (spec : TensorSpec) : Adjoint := .call .ones [] spec

/-! ## What is known of an adjoint -/

/-- The spec of a tensor. -/
def spec? : Adjoint → Option TensorSpec
  | leaf _ spec | call _ _ spec | zeros spec => some spec
  | tuple _ => none

mutual

/-- The type. -/
def type : Adjoint → ValueType
  | leaf _ spec | call _ _ spec | zeros spec => .tensor spec
  | tuple components => .tuple (types components)

/-- The types of several adjoints. -/
def types : List Adjoint → List ValueType
  | [] => []
  | a :: rest => type a :: types rest

end

theorem types_eq_map (as : List Adjoint) : types as = as.map type := by
  induction as with
  | nil => rfl
  | cons a rest ih => rw [types, ih, List.map_cons]

mutual

/-- **`isZero`** -- whether every tensor is a known zero. -/
def isZero : Adjoint → Bool
  | zeros _ => true
  | tuple components => allZero components
  | leaf _ _ | call _ _ _ => false

/-- Whether several adjoints are all zero. -/
def allZero : List Adjoint → Bool
  | [] => true
  | a :: rest => isZero a && allZero rest

end

mutual

/-- **The zero of a type** has that type. -/
theorem type_zerosOf (ty : ValueType) : (zerosOf ty).type = ty := by
  cases ty with
  | tensor spec => rfl
  | tuple elements => rw [zerosOf, type, types_zerosOfAll]

/-- The zeros of several types have those types. -/
theorem types_zerosOfAll (tys : List ValueType) : types (zerosOfAll tys) = tys := by
  cases tys with
  | nil => rfl
  | cons ty rest => rw [zerosOfAll, types, type_zerosOf, types_zerosOfAll]

end

mutual

/-- The zero of a type is known to be zero. -/
theorem isZero_zerosOf (ty : ValueType) : (zerosOf ty).isZero = true := by
  cases ty with
  | tensor spec => rfl
  | tuple elements => rw [zerosOf, isZero, allZero_zerosOfAll]

/-- The zeros of several types are known to be zero. -/
theorem allZero_zerosOfAll (tys : List ValueType) : allZero (zerosOfAll tys) = true := by
  cases tys with
  | nil => rfl
  | cons ty rest => rw [zerosOfAll, allZero, isZero_zerosOf, allZero_zerosOfAll, Bool.and_self]

end

/-! ## Building -/

/-- **`apply`** -- an operator applied to adjoints, with the type that follows. -/
def apply (op : Operation) (args : List Adjoint) : Except ShapeError Adjoint :=
  match op.resultType (types args) none with
  | .ok (.tensor spec) => .ok (.call op args spec)
  | .ok (.tuple _) => .error (.invalid op.name .tupleResult)
  | .error e => .error e

mutual

/-- **`add`** -- the sum of two adjoints, component by component. -/
def add : Adjoint → Adjoint → Except ShapeError Adjoint
  | zeros _, b => .ok b
  | a, zeros _ => .ok a
  | tuple as, tuple bs =>
    if as.length = bs.length then (addAll as bs).map .tuple
    else .error (.invalid Operation.add.name (.tupleArity as.length bs.length))
  | a, b => apply .add [a, b]

/-- The sums of corresponding adjoints. -/
def addAll : List Adjoint → List Adjoint → Except ShapeError (List Adjoint)
  | a :: as, b :: bs => do
    let c ← add a b
    let cs ← addAll as bs
    return c :: cs
  | _, _ => .ok []

end

/-- **`addAt`** -- adds to one component of a tuple. -/
def addAt (a : Adjoint) (index : Nat) (summand : Adjoint) : Except ShapeError Adjoint :=
  match a with
  | tuple components =>
    match components[index]? with
    | some current => (current.add summand).map fun c => .tuple (components.set index c)
    | none => .error (.invalid "tuple_get" (.componentRange index components.length))
  | _ => .error (.invalid "tuple_get" .notTuple)

/-- The negative. -/
def negative (a : Adjoint) : Except ShapeError Adjoint := apply .negative [a]

/-- The exponential, elementwise. -/
def exp (a : Adjoint) : Except ShapeError Adjoint := apply .exp [a]

/-- The product, elementwise. -/
def multiply (a b : Adjoint) : Except ShapeError Adjoint := apply .multiply [a, b]

/-- The quotient, elementwise. -/
def divide (a b : Adjoint) : Except ShapeError Adjoint := apply .divide [a, b]

/-- The difference, elementwise. -/
def subtract (a b : Adjoint) : Except ShapeError Adjoint := apply .subtract [a, b]

/-- The product of matrices. -/
def matmul (a b : Adjoint) : Except ShapeError Adjoint := apply .matmul [a, b]

/-- The axes in another order. -/
def transpose (a : Adjoint) (perm : List Nat) : Except ShapeError Adjoint :=
  apply (.transpose perm) [a]

/-- A matrix with rows and columns exchanged. -/
def transposed (a : Adjoint) : Except ShapeError Adjoint := a.transpose [1, 0]

/-- The elements in another shape. -/
def reshape (a : Adjoint) (shape : Shape) : Except ShapeError Adjoint :=
  apply (.reshape shape.dims) [a]

/-- The softmax along an axis. -/
def softmax (a : Adjoint) (axis : Nat) : Except ShapeError Adjoint := apply (.softmax axis) [a]

/-- Ones in the shape of an adjoint. -/
def onesLike (a : Adjoint) : Except ShapeError Adjoint := apply .onesLike [a]

/-- The sum over the axes along which `target` was stretched. -/
def collapseSumLike (a target : Adjoint) : Except ShapeError Adjoint :=
  apply .collapseSumLike [a, target]

end Adjoint

end TensorGraph
