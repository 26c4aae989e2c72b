/-
# TensorGraph.Eval.Value -- tensors and tuples of numbers

A tensor is dense and row-major. Tensors are made with as many elements as their spec
says; the spec of a value is compared with the declared type exactly, element type
included, although every element type is computed in the same numbers.
-/
import TensorGraph.Eval.Arithmetic
import TensorGraph.Eval.Sizes

namespace TensorGraph

/-! ## Tensors -/

/-- **`Tensor`** -- numbers in row-major order. -/
structure Tensor (α : Type) where
  /-- Element type and extents. -/
  spec : TensorSpec
  /-- The elements. -/
  data : Array α

namespace Tensor

variable {α : Type}

/-- The extents. -/
def dims (t : Tensor α) : List Nat := t.spec.shape.dims

/-- **`ofData`** -- a tensor of the given elements, if their number is right. -/
def ofData (spec : TensorSpec) (data : Array α) (sizes : Sizes := .exact) :
    Except EvalError (Tensor α) := do
  let count ← sizes.product spec.shape.dims
  if data.size = count then return ⟨spec, data⟩
  else throw (.execution (.valueCount data.size spec))

/-- **A tensor of given elements** exists exactly when their number is right. -/
theorem ofData_eq_ok_iff {spec : TensorSpec} {data : Array α} {t : Tensor α} :
    ofData spec data = .ok t ↔ data.size = spec.elementCount ∧ t = ⟨spec, data⟩ := by
  show (if data.size = spec.elementCount then _ else _) = _ ↔ _
  split
  · next h => exact ⟨fun ht => ⟨h, (Except.ok.inj ht).symm⟩, fun ht => ht.2 ▸ rfl⟩
  · next h => exact ⟨fun ht => (nomatch ht), fun ht => absurd ht.1 h⟩

/-- A rank-0 tensor of type `f32`. -/
def scalar (x : α) : Tensor α := ⟨.scalar .f32, #[x]⟩

/-- A tensor with one number in every element. -/
def filled (spec : TensorSpec) (x : α) : Tensor α := ⟨spec, Array.replicate spec.elementCount x⟩

@[simp] theorem size_filled (spec : TensorSpec) (x : α) :
    (filled spec x).data.size = spec.elementCount := Array.size_replicate

/-- **`fill`** -- makes a tensor with one number in every element. -/
def fill (spec : TensorSpec) (x : α) (sizes : Sizes := .exact) :
    Except EvalError (Tensor α) := do
  let count ← sizes.product spec.shape.dims
  sizes.room count
  return ⟨spec, Array.replicate count x⟩

theorem fill_exact (spec : TensorSpec) (x : α) : fill spec x = .ok (filled spec x) := rfl

/-- The tensor that a literal denotes: it has one of a floating type whose payload is as long
as its spec says. -/
def ofLiteral (ar : Arithmetic α) (l : Literal) (sizes : Sizes := .exact) :
    Except EvalError (Tensor α) := do
  let count ← sizes.product l.spec.shape.dims
  let length ← sizes.word (count * l.spec.dtype.byteWidth)
  match if l.bytes.length = length then l.decode? else none with
  | some words => ofData l.spec (words.map ar.ofWord).toArray sizes
  | none => throw (.unimplemented (.literal l.spec.dtype))

theorem ofLiteral_exact (ar : Arithmetic α) (l : Literal) : ofLiteral ar l =
    match l.words? with
    | some words => ofData l.spec (words.map ar.ofWord).toArray
    | none => .error (.unimplemented (.literal l.spec.dtype)) := rfl

/-- The element of a tensor that has only one. -/
def item (t : Tensor α) : Except EvalError α :=
  match t.data.toList with
  | [x] => .ok x
  | data => .error (.execution (.itemCount t.spec data.length))

end Tensor

/-! ## Values -/

/-- **`Value`** -- a tensor, or a tuple of values. -/
inductive Value (α : Type) where
  | tensor (t : Tensor α)
  | tuple (components : List (Value α))

namespace Value

variable {α : Type}

/-- The tensor that a value is. -/
def asTensor : Value α → Except EvalError (Tensor α)
  | .tensor t => .ok t
  | .tuple _ => .error (.execution .tupleForTensor)

/-- **`component`** -- one component of a tuple. -/
def component : Value α → Nat → Except EvalError (Value α)
  | .tuple components, index =>
    match components[index]? with
    | some v => .ok v
    | none => .error (.execution (.componentRange index components.length))
  | .tensor _, _ => .error (.execution .componentOfTensor)

mutual

/-- **`hasType`** -- whether the specs of a value are those of a type. -/
def hasType : Value α → ValueType → Bool
  | .tensor t, .tensor spec => t.spec == spec
  | .tuple components, .tuple elements => haveTypes components elements
  | .tensor _, .tuple _ => false
  | .tuple _, .tensor _ => false

/-- Whether values have the given types, as many as there are. -/
def haveTypes : List (Value α) → List ValueType → Bool
  | [], [] => true
  | v :: vs, ty :: tys => hasType v ty && haveTypes vs tys
  | _, _ => false

end

end Value

end TensorGraph
