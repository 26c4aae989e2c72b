/-
# TensorGraph.Shape.Basic -- element types, static shapes, tensor specs

A tensor of the graph language is known statically by two things: the type of its
elements and the list of its extents. Rank 0 (no extents) is a scalar with exactly one
element; an extent of 0 makes a tensor empty.

Extents are natural numbers, and the element count is their exact product. A machine has
words of 64 bits for both: multiplied from the first extent to the last, the count overflows
as soon as a product leaves a word, even if an extent behind is 0. The kernels form counts,
strides and places as words (`Sizes`), and an overflow is a fault of theirs
(`EvalFault.overflow`) beside an access out of bounds and a division by zero. A format of
fixed width bounds the numbers where it writes or reads them.

Rendering is by lists of characters, which is what the reader of the text form consumes:
`tensor<f32>` for a scalar, `tensor<f32, 2x3>` otherwise.
-/
import TensorGraph.Prelude

namespace TensorGraph

open scoped CoreInstances

/-! ## Element types -/

/-- **`DType`** -- the scalar types an element may have. -/
inductive DType where
  | i1
  | si32
  | si64
  | f16
  | bf16
  | f32
  | f64
  deriving DecidableEq, Inhabited

namespace DType

/-- Every element type, in declaration order. -/
def all : List DType := [i1, si32, si64, f16, bf16, f32, f64]

/-- The word for the type in the text form. -/
def name : DType → String
  | i1 => "i1"
  | si32 => "si32"
  | si64 => "si64"
  | f16 => "f16"
  | bf16 => "bf16"
  | f32 => "f32"
  | f64 => "f64"

/-- Bytes that one stored element takes. -/
def byteWidth : DType → Nat
  | i1 => 1
  | f16 | bf16 => 2
  | si32 | f32 => 4
  | si64 | f64 => 8

/-- The type a word stands for; the spelling is exact. -/
def ofName? (word : String) : Option DType := all.find? fun d => d.name == word

instance : ToString DType := ⟨name⟩

end DType

/-! ## Shapes -/

/-- **`Shape`** -- the extents of a tensor, outermost axis first. -/
structure Shape where
  /-- One extent per axis. -/
  dims : List Nat
  deriving DecidableEq, Inhabited

namespace Shape

/-- The shape of rank 0. -/
def scalar : Shape := ⟨[]⟩

/-- The number of axes. -/
def rank (s : Shape) : Nat := s.dims.length

/-- Rank 0. -/
def isScalar (s : Shape) : Bool := s.dims.isEmpty

/-- The product of the extents, without bound; 1 for a scalar. Where no product of leading extents
leaves a word, a machine has it too. -/
def elementCount (s : Shape) : Nat := s.dims.prod

/-- Extents in decimal, separated by `x`. -/
def render (s : Shape) : List Char := ['x'].intercalate (s.dims.map (Nat.toDigits 10))

instance : ToString Shape := ⟨fun s => String.ofList s.render⟩

end Shape

/-! ## Tensor specs -/

/-- **`TensorSpec`** -- what is known of a tensor before it is computed. -/
structure TensorSpec where
  /-- The type of every element. -/
  dtype : DType
  /-- The extents. -/
  shape : Shape
  deriving DecidableEq, Inhabited

namespace TensorSpec

/-- The spec of a rank-0 tensor. -/
def scalar (dtype : DType) : TensorSpec := ⟨dtype, Shape.scalar⟩

/-- Rank 0. -/
def isScalar (t : TensorSpec) : Bool := t.shape.isScalar

/-- The number of elements. -/
def elementCount (t : TensorSpec) : Nat := t.shape.elementCount

/-- The number of bytes of a dense payload. -/
def byteLength (t : TensorSpec) : Nat := t.elementCount * t.dtype.byteWidth

/-- The spec as the text form writes it: a scalar shows its element type only. -/
def render (t : TensorSpec) : List Char :=
  let dims := if t.isScalar then [] else ',' :: ' ' :: t.shape.render
  "tensor<".toList ++ t.dtype.name.toList ++ dims ++ ['>']

instance : ToString TensorSpec := ⟨fun t => String.ofList t.render⟩

end TensorSpec

end TensorGraph
