/-
# TensorGraph.Text.Type -- types in the text form

`tensor<f32, 2x3>`, `tensor<f32>` for a scalar, or a list of types between parentheses.
The word for the element type may be written in any case of letters; blanks are allowed
around every part.
-/
import TensorGraph.Graph.ValueType
import TensorGraph.Text.Error
import TensorGraph.Text.Nest
import TensorGraph.Text.Number

namespace TensorGraph

/-- Extents separated by `x`. -/
def readDims (s : List Char) : Except TextError (List Nat) :=
  (s.splitOn 'x').mapM fun piece =>
    let dim := trim piece
    if dim.isEmpty then .error .emptyDimension
    else
      match readIndex? dim with
      | some n => .ok n
      | none => .error (.invalidDimension (String.ofList dim))

/-- The word for an element type. -/
def readDType (s : List Char) : Except TextError DType :=
  let word := String.ofList ((trim s).map Char.toLower)
  match DType.ofName? word with
  | some dtype => .ok dtype
  | none => .error (.unsupportedDType word)

/-- What stands between `tensor<` and `>`. -/
def readTensorBody (body : List Char) : Except TextError TensorSpec := do
  match body.splitOn ',' with
  | [] => return ⟨← readDType [], .scalar⟩
  | word :: parts =>
    let dtype ← readDType word
    let dims := trim (parts.headD [])
    let dims ← if dims.isEmpty then pure [] else readDims dims
    if parts.length ≤ 1 then return ⟨dtype, ⟨dims⟩⟩ else throw .tensorForm

/-- A type that is no tuple. -/
def readTensorType (s : List Char) : Except TextError ValueType :=
  match (after? "tensor<" s).bind fun rest => ['>'].isSuffixOf? rest with
  | some body => (readTensorBody body).map .tensor
  | none => .error (.unsupportedType (String.ofList s))

mutual

/-- The type that an outline spells. -/
def ValueType.ofNest : Nest → Except TextError ValueType
  | .leaf text => readTensorType text
  | .unclosed => .error .unclosedTupleType
  | .overrun text => .error (.malformedTupleType (String.ofList text))
  | .group elements => do return .tuple (← ValueType.ofNests elements)

/-- The types that several outlines spell; the first fault counts. -/
def ValueType.ofNests : List Nest → Except TextError (List ValueType)
  | [] => return []
  | nest :: rest => do
    let ty ← ValueType.ofNest nest
    return ty :: (← ValueType.ofNests rest)

end

theorem ValueType.ofNests_eq_mapM (nests : List Nest) :
    ValueType.ofNests nests = nests.mapM ValueType.ofNest := by
  induction nests with
  | nil => rfl
  | cons nest rest ih =>
    rw [ValueType.ofNests, ih, List.mapM_cons]

/-- **`ValueType.ofText`** -- reads a type. -/
def ValueType.ofText (s : List Char) : Except TextError ValueType :=
  ValueType.ofNest (Nest.ofText true s)

end TensorGraph
