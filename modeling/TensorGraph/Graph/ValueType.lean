/-
# TensorGraph.Graph.ValueType -- types of values

A value is a tensor or a tuple of values, to any depth. The type is a rose tree, so
equality is decided by a pair of functions, one on types and one on lists of types.
-/
import TensorGraph.Shape.Basic

namespace TensorGraph

/-- **`ValueType`** -- the static type of a value. -/
inductive ValueType where
  | tensor (spec : TensorSpec)
  | tuple (elements : List ValueType)
  deriving Inhabited

namespace ValueType

mutual

/-- Decides equality of types. -/
def decEq : (a b : ValueType) → Decidable (a = b)
  | .tensor s, .tensor t =>
    if h : s = t then isTrue (congrArg _ h) else isFalse fun e => h (tensor.inj e)
  | .tuple xs, .tuple ys =>
    match decEqList xs ys with
    | isTrue h => isTrue (congrArg _ h)
    | isFalse h => isFalse fun e => h (tuple.inj e)
  | .tensor _, .tuple _ => isFalse fun e => nomatch e
  | .tuple _, .tensor _ => isFalse fun e => nomatch e

/-- Decides equality of lists of types. -/
def decEqList : (as bs : List ValueType) → Decidable (as = bs)
  | [], [] => isTrue rfl
  | [], _ :: _ => isFalse fun e => nomatch e
  | _ :: _, [] => isFalse fun e => nomatch e
  | a :: as, b :: bs =>
    match decEq a b, decEqList as bs with
    | isTrue h, isTrue hs => isTrue (h ▸ hs ▸ rfl)
    | isFalse h, _ => isFalse fun e => h (List.cons.inj e).1
    | _, isFalse hs => isFalse fun e => hs (List.cons.inj e).2

end

instance : DecidableEq ValueType := decEq

/-- The spec, when the type is a tensor type. -/
def spec? : ValueType → Option TensorSpec
  | .tensor spec => some spec
  | .tuple _ => none

/-- A tensor type of rank 0. -/
def isScalarTensor : ValueType → Bool
  | .tensor spec => spec.isScalar
  | .tuple _ => false

/-- The type of one component of a tuple. -/
def element? : ValueType → Nat → Option ValueType
  | .tuple elements, index => elements[index]?
  | .tensor _, _ => none

mutual

/-- The tensor types within a type. -/
def specs : ValueType → List TensorSpec
  | .tensor spec => [spec]
  | .tuple elements => specsAll elements

/-- The tensor types within several types. -/
def specsAll : List ValueType → List TensorSpec
  | [] => []
  | ty :: rest => ty.specs ++ specsAll rest

end

theorem specsAll_eq_flatMap (tys : List ValueType) : specsAll tys = tys.flatMap specs := by
  induction tys with
  | nil => rfl
  | cons ty rest ih => rw [specsAll, ih, List.flatMap_cons]

mutual

/-- A type in the text form; a tuple is its components between parentheses. -/
def render : ValueType → List Char
  | .tensor spec => spec.render
  | .tuple elements => '(' :: [',', ' '].intercalate (renderList elements) ++ [')']

/-- The components of a tuple type, each rendered. -/
def renderList : List ValueType → List (List Char)
  | [] => []
  | ty :: rest => ty.render :: renderList rest

end

instance : ToString ValueType := ⟨fun ty => String.ofList ty.render⟩

end ValueType

end TensorGraph
