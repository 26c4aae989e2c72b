/-
# TensorGraph.Typing.Call -- the type of a call

Every operator computes tensors from tensors, and for all but three of them the type of
the result follows from the types of the operands. `ones` and `zeros` take the declared
tensor type, and a custom call takes whatever type is declared. That every operand is a
tensor is checked first, then the number of operands, then the operator's own conditions
in the order in which they are written here.
-/
import TensorGraph.Graph.Operation
import TensorGraph.Graph.ValueType
import TensorGraph.Shape.Broadcast
import TensorGraph.Typing.Fault

namespace TensorGraph

/-! ## Axes -/

/-- Whether `perm` lists each axis below `rank` exactly once. -/
def IsPermutation (perm : List Nat) (rank : Nat) : Prop :=
  perm.length = rank ∧ perm.Nodup ∧ ∀ axis ∈ perm, axis < rank

instance (perm : List Nat) (rank : Nat) : Decidable (IsPermutation perm rank) :=
  inferInstanceAs (Decidable (_ ∧ _ ∧ _))

/-- **`inversePermutation`** -- at position `perm[i]` stands `i`; the last such `i` counts,
and a position that `perm` does not name holds 0. -/
def inversePermutation (perm : List Nat) : List Nat :=
  perm.zipIdx.foldl (fun inverse (axis, i) => inverse.set axis i)
    (List.replicate perm.length 0)

/-- The extents picked in the order of `perm`. -/
def permuted (dims perm : List Nat) : List Nat := perm.filterMap fun axis => dims[axis]?

/-- Whether a sum over `axes` reduces `axis`; without axes given, every axis is reduced. -/
def isReduced (axes : Option (List Nat)) (axis : Nat) : Bool :=
  match axes with
  | none => true
  | some axes => axes.contains axis

/-- The extents with every reduced one set to 1. -/
def keptDims (axes : Option (List Nat)) (dims : List Nat) : List Nat :=
  dims.zipIdx.map fun (dim, axis) => if isReduced axes axis then 1 else dim

/-- The extents after a sum: a reduced axis stays with extent 1 or goes. -/
def reducedDims (axes : Option (List Nat)) (keepdims : Bool) (dims : List Nat) : List Nat :=
  if keepdims then keptDims axes dims
  else dims.zipIdx.filterMap fun (dim, axis) => if isReduced axes axis then none else some dim

/-! ## Operands -/

/-- The specs of operands from position `index` on; a tuple among them is an error. -/
def operandSpecs (op : Operation) (index : Nat) :
    List ValueType → Except ShapeError (List TensorSpec)
  | [] => .ok []
  | .tuple _ :: _ => .error (.tupleOperand op.name index)
  | .tensor spec :: rest =>
    match operandSpecs op (index + 1) rest with
    | .ok specs => .ok (spec :: specs)
    | .error e => .error e

namespace Operation

/-- The sole operand. -/
def single (op : Operation) : List TensorSpec → Except ShapeError TensorSpec
  | [x] => .ok x
  | specs => .error (.arity op.name 1 specs.length)

/-- Both operands of a binary operator, which must have one element type. -/
def pair (op : Operation) : List TensorSpec → Except ShapeError (TensorSpec × TensorSpec)
  | [x, y] =>
    if x.dtype = y.dtype then .ok (x, y)
    else .error (.dtypeMismatch op.name x.dtype y.dtype)
  | specs => .error (.arity op.name 2 specs.length)

/-- The declared tensor type of an operator without operands. -/
def declaredSpec (op : Operation) (specs : List TensorSpec) (declared : Option ValueType) :
    Except ShapeError TensorSpec :=
  match specs, declared.bind ValueType.spec? with
  | [], some spec => .ok spec
  | [], none => .error (.missingDeclaredType op.name)
  | specs, _ => .error (.arity op.name 0 specs.length)

/-! ## The rule of each operator -/

/-- Elementwise operators of two operands stretch both to a common shape. -/
def broadcastSpec (op : Operation) (specs : List TensorSpec) : Except ShapeError TensorSpec := do
  let (x, y) ← op.pair specs
  match x.shape.broadcast? y.shape with
  | some shape => return ⟨x.dtype, shape⟩
  | none => throw (.incompatible x.shape y.shape)

/-- A matrix product contracts the columns of one matrix with the rows of the other. -/
def matmulSpec (specs : List TensorSpec) : Except ShapeError TensorSpec := do
  let (x, y) ← matmul.pair specs
  match x.shape.dims, y.shape.dims with
  | [m, k], [k', n] =>
    if k = k' then return ⟨x.dtype, ⟨[m, n]⟩⟩
    else throw (.invalid matmul.name (.contraction k k'))
  | _, _ => throw (.invalid matmul.name .operandRank)

/-- A transposition reorders the extents. -/
def transposeSpec (perm : List Nat) (specs : List TensorSpec) : Except ShapeError TensorSpec := do
  let x ← (transpose perm).single specs
  if IsPermutation perm x.shape.rank then return ⟨x.dtype, ⟨permuted x.shape.dims perm⟩⟩
  else throw (.invalid (transpose perm).name (.notPermutation perm x.shape.rank))

/-- A reshape keeps the number of elements, which is counted without bound. -/
def reshapeSpec (dims : List Nat) (specs : List TensorSpec) : Except ShapeError TensorSpec := do
  let x ← (reshape dims).single specs
  if (Shape.mk dims).elementCount = x.elementCount then return ⟨x.dtype, ⟨dims⟩⟩
  else throw (.invalid (reshape dims).name (.reshapeCount x.elementCount ⟨dims⟩))

/-- A sum removes the reduced axes, or keeps them with extent 1. The axes must exist and
be named once each. -/
def sumSpec (axes : Option (List Nat)) (keepdims : Bool) (specs : List TensorSpec) :
    Except ShapeError TensorSpec := do
  let x ← (sum axes keepdims).single specs
  let named := axes.getD []
  if named.Nodup ∧ ∀ axis ∈ named, axis < x.shape.rank then
    return ⟨x.dtype, ⟨reducedDims axes keepdims x.shape.dims⟩⟩
  else throw (.invalid (sum axes keepdims).name (.reductionAxes named x.shape.rank))

/-- A softmax keeps the shape and normalises along an existing axis. -/
def softmaxSpec (axis : Nat) (specs : List TensorSpec) : Except ShapeError TensorSpec := do
  let x ← (softmax axis).single specs
  if axis < x.shape.rank then return x
  else throw (.invalid (softmax axis).name (.axisRange axis x.shape.rank))

/-- A cross entropy is a scalar computed from logits and labels of one shape. -/
def crossEntropySpec (specs : List TensorSpec) : Except ShapeError TensorSpec := do
  let (logits, labels) ← softmaxCrossEntropy.pair specs
  if logits.shape ≠ labels.shape then
    throw (.invalid softmaxCrossEntropy.name (.labelShape logits.shape labels.shape))
  else if logits.shape.rank = 0 then
    throw (.invalid softmaxCrossEntropy.name .noClassAxis)
  else return .scalar logits.dtype

/-- A collapse sums the data down to a shape that stretches to that of the data. -/
def collapseSpec (specs : List TensorSpec) : Except ShapeError TensorSpec := do
  let (data, target) ← collapseSumLike.pair specs
  match data.shape.broadcast? target.shape with
  | none => throw (.incompatible data.shape target.shape)
  | some widened =>
    if widened = data.shape then return target
    else throw (.invalid collapseSumLike.name (.collapseTarget target.shape data.shape))

/-- The spec of a call on tensors, for every operator but a custom call. -/
def resultSpec (op : Operation) (specs : List TensorSpec) (declared : Option ValueType) :
    Except ShapeError TensorSpec :=
  match op with
  | add | subtract | multiply | divide => op.broadcastSpec specs
  | negative | exp | log | onesLike | zerosLike => op.single specs
  | matmul => matmulSpec specs
  | transpose perm => transposeSpec perm specs
  | reshape dims => reshapeSpec dims specs
  | sum axes keepdims => sumSpec axes keepdims specs
  | softmax axis => softmaxSpec axis specs
  | softmaxCrossEntropy => crossEntropySpec specs
  | collapseSumLike => collapseSpec specs
  | ones | zeros | customCall _ => op.declaredSpec specs declared

/-- **`resultType`** -- the type of `op` applied to operands of the given types. The
declared type is read only by `ones`, `zeros` and custom calls. -/
def resultType (op : Operation) (operands : List ValueType) (declared : Option ValueType) :
    Except ShapeError ValueType :=
  match operandSpecs op 0 operands with
  | .error e => .error e
  | .ok specs =>
    match op with
    | customCall target =>
      match declared with
      | some ty => .ok ty
      | none => .error (.missingDeclaredType target)
    | _ => (op.resultSpec specs declared).map .tensor

end Operation

end TensorGraph
