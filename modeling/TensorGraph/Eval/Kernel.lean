/-
# TensorGraph.Eval.Kernel -- what each operator computes

A kernel takes the operands and the declared spec of the result. It checks what its index
arithmetic relies on and the number of elements it produced. Sums run over the data in
row-major order and start from zero; the two softmax kernels subtract the maximum of each
row first.
-/
import TensorGraph.Eval.Layout
import TensorGraph.Eval.Value
import TensorGraph.Typing.Call

namespace TensorGraph

open scoped CoreInstances

/-- **`CustomKernels`** -- kernels for the targets of custom calls. -/
abbrev CustomKernels (α : Type) :=
  String → List (Tensor α) → TensorSpec → Option (Except EvalError (Tensor α))

/-- No target has a kernel. -/
def CustomKernels.none {α : Type} : CustomKernels α := fun _ _ _ => .none

namespace Kernel

variable {α : Type}

/-! ## Operands -/

/-- The sole operand. -/
def single : List (Tensor α) → Except EvalError (Tensor α)
  | [x] => .ok x
  | _ => .error (.execution .notSingle)

/-- Both operands. -/
def pair : List (Tensor α) → Except EvalError (Tensor α × Tensor α)
  | [x, y] => .ok (x, y)
  | _ => .error (.execution .notPair)

/-! ## Elementwise -/

/-- Combines two tensors, both stretched to the result. -/
def binary (f : α → α → α) (inputs : List (Tensor α)) (output : TensorSpec)
    (sizes : Sizes := .exact) : Except EvalError (Tensor α) := do
  let (x, y) ← pair inputs
  let a ← broadcastData x.data x.dims output.shape.dims sizes
  let b ← broadcastData y.data y.dims output.shape.dims sizes
  Tensor.ofData output (a.zipWith f b) sizes

/-- Maps every element. -/
def unary (f : α → α) (inputs : List (Tensor α)) (output : TensorSpec)
    (sizes : Sizes := .exact) : Except EvalError (Tensor α) := do
  let x ← single inputs
  Tensor.ofData output (x.data.map f) sizes

/-- One number everywhere, in the shape of an operand. -/
def constantLike (c : α) (inputs : List (Tensor α)) (output : TensorSpec)
    (sizes : Sizes := .exact) : Except EvalError (Tensor α) := do
  let _ ← single inputs
  Tensor.fill output c sizes

/-! ## Rearrangement -/

/-- The sum of coordinates times the strides of the axes they come from. -/
def permutedPlace (inputStrides perm coords : List Nat) : Except EvalError Nat := do
  let terms ← coords.zipIdx.mapM fun (c, axis) =>
    match perm[axis]?.bind fun from' => inputStrides[from']? with
    | some stride => Except.ok (c * stride)
    | none => .error (.execution .outOfBounds)
  return terms.sum

/-- Axis `i` of the result is axis `perm[i]` of the operand. -/
def transpose (perm : List Nat) (inputs : List (Tensor α)) (output : TensorSpec)
    (sizes : Sizes := .exact) : Except EvalError (Tensor α) := do
  let x ← single inputs
  if perm.length = x.dims.length then
    let steps ← sizes.strides x.dims
    let count ← sizes.product output.shape.dims
    sizes.room count
    let data ← (List.range count).mapM fun place => do
      let coords ← unravel output.shape.dims place
      element x.data (sizes.place (← permutedPlace steps perm coords))
    Tensor.ofData output data.toArray sizes
  else throw (.execution .transposeRank)

/-- The same elements in another shape. -/
def reshape (inputs : List (Tensor α)) (output : TensorSpec) (sizes : Sizes := .exact) :
    Except EvalError (Tensor α) := do
  let x ← single inputs
  let count ← sizes.product output.shape.dims
  if x.data.size = count then return ⟨output, x.data⟩
  else throw (.execution .reshapeCount)

/-! ## Sums -/

/-- **`scatterAdd`** -- adds each element of the data, in order, to the slot of its
place. -/
def scatterAdd (ar : Arithmetic α) (slots : Nat) (slotOf : Nat → Except EvalError Nat)
    (data : Array α) (sizes : Sizes := .exact) : Except EvalError (Array α) :=
  data.toList.zipIdx.foldlM
    (fun sums (x, place) => do
      let slot := sizes.place (← slotOf place)
      match sums[slot]? with
      | some sum => return sums.setIfInBounds slot (ar.add sum x)
      | none => throw (.execution .outOfBounds))
    (Array.replicate slots ar.zero)

/-- The slot of a place in a sum over `axes`: reduced coordinates do not count. -/
def sumSlot (axes : Option (List Nat)) (dims : List Nat) (place : Nat) : Except EvalError Nat := do
  let coords ← unravel dims place
  let kept := coords.zipIdx.map fun (c, axis) => if isReduced axes axis then 0 else c
  return dot kept (strides (keptDims axes dims))

/-- Sums over axes. -/
def sum (ar : Arithmetic α) (axes : Option (List Nat)) (inputs : List (Tensor α))
    (output : TensorSpec) (sizes : Sizes := .exact) : Except EvalError (Tensor α) := do
  let x ← single inputs
  let kept := keptDims axes x.dims
  let _ ← sizes.strides kept
  let slots ← sizes.product kept
  sizes.room slots
  let data ← scatterAdd ar slots (sumSlot axes x.dims) x.data sizes
  Tensor.ofData output data sizes

/-- The slot that coordinates collapse to: an axis where the target has extent 1 does not
count. -/
def collapsedPlace : (target coords : List Nat) → Except EvalError Nat
  | [], _ => .ok 0
  | t :: ts, c :: cs => do
    if t = 1 then collapsedPlace ts cs
    else if t ≤ c then throw (.execution .collapseTarget)
    else return c * ts.prod + (← collapsedPlace ts cs)
  | _ :: _, [] => .error (.execution .outOfBounds)

/-- The slot of a place of the data in a collapse: leading axes do not count. -/
def collapseSlot (dims target : List Nat) (place : Nat) : Except EvalError Nat := do
  let coords ← unravel dims place
  collapsedPlace target (coords.drop (dims.length - target.length))

/-- Sums the data down to the shape of the target. -/
def collapseSumLike (ar : Arithmetic α) (inputs : List (Tensor α)) (output : TensorSpec)
    (sizes : Sizes := .exact) : Except EvalError (Tensor α) := do
  let (x, _) ← pair inputs
  if x.dims.length < output.shape.rank then throw (.execution .collapseRank)
  else
    let _ ← sizes.strides output.shape.dims
    let slots ← sizes.product output.shape.dims
    sizes.room slots
    let data ← scatterAdd ar slots (collapseSlot x.dims output.shape.dims) x.data sizes
    Tensor.ofData output data sizes

/-! ## Matrix product -/

/-- One element of a matrix product with `k` terms. -/
def matmulEntry (ar : Arithmetic α) (x y : Array α) (k n i j : Nat) : Except EvalError α :=
  (List.range k).foldlM
    (fun sum p => do
      let a ← element x (i * k + p)
      let b ← element y (p * n + j)
      return ar.add sum (ar.mul a b))
    ar.zero

/-- The product of two matrices. -/
def matmul (ar : Arithmetic α) (inputs : List (Tensor α)) (output : TensorSpec)
    (sizes : Sizes := .exact) : Except EvalError (Tensor α) := do
  let (x, y) ← pair inputs
  match x.dims, y.dims with
  | [m, k], [k', n] =>
    if k = k' then
      let count ← sizes.word (m * n)
      sizes.room count
      if count = m * n then
        -- all of the first matrix is read, also where the second has no columns
        if x.data.size < m * k then throw (.execution .outOfBounds)
        else
          let data ← (List.range m).mapM fun i =>
            (List.range n).mapM fun j => matmulEntry ar x.data y.data k n i j
          Tensor.ofData output data.flatten.toArray sizes
      -- a count that has wrapped is less than what is written, if anything is added at all
      else if k = 0 then Tensor.ofData output (Array.replicate count ar.zero) sizes
      else throw (.execution .outOfBounds)
    else throw (.execution (.contraction x.spec y.spec))
  | _, _ => throw (.execution (.contraction x.spec y.spec))

/-! ## Softmax -/

/-- The greatest element of a lane. -/
def laneMax (ar : Arithmetic α) (xs : List α) : α := xs.foldl ar.max ar.lowest

/-- The exponentials of a lane, relative to its maximum. -/
def laneExp (ar : Arithmetic α) (xs : List α) : List α :=
  let greatest := laneMax ar xs
  xs.map fun x => ar.exp (ar.sub x greatest)

/-- The sum of a list. -/
def total (ar : Arithmetic α) (xs : List α) : α := xs.foldl ar.add ar.zero

/-- **`laneSoftmax`** -- the exponentials of a lane divided by their sum. -/
def laneSoftmax (ar : Arithmetic α) (xs : List α) : List α :=
  let es := laneExp ar xs
  let sum := total ar es
  es.map fun e => ar.div e sum

/-- Writes a number at a place. -/
def writeAt (data : Array α) (place : Nat) (y : α) : Except EvalError (Array α) :=
  if place < data.size then .ok (data.setIfInBounds place y)
  else .error (.execution .outOfBounds)

/-- Writes numbers at places. -/
def writeLane (data : Array α) (places : List Nat) (ys : List α) : Except EvalError (Array α) :=
  (places.zip ys).foldlM (fun data (place, y) => writeAt data place y) data

/-- Normalises along an axis. -/
def softmax (ar : Arithmetic α) (axis : Nat) (inputs : List (Tensor α)) (output : TensorSpec)
    (sizes : Sizes := .exact) : Except EvalError (Tensor α) := do
  let x ← single inputs
  if axis < x.dims.length then
    let data ← (← lanes x.dims axis sizes).foldlM
      (fun data places => do
        let xs ← places.mapM (element x.data)
        writeLane data places (laneSoftmax ar xs))
      x.data
    Tensor.ofData output data sizes
  else throw (.execution .softmaxAxis)

/-- **`laneLoss`** -- what a lane of logits and labels takes off the loss so far: each
label times the logarithm of the softmax of its logit. -/
def laneLoss (ar : Arithmetic α) (loss : α) (xs ts : List α) : α :=
  let greatest := laneMax ar xs
  let logSum := ar.log (total ar (laneExp ar xs))
  (xs.zip ts).foldl
    (fun loss (x, t) => ar.sub loss (ar.mul t (ar.sub (ar.sub x greatest) logSum)))
    loss

/-- The cross entropy of labels and the softmax of logits along the last axis. -/
def softmaxCrossEntropy (ar : Arithmetic α) (inputs : List (Tensor α)) (output : TensorSpec)
    (sizes : Sizes := .exact) : Except EvalError (Tensor α) := do
  let (logits, labels) ← pair inputs
  if logits.spec.shape ≠ labels.spec.shape then throw (.execution .labelShape)
  else if logits.dims.isEmpty then throw (.execution .noClassAxis)
  else
    let loss ← (← lanes logits.dims (logits.dims.length - 1) sizes).foldlM
      (fun loss places => do
        let xs ← places.mapM (element logits.data)
        let ts ← places.mapM (element labels.data)
        return laneLoss ar loss xs ts)
      ar.zero
    Tensor.ofData output #[loss] sizes

/-! ## All operators -/

/-- **`run`** -- applies an operator. -/
def run (ar : Arithmetic α) (custom : CustomKernels α) (op : Operation)
    (inputs : List (Tensor α)) (output : TensorSpec) (sizes : Sizes := .exact) :
    Except EvalError (Tensor α) :=
  match op with
  | .add => binary ar.add inputs output sizes
  | .subtract => binary ar.sub inputs output sizes
  | .multiply => binary ar.mul inputs output sizes
  | .divide => binary ar.div inputs output sizes
  | .negative => unary ar.neg inputs output sizes
  | .exp => unary ar.exp inputs output sizes
  | .log => unary ar.log inputs output sizes
  | .matmul => matmul ar inputs output sizes
  | .transpose perm => transpose perm inputs output sizes
  | .reshape _ => reshape inputs output sizes
  | .sum axes _ => sum ar axes inputs output sizes
  | .softmax axis => softmax ar axis inputs output sizes
  | .softmaxCrossEntropy => softmaxCrossEntropy ar inputs output sizes
  | .ones => Tensor.fill output ar.one sizes
  | .zeros => Tensor.fill output ar.zero sizes
  | .onesLike => constantLike ar.one inputs output sizes
  | .zerosLike => constantLike ar.zero inputs output sizes
  | .collapseSumLike => collapseSumLike ar inputs output sizes
  | .customCall target =>
    (custom target inputs output).getD (.error (.unimplemented (.kernel target)))

end Kernel

end TensorGraph
