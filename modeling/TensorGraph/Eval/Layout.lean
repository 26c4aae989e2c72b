/-
# TensorGraph.Eval.Layout -- positions in row-major tensors

A position is a list of coordinates, one for each axis, and its place in the data is the
sum of coordinates times strides. The stride of an axis is the product of the extents
behind it. Stretching to a broadcast shape reads one element many times; it is done in
whole blocks wherever the remaining axes agree or the source has none that matters.
-/
import TensorGraph.Eval.Sizes

namespace TensorGraph

open scoped CoreInstances

/-! ## Coordinates -/

/-- The coordinates of a place, in a tensor without empty axes. -/
def coordinates : List Nat → Nat → List Nat
  | [], _ => []
  | dim :: dims, place => place / dims.prod % dim :: coordinates dims place

@[simp] theorem length_coordinates (dims : List Nat) (place : Nat) :
    (coordinates dims place).length = dims.length := by
  induction dims with
  | nil => rfl
  | cons dim dims ih => rw [coordinates, List.length_cons, ih, List.length_cons]

/-- **`unravel`** -- the coordinates of a place; a tensor with an empty axis has no
places. -/
def unravel (dims : List Nat) (place : Nat) : Except EvalError (List Nat) :=
  if dims.contains 0 then .error (.execution .divisionByZero) else .ok (coordinates dims place)

/-- The sum of coordinates times strides. -/
def dot (coords strides : List Nat) : Nat := (List.zipWith (· * ·) coords strides).sum

/-- **Coordinates determine the place**, below the number of elements. -/
theorem dot_coordinates (dims : List Nat) (place : Nat) :
    dot (coordinates dims place) (strides dims) = place % dims.prod := by
  induction dims with
  | nil =>
    rw [List.prod_nil, Nat.mod_one]
    rfl
  | cons dim dims ih =>
    show place / dims.prod % dim * dims.prod + dot (coordinates dims place) (strides dims) = _
    rw [ih, List.prod_cons, Nat.mul_comm dim, Nat.mod_mul, Nat.mul_comm, Nat.add_comm]

theorem dot_coordinates_of_lt {dims : List Nat} {place : Nat} (h : place < dims.prod) :
    dot (coordinates dims place) (strides dims) = place := by
  rw [dot_coordinates, Nat.mod_eq_of_lt h]

/-- An element of the data. -/
def element {α : Type} (data : Array α) (place : Nat) : Except EvalError α :=
  match data[place]? with
  | some x => .ok x
  | none => .error (.execution .outOfBounds)

/-! ## Lanes -/

/-- **`lanes`** -- the places along one axis, for each choice of the other coordinates.
The number of blocks of lanes is found by a division, which a tensor with an empty axis
does not reach. -/
def lanes (dims : List Nat) (axis : Nat) (sizes : Sizes := .exact) :
    Except EvalError (List (List Nat)) := do
  let steps ← sizes.strides dims
  match dims[axis]?, steps[axis]? with
  | some length, some inner =>
    let count ← sizes.product dims
    if count = 0 then return []
    else
      let block ← sizes.word (length * inner)
      if block = 0 then throw (.execution .divisionByZero)
      else
        sizes.room length
        return (List.range (count / block)).flatMap fun outer =>
          (List.range inner).map fun shift =>
            (List.range length).map fun a =>
              sizes.place (outer * length * inner + shift + a * inner)
  | _, _ => throw (.execution .outOfBounds)

/-! ## Broadcasting -/

/-- So many elements of the data from a place on. -/
def slice {α : Type} (data : Array α) (start count : Nat) : Except EvalError (List α) :=
  if start + count ≤ data.size then .ok (data.extract start (start + count)).toList
  else .error (.execution .outOfBounds)

/-- **`stretchBlock`** -- the block of the result over the given extents, read from the
data at `start` on. The extents of the source are aligned with those of the result; extent
1 is read again for each coordinate. -/
def stretchBlock {α : Type} (data : Array α) :
    (source result : List Nat) → (start : Nat) → (sizes : Sizes := .exact) →
      Except EvalError (List α)
  | d :: ds, r :: rs, start, sizes =>
    if d :: ds = r :: rs then do
      let count ← sizes.product (r :: rs)
      slice data start count
    else if (d :: ds).all (· == 1) then do
      let count ← sizes.product (r :: rs)
      let x ← element data start
      return List.replicate count x
    else do
      let behind ← sizes.product ds
      let step := if d = 1 then 0 else behind
      let blocks ← (List.range r).mapM fun i =>
        stretchBlock data ds rs (sizes.place (start + i * step)) sizes
      return blocks.flatten
  | _, _, start, _ => do
    let x ← element data start
    return [x]

/-- Extents with axes of extent 1 in front. -/
def alignedDims (rank : Nat) (dims : List Nat) : List Nat :=
  List.replicate (rank - dims.length) 1 ++ dims

/-- **`broadcastData`** -- the data of a tensor stretched to other extents; the blocks fill
the result. -/
def broadcastData {α : Type} (data : Array α) (source result : List Nat)
    (sizes : Sizes := .exact) : Except EvalError (Array α) := do
  let count ← sizes.product result
  if count = 0 then return #[]
  else if source = result then return data
  else if result.length < source.length then throw (.execution .broadcastRank)
  else
    let aligned := alignedDims result.length source
    if (aligned.zip result).all fun (d, r) => d == 1 || d == r then
      sizes.room count
      let xs ← stretchBlock data aligned result 0 sizes
      if xs.length = count then return xs.toArray else throw (.execution .outOfBounds)
    else throw (.execution .broadcastDim)

end TensorGraph
