/-
# TensorGraph.Eval.Sizes -- numbers of elements in machine words

Extents are words of 64 bits in the machine, and so is what a kernel makes of them: the number
of elements, the strides, the places in the data. These are products, and a product that no
word holds is treated in one of two ways. A build that checks its arithmetic stops; a build
that does not goes on with the product modulo `2 ^ 64`. Beside both stand the numbers
themselves, which say what is meant, and which both builds compute wherever the products fit.
An operation that is given no sizes computes with the numbers themselves.

The order of the multiplications counts: extents `2 ^ 32`, `2 ^ 32`, `0` have no elements, but
from the first to the last their product overflows before it is 0.
-/
import TensorGraph.Eval.Error

namespace TensorGraph

open scoped CoreInstances

/-- **`strides`** -- for each axis the product of the extents behind it. -/
def strides : List Nat → List Nat
  | [] => []
  | _ :: dims => dims.prod :: strides dims

@[simp] theorem length_strides (dims : List Nat) : (strides dims).length = dims.length := by
  induction dims with
  | nil => rfl
  | cons dim dims ih => rw [strides, List.length_cons, ih, List.length_cons]

/-- **`Sizes`** -- what becomes of a number that a word may not hold. -/
inductive Sizes where
  /-- Numbers without bound. -/
  | exact
  /-- Words of 64 bits; a product that does not fit stops the machine. -/
  | checked
  /-- Words of 64 bits; a product is taken modulo `2 ^ 64`. -/
  | wrapping
  deriving DecidableEq

namespace Sizes

/-- A product as a word. -/
def word : Sizes → Nat → Except EvalError Nat
  | exact, n => .ok n
  | checked, n => if n < 2 ^ (64 : Nat) then .ok n else .error (.execution .overflow)
  | wrapping, n => .ok (n % 2 ^ (64 : Nat))

/-- **`product`** -- the number of elements, multiplied from the first extent to the last. -/
def product : Sizes → List Nat → Except EvalError Nat
  | exact, dims => .ok dims.prod
  | sizes, dims => dims.foldlM (fun count dim => sizes.word (count * dim)) 1

/-- The number of elements and the strides, multiplied from the last extent to the first. -/
def suffixProducts (sizes : Sizes) : List Nat → Except EvalError (Nat × List Nat)
  | [] => .ok (1, [])
  | dim :: dims => do
    let (count, behind) ← suffixProducts sizes dims
    return (← sizes.word (count * dim), count :: behind)

/-- **`strides`** -- for each axis the number of elements behind it. The product of all extents
is formed with them, whether it is used or not. -/
def strides : Sizes → List Nat → Except EvalError (List Nat)
  | exact, dims => .ok (TensorGraph.strides dims)
  | sizes, dims => do return (← sizes.suffixProducts dims).2

/-- Room for so many numbers of eight bytes: no buffer takes `2 ^ 63` bytes. -/
def room : Sizes → Nat → Except EvalError Unit
  | exact, _ => .ok ()
  | _, count => if count < 2 ^ (60 : Nat) then .ok () else .error (.execution .capacity)

/-- A place that index arithmetic arrives at. Where the products fit, the places of a kernel
grow one by one, so that an access is out of bounds before a place needs a check. -/
def place : Sizes → Nat → Nat
  | wrapping, n => n % 2 ^ (64 : Nat)
  | _, n => n

/-! ## Numbers without bound -/

@[simp] theorem word_exact (n : Nat) : word .exact n = .ok n := rfl

@[simp] theorem product_exact (dims : List Nat) : product .exact dims = .ok dims.prod := rfl

@[simp] theorem strides_exact (dims : List Nat) :
    strides .exact dims = .ok (TensorGraph.strides dims) := rfl

@[simp] theorem room_exact (count : Nat) : room .exact count = .ok () := rfl

@[simp] theorem place_exact (n : Nat) : place .exact n = n := rfl

end Sizes

end TensorGraph
