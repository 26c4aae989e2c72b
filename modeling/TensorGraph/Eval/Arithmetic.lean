/-
# TensorGraph.Eval.Arithmetic -- the numbers that kernels compute with

Kernels are written over an arbitrary type of numbers, given by its operations. The
machine uses 64-bit floating point; exact arithmetic is the same kernels over a field. No
law is assumed: a kernel fixes the order of its operations, which is all that floating
point can be held to.
-/
import TensorGraph.Graph.Literal

namespace TensorGraph

/-- **`Arithmetic`** -- the operations on numbers of type `α`. -/
structure Arithmetic (α : Type) where
  /-- The start of every sum. -/
  zero : α
  /-- The element of `ones`. -/
  one : α
  /-- Addition. -/
  add : α → α → α
  /-- Subtraction. -/
  sub : α → α → α
  /-- Multiplication. -/
  mul : α → α → α
  /-- Division. -/
  div : α → α → α
  /-- The negative. -/
  neg : α → α
  /-- The exponential. -/
  exp : α → α
  /-- The natural logarithm. -/
  log : α → α
  /-- The greater of two numbers. -/
  max : α → α → α
  /-- Where the search for a maximum starts: no number is less. -/
  lowest : α
  /-- The number that a stored word denotes. -/
  ofWord : FloatWord → α

/-- The greater of two machine numbers; what is no number gives way to the other. -/
def floatMax (a b : Float) : Float :=
  if a.isNaN then b else if b.isNaN then a else if a < b then b else a

/-- **`Arithmetic.float`** -- 64-bit floating point. Words of 32 bits are widened, which
is exact. -/
def Arithmetic.float : Arithmetic Float where
  zero := 0
  one := 1
  add a b := a + b
  sub a b := a - b
  mul a b := a * b
  div a b := a / b
  neg a := -a
  exp := Float.exp
  log := Float.log
  max := floatMax
  lowest := -(1 / 0)
  ofWord
    | .single bits => (Float32.ofBits bits).toFloat
    | .double bits => Float.ofBits bits

end TensorGraph
