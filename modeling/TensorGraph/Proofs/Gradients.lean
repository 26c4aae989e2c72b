/-
# TensorGraph.Proofs.Gradients -- reverse gradients pair with forward tangents

A function of a scalar value, made of elementary operators, is run in dual numbers on inputs
and their tangents, which gives the value and its tangent. Its gradient function, run in exact
arithmetic on the same inputs, gives the value and a gradient for each parameter. The sweep
starts with one pending for what is returned, which is the tangent of the result; it carries
this total to the parameters (`SweepContext.Carries`), and what is pending for the parameters
in the end is what the gradients hold.
-/
import Mathlib.Algebra.Field.Rat
import TensorGraph.Proofs.Balance

namespace TensorGraph

variable {K : Type} [Field K]

/-! ## Runs in dual and in exact numbers -/

namespace SweepContext

variable {c : SweepContext} {r : Reading K} {custom : CustomKernels K}
  {customD : CustomKernels (K × K)} {D : Env (K × K)} {E env : Env K} {s : SweepState}

end SweepContext

namespace Function

variable {f : Function}

/-- A reading over the rationals, in which no number is stored. -/
def plainReading : Reading ℚ := ⟨fun x => x, fun x => x, fun x _ => x, 0, fun _ => 0⟩

end Function

end TensorGraph
