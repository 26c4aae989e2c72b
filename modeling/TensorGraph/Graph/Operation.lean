/-
# TensorGraph.Graph.Operation -- the operators of a call

Operators with a parameter carry it: the permutation of a transposition, the target shape
of a reshape, the reduced axes of a sum, the class axis of a softmax, and the target of a
custom call, which is opaque to this library. An operator's name is what error messages
and gradient rules go by; a custom call goes by its target.
-/

namespace TensorGraph

/-- **`Operation`** -- what a call expression applies. -/
inductive Operation where
  | add
  | subtract
  | multiply
  | divide
  | negative
  | exp
  | log
  | matmul
  | transpose (perm : List Nat)
  | reshape (dims : List Nat)
  /-- Sums over `axes`, or over every axis when there are none given. -/
  | sum (axes : Option (List Nat)) (keepdims : Bool)
  | softmax (axis : Nat)
  | softmaxCrossEntropy
  | ones
  | zeros
  | onesLike
  | zerosLike
  | collapseSumLike
  | customCall (target : String)
  deriving DecidableEq, Inhabited

namespace Operation

/-- The name an operator goes by; for a custom call, its target. -/
def name : Operation → String
  | add => "add"
  | subtract => "subtract"
  | multiply => "multiply"
  | divide => "divide"
  | negative => "negative"
  | exp => "exp"
  | log => "log"
  | matmul => "matmul"
  | transpose _ => "transpose"
  | reshape _ => "reshape"
  | sum _ _ => "sum"
  | softmax _ => "softmax"
  | softmaxCrossEntropy => "softmax_cross_entropy"
  | ones => "ones"
  | zeros => "zeros"
  | onesLike => "ones_like"
  | zerosLike => "zeros_like"
  | collapseSumLike => "collapse_sum_like"
  | customCall target => target

/-- The operators whose two operands are stretched to a common shape. -/
def broadcasts : Operation → Bool
  | add | subtract | multiply | divide => true
  | _ => false

end Operation

end TensorGraph
