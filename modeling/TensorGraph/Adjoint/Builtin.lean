/-
# TensorGraph.Adjoint.Builtin -- the gradient rules of the operators

A partial may have the shape of the result where an operand was stretched to it; the sweep
collapses it afterwards. Values of the forward computation are reused: the rules of `exp`
and `divide` refer to the result instead of computing it again. Softmax has no rule of its
own.
-/
import TensorGraph.Adjoint.Rule

namespace TensorGraph

namespace GradientRule

/-- Both operands receive the adjoint. -/
def add : GradientRule := fun site adjoint => do
  let _ ← site.pair
  return [some adjoint, some adjoint]

/-- The second operand receives the negative adjoint. -/
def subtract : GradientRule := fun site adjoint => do
  let _ ← site.pair
  return [some adjoint, some (← ofShape adjoint.negative)]

/-- Each operand receives the adjoint times the other. -/
def multiply : GradientRule := fun site adjoint => do
  let (a, b) ← site.pair
  return [some (← ofShape (adjoint.multiply b)), some (← ofShape (adjoint.multiply a))]

/-- With `q = a / b`, the denominator receives `-(adjoint * q / b)`. -/
def divide : GradientRule := fun site adjoint => do
  let (_, b) ← site.pair
  let numerator ← ofShape (adjoint.divide b)
  let product ← ofShape (adjoint.multiply site.result)
  let quotient ← ofShape (product.divide b)
  return [some numerator, some (← ofShape quotient.negative)]

/-- The operand receives the negative adjoint. -/
def negative : GradientRule := fun site adjoint => do
  let _ ← site.single
  return [some (← ofShape adjoint.negative)]

/-- The derivative of the exponential is its result. -/
def exp : GradientRule := fun site adjoint => do
  let _ ← site.single
  return [some (← ofShape (adjoint.multiply site.result))]

/-- The derivative of the logarithm is the reciprocal of the operand. -/
def log : GradientRule := fun site adjoint => do
  let x ← site.single
  return [some (← ofShape (adjoint.divide x))]

/-- Each factor receives a product of the adjoint with the other factor transposed. -/
def matmul : GradientRule := fun site adjoint => do
  let (a, b) ← site.pair
  let bt ← ofShape b.transposed
  let left ← ofShape (adjoint.matmul bt)
  let aT ← ofShape a.transposed
  return [some left, some (← ofShape (aT.matmul adjoint))]

/-- The axes are put back. -/
def transpose : GradientRule := fun site adjoint => do
  let _ ← site.single
  match site.op with
  | .transpose perm => return [some (← ofShape (adjoint.transpose (inversePermutation perm)))]
  | _ => throw site.otherOperator

/-- The elements are put back into the shape of the operand. -/
def reshape : GradientRule := fun site adjoint => do
  let _ ← site.single
  let input ← site.argSpec 0
  return [some (← ofShape (adjoint.reshape input.shape))]

/-- The adjoint gets its reduced axes back with extent 1, unless it has all its axes or
none, so that it stretches to the operand. -/
def sum : GradientRule := fun site adjoint => do
  let x ← site.single
  match site.op with
  | .sum axes _ =>
    let input ← site.argSpec 0
    let rank := site.spec.shape.rank
    let kept ←
      if rank ≠ 0 ∧ rank ≠ input.shape.rank then
        ofShape (adjoint.reshape ⟨keptDims axes input.shape.dims⟩)
      else pure adjoint
    let ones ← ofShape x.onesLike
    return [some (← ofShape (kept.multiply ones))]
  | _ => throw site.otherOperator

/-- The logits receive softmax minus labels, on the assumption that each row of labels
sums to 1; the labels are constants. -/
def softmaxCrossEntropy : GradientRule := fun site adjoint => do
  let (logits, labels) ← site.pair
  let input ← site.argSpec 0
  let probabilities ← ofShape (logits.softmax (input.shape.rank - 1))
  let difference ← ofShape (probabilities.subtract labels)
  return [some (← ofShape (difference.multiply adjoint)), none]

/-- The data receives the adjoint, stretched; the target only lends its shape. -/
def collapseSumLike : GradientRule := fun site adjoint => do
  let (data, _) ← site.pair
  let ones ← ofShape data.onesLike
  return [some (← ofShape (adjoint.multiply ones)), none]

/-- No operand receives anything. -/
def constant : GradientRule := fun site _ => .ok (site.args.map fun _ => none)

/-- **`builtin`** -- the rules by the names of their operators. -/
def builtin : List (String × GradientRule) :=
  [(Operation.add.name, add), (Operation.subtract.name, subtract),
    (Operation.multiply.name, multiply), (Operation.divide.name, divide),
    (Operation.negative.name, negative), (Operation.exp.name, exp),
    (Operation.log.name, log), (Operation.matmul.name, matmul),
    ((Operation.transpose []).name, transpose), ((Operation.reshape []).name, reshape),
    ((Operation.sum none false).name, sum),
    (Operation.softmaxCrossEntropy.name, softmaxCrossEntropy),
    (Operation.ones.name, constant), (Operation.zeros.name, constant),
    (Operation.onesLike.name, constant), (Operation.zerosLike.name, constant),
    (Operation.collapseSumLike.name, collapseSumLike)]

end GradientRule

/-! ## Tables -/

/-- **`RuleTable`** -- the rules registered besides the built-in ones. -/
structure RuleTable where
  /-- Registered rules by name. -/
  registered : List (String × GradientRule)

namespace RuleTable

/-- Nothing registered. -/
def builtinOnly : RuleTable := ⟨[]⟩

/-- Removes a registered rule; built-in rules stay. -/
def unregister (t : RuleTable) (name : String) : RuleTable :=
  ⟨t.registered.filter fun entry => entry.1 != name⟩

/-- Registers a rule in place of any registered before under that name. -/
def register (t : RuleTable) (name : String) (rule : GradientRule) : RuleTable :=
  ⟨(name, rule) :: (t.unregister name).registered⟩

/-- Whether a rule of that name is registered. -/
def isRegistered (t : RuleTable) (name : String) : Bool := (t.registered.lookup name).isSome

/-- **`find?`** -- the rule of a name: a registered one, or the built-in one. -/
def find? (t : RuleTable) (name : String) : Option GradientRule :=
  (t.registered.lookup name).or (GradientRule.builtin.lookup name)

@[simp] theorem find?_builtinOnly (name : String) :
    builtinOnly.find? name = GradientRule.builtin.lookup name := rfl

/-- A registered rule comes before a built-in one. -/
@[simp] theorem find?_register_self (t : RuleTable) (name : String) (rule : GradientRule) :
    (t.register name rule).find? name = some rule := by
  rw [find?, register, List.lookup_cons, beq_self_eq_true, Option.some_or]

/-- The names that have a rule, in ascending order. -/
def names (t : RuleTable) : List String :=
  let all := (GradientRule.builtin ++ t.registered).map Prod.fst
  (all.mergeSort fun a b => !(b < a)).eraseDups

end RuleTable

end TensorGraph
