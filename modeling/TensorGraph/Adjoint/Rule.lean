/-
# TensorGraph.Adjoint.Rule -- gradient rules and tables of them

A rule takes a call and the adjoint of its result to one partial for each operand; an
operand may have none. Rules go by the name of the operator, which for a custom call is
its target: a target that is spelled like an operator finds that operator's rule. A table
holds the rules that were registered, which come before the built-in ones.
-/
import TensorGraph.Adjoint.Expr

namespace TensorGraph

/-! ## Failures -/

/-- Why a rule does not apply to a call. -/
inductive RuleFault where
  | operandNotTensor (index : Nat)
  /-- The rule belongs to another operator than that of the call. -/
  | otherOperator
  /-- A reason that a registered rule gives. -/
  | refusal (reason : String)
  deriving DecidableEq

/-- The wording of a fault. -/
def RuleFault.message : RuleFault → String
  | operandNotTensor index => s!"operand {index} is not a tensor"
  | otherOperator => "rule registered for a different operator"
  | refusal reason => reason

/-- **`RuleError`** -- a failure of a rule. -/
inductive RuleError where
  | shape (fault : ShapeError)
  | unsupported (op : String) (fault : RuleFault)
  | arity (op : String) (expected found : Nat)
  deriving DecidableEq

/-- The wording of a failure. -/
def RuleError.message : RuleError → String
  | shape fault => fault.message
  | unsupported op fault => s!"{op}: {fault.message}"
  | arity op expected found => s!"{op} expects {expected} operands, got {found}"

/-! ## Calls -/

/-- **`CallSite`** -- a call as rules see it: operands and result are adjoints that stand
for values which exist already. -/
structure CallSite where
  /-- The operator. -/
  op : Operation
  /-- One leaf for each operand. -/
  args : List Adjoint
  /-- The leaf of the result. -/
  result : Adjoint
  /-- The spec of the result. -/
  spec : TensorSpec

namespace CallSite

/-- Checks the number of operands. -/
def expect (site : CallSite) (count : Nat) : Except RuleError Unit :=
  if site.args.length = count then .ok ()
  else .error (.arity site.op.name count site.args.length)

/-- The sole operand. -/
def single (site : CallSite) : Except RuleError Adjoint :=
  match site.args with
  | [x] => .ok x
  | args => .error (.arity site.op.name 1 args.length)

/-- Both operands. -/
def pair (site : CallSite) : Except RuleError (Adjoint × Adjoint) :=
  match site.args with
  | [x, y] => .ok (x, y)
  | args => .error (.arity site.op.name 2 args.length)

/-- The spec of an operand. -/
def argSpec (site : CallSite) (index : Nat) : Except RuleError TensorSpec :=
  match (site.args[index]?).bind Adjoint.spec? with
  | some spec => .ok spec
  | none => .error (.unsupported site.op.name (.operandNotTensor index))

/-- The failure of a rule that meets another operator than its own. -/
def otherOperator (site : CallSite) : RuleError := .unsupported site.op.name .otherOperator

end CallSite

/-- An operation on adjoints inside a rule. -/
def ofShape {α : Type} (x : Except ShapeError α) : Except RuleError α := x.mapError .shape

/-- **`GradientRule`** -- from a call and the adjoint of its result to the partials. -/
abbrev GradientRule := CallSite → Adjoint → Except RuleError (List (Option Adjoint))

end TensorGraph
