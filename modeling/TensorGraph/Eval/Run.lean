/-
# TensorGraph.Eval.Run -- evaluating functions

A function is evaluated binding by binding, region after region, in an environment that
holds the values so far. Inputs are compared with the types of the parameters, and the
value of each binding with its declared type.
-/
import TensorGraph.Eval.Kernel
import TensorGraph.Graph.Lookup

namespace TensorGraph

variable {α : Type}

/-! ## Environments -/

/-- **`Env`** -- the values computed so far, latest first. -/
structure Env (α : Type) where
  /-- Values by the identities of what they belong to. -/
  entries : List (ValueId × Value α)

namespace Env

/-- Nothing computed yet. -/
def empty : Env α := ⟨[]⟩

/-- With one more value. -/
def push (env : Env α) (id : ValueId) (v : Value α) : Env α := ⟨(id, v) :: env.entries⟩

/-- The value of an identity. -/
def lookup (env : Env α) (id : ValueId) : Except EvalError (Value α) :=
  match env.entries.lookup id with
  | some v => .ok v
  | none => .error (.execution (.unavailable id))

/-- **The value that was pushed last** is found, and the others are kept. -/
theorem lookup_push (env : Env α) (id other : ValueId) (v : Value α) :
    (env.push id v).lookup other = if other = id then .ok v else env.lookup other := by
  unfold lookup push
  rw [List.lookup_cons]
  by_cases h : other = id
  · rw [if_pos h, beq_iff_eq.mpr h]
  · rw [if_neg h, beq_false_of_ne h]

@[simp] theorem lookup_push_self (env : Env α) (id : ValueId) (v : Value α) :
    (env.push id v).lookup id = .ok v := by
  rw [lookup_push, if_pos rfl]

theorem lookup_push_of_ne {env : Env α} {id other : ValueId} {v : Value α} (h : other ≠ id) :
    (env.push id v).lookup other = env.lookup other := by
  rw [lookup_push, if_neg h]

/-- The value that an operand reads. -/
def operand (ar : Arithmetic α) (env : Env α) (x : Operand) (sizes : Sizes := .exact) :
    Except EvalError (Value α) :=
  match x with
  | .value id => env.lookup id
  | .tupleElement tuple index => do (← env.lookup tuple).component index
  | .literal constant => (Tensor.ofLiteral ar constant sizes).map .tensor

/-- The tensor that an operand of a call reads. -/
def tensorOperand (ar : Arithmetic α) (env : Env α) (x : Operand) (sizes : Sizes := .exact) :
    Except EvalError (Tensor α) := do
  match ← env.operand ar x sizes with
  | .tensor t => return t
  | .tuple _ => throw (.execution .tupleOperand)

mutual

/-- The value of a field of a tuple construction. -/
def field (ar : Arithmetic α) (env : Env α) :
    TupleField → (sizes : Sizes := .exact) → Except EvalError (Value α)
  | .operand x, sizes => env.operand ar x sizes
  | .tuple xs, sizes => (fields ar env xs sizes).map .tuple

/-- The values of fields, from left to right. -/
def fields (ar : Arithmetic α) (env : Env α) :
    List TupleField → (sizes : Sizes := .exact) → Except EvalError (List (Value α))
  | [], _ => .ok []
  | x :: rest, sizes => do
    let v ← field ar env x sizes
    return v :: (← fields ar env rest sizes)

end

mutual

/-- The value of a return expression. -/
def collect (env : Env α) : ReturnExpr → Except EvalError (Value α)
  | .value id => env.lookup id
  | .tuple elements => (collectAll env elements).map .tuple

/-- The values of return expressions, from left to right. -/
def collectAll (env : Env α) : List ReturnExpr → Except EvalError (List (Value α))
  | [] => .ok []
  | element :: rest => do
    let v ← collect env element
    return v :: (← collectAll env rest)

end

theorem collectAll_eq_mapM (env : Env α) (elements : List ReturnExpr) :
    collectAll env elements = elements.mapM (collect env) := by
  induction elements with
  | nil => rfl
  | cons element rest ih => rw [collectAll, ih, List.mapM_cons]

/-! ## Bindings -/

/-- The value of the expression of a binding. -/
def expr (ar : Arithmetic α) (custom : CustomKernels α) (env : Env α) (b : Binding)
    (sizes : Sizes := .exact) : Except EvalError (Value α) :=
  match b.expr with
  | .call op operands =>
    match b.ty with
    | .tuple _ => .error (.unimplemented (.tupleResult op.name))
    | .tensor output => do
      let inputs ← operands.mapM fun x => env.tensorOperand ar x sizes
      let t ← (Kernel.run ar custom op inputs output sizes).mapError (.inBinding b.name)
      return .tensor t
  | .tuple xs => (env.fields ar xs sizes).map .tuple
  | .tupleGet tuple index => do (← env.lookup tuple).component index
  | .alias x => env.operand ar x sizes

/-- **`step`** -- evaluates a binding. -/
def step (ar : Arithmetic α) (custom : CustomKernels α) (env : Env α) (b : Binding)
    (sizes : Sizes := .exact) : Except EvalError (Env α) := do
  let v ← env.expr ar custom b sizes
  if v.hasType b.ty then return env.push b.id v
  else throw (.execution (.resultType b.name b.ty))

/-- Takes in the inputs for parameters. -/
def pushInputs (env : Env α) : List (Param × Value α) → Except EvalError (Env α)
  | [] => .ok env
  | (p, v) :: rest =>
    if v.hasType p.ty then (env.push p.id v).pushInputs rest
    else .error (.execution (.inputType p.name p.ty))

end Env

/-! ## Functions -/

/-- **`Function.run`** -- the value that a function returns for the given inputs. -/
def Function.run (ar : Arithmetic α) (custom : CustomKernels α) (f : Function)
    (inputs : List (Value α)) (sizes : Sizes := .exact) : Except EvalError (Value α) := do
  if f.params.length = inputs.length then
    let start ← Env.empty.pushInputs (f.params.zip inputs)
    let final ← f.bindings.foldlM (fun env b => env.step ar custom b sizes) start
    final.collect f.ret
  else throw (.execution (.inputCount f.name f.params.length inputs.length))

/-- **`Module.run`** -- runs the function of the given name. -/
def Module.run (ar : Arithmetic α) (custom : CustomKernels α) (m : Module) (name : String)
    (inputs : List (Value α)) (sizes : Sizes := .exact) : Except EvalError (Value α) :=
  match m.get? name with
  | some f => f.run ar custom inputs sizes
  | none => .error (.execution (.functionNotFound name))

end TensorGraph
