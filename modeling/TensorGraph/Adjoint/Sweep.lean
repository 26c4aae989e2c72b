/-
# TensorGraph.Adjoint.Sweep -- the reverse sweep

The sweep visits the bindings of a function from the last to the first and keeps at most
one pending adjoint for each value. When it reaches a binding, every reader of its value
has been visited, so the adjoint is complete: it is bound, and its contributions are added
to the pending adjoints of what the binding reads. A value that no adjoint reaches is
passed over. A component of a tuple contributes to a tuple of zeros.
-/
import TensorGraph.Adjoint.Builtin
import TensorGraph.Adjoint.Emit
import TensorGraph.Transform.Error

namespace TensorGraph

/-- **`SweepContext`** -- what does not change during a sweep. -/
structure SweepContext where
  /-- The function that is differentiated. -/
  function : Function
  /-- Its index. -/
  index : FunctionIndex
  /-- The gradient rules. -/
  rules : RuleTable
  /-- Appended to the name of a value to name its adjoint. -/
  suffix : String
  /-- The name of intermediate values. -/
  temp : String

/-- **`SweepState`** -- the function in the making and the pending adjoints. -/
structure SweepState where
  /-- The function in the making. -/
  builder : Builder
  /-- Pending adjoints, one at most for each value. -/
  pending : List (ValueId × Adjoint)

namespace SweepState

/-- The pending adjoint of a value. -/
def adjoint? (s : SweepState) (id : ValueId) : Option Adjoint := s.pending.lookup id

/-- Without a pending adjoint for a value. -/
def drop (s : SweepState) (id : ValueId) : SweepState :=
  { s with pending := s.pending.filter fun entry => entry.1 != id }

/-- With the given pending adjoint for a value. -/
def put (s : SweepState) (id : ValueId) (a : Adjoint) : SweepState :=
  { s with pending := (id, a) :: (s.drop id).pending }

/-- A dropped value has no pending adjoint, and the others keep theirs. -/
theorem adjoint?_drop (s : SweepState) (id other : ValueId) :
    (s.drop id).adjoint? other = if other = id then none else s.adjoint? other := by
  obtain ⟨builder, pending⟩ := s
  show (pending.filter fun entry => entry.1 != id).lookup other = _
  unfold adjoint?
  induction pending with
  | nil =>
    rw [List.filter_nil, List.lookup_nil]
    split <;> rfl
  | cons entry rest ih =>
    obtain ⟨key, a⟩ := entry
    rw [List.lookup_cons]
    by_cases hk : key = id
    · have hf : ¬(key != id) = true := fun h => bne_iff_ne.mp h hk
      rw [List.filter_cons, if_neg hf, ih]
      by_cases ho : other = id
      · rw [if_pos ho, if_pos ho]
      · have hn : other ≠ key := fun h => ho (h.trans hk)
        rw [if_neg ho, if_neg ho, beq_false_of_ne hn]
    · have ht : (key != id) = true := bne_iff_ne.mpr hk
      rw [List.filter_cons, if_pos ht, List.lookup_cons]
      by_cases ho : other = key
      · have hn : ¬other = id := fun h => hk (ho.symm.trans h)
        rw [beq_iff_eq.mpr ho, if_neg hn]
      · rw [beq_false_of_ne ho]
        exact ih

/-- **The pending adjoint that was put last** is found, and the others are kept. -/
theorem adjoint?_put (s : SweepState) (id other : ValueId) (a : Adjoint) :
    (s.put id a).adjoint? other = if other = id then some a else s.adjoint? other := by
  show ((id, a) :: (s.drop id).pending).lookup other = _
  rw [List.lookup_cons]
  by_cases h : other = id
  · rw [if_pos h, beq_iff_eq.mpr h]
  · rw [if_neg h, beq_false_of_ne h]
    exact (adjoint?_drop s id other).trans (if_neg h)

@[simp] theorem builder_drop (s : SweepState) (id : ValueId) : (s.drop id).builder = s.builder :=
  rfl

@[simp] theorem builder_put (s : SweepState) (id : ValueId) (a : Adjoint) :
    (s.put id a).builder = s.builder := rfl

end SweepState

namespace SweepContext

/-! ## Errors -/

/-- The failure of a rule. -/
def ruleFailed (c : SweepContext) (op : Operation) (failure : RuleFailure) : TransformError :=
  .ruleFailed c.function.name op.name failure

/-- Parts that do not fit together. -/
def misfit (c : SweepContext) (fault : Misfit) : TransformError :=
  .misfit c.function.name fault

/-- Appends bindings to the function in the making. -/
def emit {α : Type} (c : SweepContext) (s : SweepState) (step : Emit α) :
    Except TransformError (α × SweepState) :=
  match step.run s.builder with
  | some (x, builder) => .ok (x, { s with builder })
  | none => .error (c.misfit .tupleOperand)

/-! ## Accumulation -/

/-- Adds to the pending adjoint of a value; a zero without anything to be added to is
dropped. -/
def accumulateValue (c : SweepContext) (s : SweepState) (id : ValueId) (a : Adjoint) :
    Except TransformError SweepState :=
  match s.adjoint? id with
  | none => .ok (if a.isZero then s else s.put id a)
  | some existing =>
    match existing.add a with
    | .ok sum => .ok (s.put id sum)
    | .error e => .error (c.misfit (.shape e))

/-- Adds to one component of the pending adjoint of a tuple, which starts from zeros. -/
def accumulateElement (c : SweepContext) (s : SweepState) (tuple : ValueId) (index : Nat)
    (a : Adjoint) : Except TransformError SweepState := do
  let existing? ←
    match s.adjoint? tuple with
    | some existing => pure (some existing)
    | none =>
      if a.isZero then pure none
      else
        match c.index.typeOf? tuple with
        | some ty => pure (some (Adjoint.zerosOf ty))
        | none => throw (c.misfit (.untypedTuple tuple))
  match existing? with
  | none => return s
  | some existing =>
    match existing.addAt index a with
    | .ok sum => return s.put tuple sum
    | .error e => throw (c.misfit (.shape e))

/-- **`accumulate`** -- contributes an adjoint to what an operand reads. -/
def accumulate (c : SweepContext) (s : SweepState) (operand : Operand) (a : Adjoint) :
    Except TransformError SweepState :=
  match operand with
  | .literal _ => .ok s
  | .value id => c.accumulateValue s id a
  | .tupleElement tuple index => c.accumulateElement s tuple index a

mutual

/-- Contributes an adjoint to what a field of a tuple construction reads. -/
def routeField (c : SweepContext) (s : SweepState) :
    TupleField → Adjoint → Except TransformError SweepState
  | .operand x, a => c.accumulate s x a
  | .tuple fields, .tuple components =>
    if components.length = fields.length then c.routeFields s fields components
    else .error (c.misfit (.fieldCount components.length fields.length))
  | .tuple _, _ => .error (c.misfit .tensorForTuple)

/-- Contributes components to the fields they belong to. -/
def routeFields (c : SweepContext) (s : SweepState) :
    List TupleField → List Adjoint → Except TransformError SweepState
  | field :: fields, a :: components => do
    let s ← c.routeField s field a
    c.routeFields s fields components
  | _, _ => .ok s

end

/-! ## Calls -/

/-- The leaf that stands for an operand of a call. -/
def operandLeaf (c : SweepContext) (operand : Operand) : Except TransformError Adjoint :=
  match c.index.operandType? operand with
  | some (.tensor spec) => .ok (.leaf operand spec)
  | _ => .error (c.misfit .operandNotTensor)

/-- A partial in the shape of its operand: operands that were stretched collapse it. -/
def fitPartial (c : SweepContext) (op : Operation) (arg a : Adjoint) :
    Except TransformError Adjoint := do
  let fitted ←
    if op.broadcasts && a.spec? != arg.spec? then
      (a.collapseSumLike arg).mapError fun e => c.misfit (.shape e)
    else pure a
  if fitted.spec? = arg.spec? then return fitted
  else throw (c.ruleFailed op (.partialType fitted.type arg.type))

/-- Contributes the partials of a call to its operands, from left to right. -/
def spread (c : SweepContext) (op : Operation) (s : SweepState) :
    List (Operand × Adjoint × Option Adjoint) → Except TransformError SweepState
  | [] => .ok s
  | (_, _, none) :: rest => c.spread op s rest
  | (operand, arg, some a) :: rest => do
    let fitted ← c.fitPartial op arg a
    let s ← c.accumulate s operand fitted
    c.spread op s rest

/-- **`visitCall`** -- applies the rule of a call. -/
def visitCall (c : SweepContext) (s : SweepState) (b : Binding) (op : Operation)
    (operands : List Operand) (a : Adjoint) : Except TransformError SweepState :=
  match b.ty with
  | .tuple _ => .error (c.ruleFailed op .tupleResult)
  | .tensor spec =>
    match c.rules.find? op.name with
    | none => .error (.missingRule c.function.name op.name)
    | some rule => do
      let args ← operands.mapM c.operandLeaf
      let site : CallSite := ⟨op, args, .leaf (.value b.id) spec, spec⟩
      let partials ← (rule site a).mapError fun e => c.ruleFailed op (.rule e)
      if partials.length = operands.length then
        c.spread op s (operands.zip (args.zip partials))
      else throw (c.ruleFailed op (.partialCount partials.length operands.length))

/-! ## The sweep -/

/-- The name of the adjoint of a value. -/
def adjointName (c : SweepContext) (name : String) : String := name ++ c.suffix

/-- **`visit`** -- binds the adjoint of a binding, if one reaches it, and passes it on. -/
def visit (c : SweepContext) (s : SweepState) (b : Binding) :
    Except TransformError SweepState :=
  match s.adjoint? b.id with
  | none => .ok s
  | some pending => do
    let s := s.drop b.id
    let (a, s) ←
      match b.ty with
      | .tensor _ => c.emit s (Emit.settle c.temp (c.adjointName b.name) pending)
      | .tuple _ => pure (pending, s)
    match b.expr with
    | .call op operands => c.visitCall s b op operands a
    | .tuple fields => c.routeField s (.tuple fields) a
    | .tupleGet tuple index => c.accumulate s (.tupleElement tuple index) a
    | .alias x => c.accumulate s x a

/-- **`run`** -- visits every binding, the last first. -/
def run (c : SweepContext) (s : SweepState) : Except TransformError SweepState :=
  c.function.bindings.reverse.foldlM c.visit s

/-! ## Gradients of parameters -/

/-- The pending adjoint of a parameter, or zeros. -/
def gradient (s : SweepState) (p : Param) : Adjoint :=
  (s.adjoint? p.id).getD (.zerosOf p.ty)

/-- **`bindGradients`** -- binds the adjoints of the requested parameters, each once;
`bound` holds those that are bound already. -/
def bindGradients (c : SweepContext) (bound : List (ValueId × ValueId)) (s : SweepState) :
    List ValueId → Except TransformError (List ValueId × SweepState)
  | [] => .ok ([], s)
  | id :: rest =>
    match bound.lookup id with
    | some existing => do
      let (grads, s) ← c.bindGradients bound s rest
      return (existing :: grads, s)
    | none =>
      match c.function.param? id with
      | none => .error (.notAParameter c.function.name (c.function.displayName id))
      | some p => do
        let (grad, s) ← c.emit s (Emit.value c.temp (c.adjointName p.name) p.ty (gradient s p))
        let (grads, s) ← c.bindGradients ((id, grad) :: bound) s rest
        return (grad :: grads, s)

end SweepContext

end TensorGraph
