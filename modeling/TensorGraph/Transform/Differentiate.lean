/-
# TensorGraph.Transform.Differentiate -- gradients of scalar functions

The gradient of a function of one region that returns a scalar is a function that keeps
its parameters and bindings, computes the adjoints of the requested parameters behind
them, and returns the scalar together with the tuple of gradients in the order of the
request. Before anything is computed the function is checked, then what it returns, then
the request.
-/
import TensorGraph.Adjoint.Sweep

namespace TensorGraph

/-- **`GradientConfig`** -- how a gradient is made. -/
structure GradientConfig where
  /-- Whether the result is checked. -/
  verifyOutput : Bool
  /-- Appended to the names of the function and of values. -/
  suffix : String
  /-- The name of intermediate values. -/
  temp : String

/-- The result is checked, adjoints end in `_adjoint`, intermediate values are `lv`. -/
def GradientConfig.standard : GradientConfig := ⟨true, "_adjoint", "lv"⟩

namespace Function

/-- Checks a function that is to be transformed. -/
def verifySource (f : Function) : Except TransformError Unit :=
  match f.verify with
  | .ok () => .ok ()
  | .error (.returnNotOutput id) => .error (.returnNotOutput f.name (f.displayName id))
  | .error fault => .error (.illFormed f.name fault)

/-- The scalar that a function returns. -/
def scalarTarget (f : Function) : Except TransformError (ValueId × TensorSpec) :=
  match f.ret with
  | .value id =>
    match f.typeOf? id with
    | some (.tensor spec) =>
      if spec.isScalar then .ok (id, spec)
      else .error (.nonScalarTarget f.name (some (.tensor spec)))
    | other => .error (.nonScalarTarget f.name other)
  | .tuple _ => .error (.nonScalarTarget f.name f.returnType?)

/-- What a gradient is taken of: the scalar returned by a function that is checked. -/
def gradientTarget (f : Function) : Except TransformError (ValueId × TensorSpec) := do
  if f.regions.length = 1 then
    f.verifySource
    f.scalarTarget
  else throw (.multiRegion f.name f.regions.length)

/-- The parameters that are requested; without a request, all of them. -/
def requestedParams (f : Function) (request : Option (List ValueId)) :
    Except TransformError (List ValueId) :=
  match request with
  | none => .ok f.paramIds
  | some ids =>
    match ids.find? fun id => (f.param? id).isNone with
    | some id => .error (.notAParameter f.name (f.displayName id))
    | none => .ok ids

/-- **`paramsNamed`** -- the parameters of the given names. -/
def paramsNamed (f : Function) (names : List String) : Except TransformError (List ValueId) :=
  names.mapM fun name =>
    match f.params.find? fun p => p.name == name with
    | some p => .ok p.id
    | none => .error (.notAParameter f.name name)

/-- The first occurrences of values that are not in `present`. -/
def newOutputs (present : List ValueId) : List ValueId → List ValueId
  | [] => []
  | id :: rest =>
    if present.contains id then newOutputs present rest
    else id :: newOutputs (present ++ [id]) rest

/-- **`differentiate`** -- the gradient of `f` with respect to the requested parameters. -/
def differentiate (f : Function) (rules : RuleTable) (config : GradientConfig)
    (request : Option (List ValueId)) : Except TransformError Function := do
  let (target, spec) ← f.gradientTarget
  let requested ← f.requestedParams request
  let index ← (FunctionIndex.ofFunction f).mapError fun fault => .illFormed f.name (.index fault)
  let context : SweepContext := ⟨f, index, rules, config.suffix, config.temp⟩
  let seeded : SweepState := ⟨.ofFunction (context.adjointName f.name) f, [(target, .ones spec)]⟩
  let swept ← context.run seeded
  let (grads, final) ← context.bindGradients [] swept requested
  let outputs := f.regions.flatMap Region.outputs
  let result := final.builder.finish (outputs ++ newOutputs outputs grads)
    (.tuple [.value target, .tuple (grads.map .value)])
  if config.verifyOutput then
    result.verify.mapError (.illFormed result.name)
  return result

end Function

/-- **`Module.differentiate`** -- the module with the gradient of one of its functions, and
the name of the gradient. -/
def Module.differentiate (m : Module) (rules : RuleTable) (name : String)
    (request : Option (List ValueId)) : Except TransformError (String × Module) := do
  match m.get? name with
  | none => throw (.functionNotFound name)
  | some f =>
    let gradient ← f.differentiate rules .standard request
    return (gradient.name, m.insert gradient)

end TensorGraph
