/-
# TensorGraph.Transform.AppendLoss -- a loss behind a backbone

The leading values that a backbone returns take the place of the first parameters of a
loss; the other parameters of the loss are appended to those of the backbone. What the
backbone returns beyond the predictions is returned behind the loss. Names of the backbone
are kept, and names of the loss are made unique against them before anything is added, so
that a parameter that comes early displaces no binding that comes late.
-/
import TensorGraph.Build.Builder
import TensorGraph.Graph.Remap
import TensorGraph.Transform.Error

namespace TensorGraph

namespace Function

/-! ## Conditions -/

/-- Checks a function that is to be composed. -/
def verifyPart (f : Function) : Except TransformError Unit :=
  if f.regions.length = 1 then f.verify.mapError (.illFormed f.name)
  else .error (.multiRegion f.name f.regions.length)

/-- The value in a flat tuple that is returned. -/
def flatValue (f : Function) : ReturnExpr → Except TransformError ValueId
  | .value id => .ok id
  | .tuple _ => .error (.misfit f.name .nestedReturn)

/-- The values that a function returns, alone or in a flat tuple. -/
def flatReturn (f : Function) : Except TransformError (List ValueId) :=
  match f.ret with
  | .value id => .ok [id]
  | .tuple elements => elements.mapM f.flatValue

/-- The backbone returns as many values as are requested, and the loss takes them. -/
def checkCounts (backbone loss : Function) (available requested : Nat) :
    Except TransformError Unit :=
  if requested = 0 ∨ available < requested then
    .error (.misfit backbone.name (.predictionCount requested available))
  else if loss.params.length < requested then
    .error (.misfit loss.name (.parameterCount loss.params.length requested))
  else .ok ()

/-- A prediction has the type of the parameter it takes the place of. -/
def checkPrediction (backbone : Function) (index : Nat) (output : ValueId) (p : Param) :
    Except TransformError Unit :=
  let found := backbone.typeOf? output
  if found = some p.ty then .ok ()
  else .error (.misfit backbone.name (.predictionType index found p.name p.ty))

/-- The scalar that a loss returns. -/
def lossTarget (loss : Function) : Except TransformError ValueId :=
  match loss.ret with
  | .value id =>
    match loss.typeOf? id with
    | some (.tensor spec) =>
      if spec.isScalar then .ok id else .error (.nonScalarTarget loss.name (some (.tensor spec)))
    | other => .error (.nonScalarTarget loss.name other)
  | .tuple _ => .error (.nonScalarTarget loss.name loss.returnType?)

end Function

/-! ## Composition -/

/-- **`Splice`** -- a function in the making, and where values of a source went. -/
structure Splice where
  /-- The function in the making. -/
  builder : Builder
  /-- Values of the source and their places in the function. -/
  placed : Remap

namespace Splice

/-- Adds a parameter of the source under a name. -/
def addParam (s : Splice) (p : Param) (name : String) : Splice :=
  let (id, builder) := s.builder.addParam name p.ty
  ⟨builder, s.placed.insert p.id id⟩

/-- Adds a binding of the source under a name. -/
def addBinding (s : Splice) (b : Binding) (name : String) : Splice :=
  let (id, builder) := s.builder.bind name (s.placed.expr b.expr) b.ty
  ⟨builder, s.placed.insert b.id id⟩

/-- Adds parameters of the source under names. -/
def addParams (s : Splice) (ps : List (Param × String)) : Splice :=
  ps.foldl (fun s (p, name) => s.addParam p name) s

/-- Adds bindings of the source under names. -/
def addBindings (s : Splice) (bs : List (Binding × String)) : Splice :=
  bs.foldl (fun s (b, name) => s.addBinding b name) s

/-- Places a value of the source that has no place yet. -/
def place (s : Splice) (source target : ValueId) : Splice :=
  match s.placed.get? source with
  | some _ => s
  | none => ⟨s.builder, s.placed.insert source target⟩

end Splice

/-- The first occurrences of values, in order. -/
def distinct (ids : List ValueId) : List ValueId :=
  ids.foldl (fun seen id => if seen.contains id then seen else seen ++ [id]) []

/-- The loss behind the backbone, once all conditions are checked: `outputs` are the
returned values of the backbone, of which the first `count` are predictions, and `target`
is what the loss returns. -/
def spliceLoss (backbone loss : Function) (outputs : List ValueId) (count : Nat)
    (target : ValueId) (name : String) : Function :=
  let extra := loss.params.drop count
  let supply := NameSupply.empty.takeAll
    (backbone.params.map Param.name ++ backbone.bindings.map Binding.name)
  let (extraNames, supply) := supply.freshAll (extra.map Param.name)
  let (lossNames, _) := supply.freshAll (loss.bindings.map Binding.name)
  -- parameters: those of the backbone, then those of the loss that are left
  let front := (Splice.mk (.empty name) .empty).addParams
    (backbone.params.map fun p => (p, p.name))
  let start := (Splice.mk front.builder .empty).addParams (extra.zip extraNames)
  -- bindings of the backbone
  let body := (Splice.mk start.builder front.placed).addBindings
    (backbone.bindings.map fun b => (b, b.name))
  -- predictions in place of the first parameters of the loss, then its bindings
  let joined := (loss.params.zip outputs).foldl
    (fun s (p, output) => s.place p.id (body.placed.value output))
    (Splice.mk body.builder start.placed)
  let done := joined.addBindings (loss.bindings.zip lossNames)
  let result := done.placed.value target
  let states := (outputs.drop count).map body.placed.value
  let ret := if states.isEmpty then .value result else .tuple ((result :: states).map .value)
  done.builder.finish (distinct (result :: states)) ret

/-- The name of a composition that is given none. -/
def defaultLossName (backbone : String) : String := backbone ++ "_loss"

/-- **`Module.appendLoss`** -- the loss behind a backbone of the module, with `count`
predictions. The result is checked. -/
def Module.appendLoss (m : Module) (backboneName : String) (loss : Function) (count : Nat)
    (newName : Option String) : Except TransformError Function := do
  match m.get? backboneName with
  | none => throw (.functionNotFound backboneName)
  | some backbone =>
    backbone.verifyPart
    loss.verifyPart
    let outputs ← backbone.flatReturn
    Function.checkCounts backbone loss outputs.length count
    ((outputs.zip loss.params).take count).zipIdx.forM fun ((output, p), index) =>
      backbone.checkPrediction index output p
    let target ← loss.lossTarget
    let result := spliceLoss backbone loss outputs count target
      (newName.getD (defaultLossName backboneName))
    result.verify.mapError (.illFormed result.name)
    return result

/-- **`Module.insertLoss`** -- the module with the composition, and its name. -/
def Module.insertLoss (m : Module) (backboneName : String) (loss : Function) (count : Nat)
    (newName : Option String) : Except TransformError (String × Module) := do
  let composed ← m.appendLoss backboneName loss count newName
  return (composed.name, m.insert composed)

end TensorGraph
