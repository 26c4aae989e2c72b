/-
# TensorGraph.Transform.Pass -- sequences of transformations of a module

A pass adds one function to a module or fails and leaves the module as it was. A sequence
of passes stops at the first that fails; what came before stays done.
-/
import TensorGraph.Transform.AppendLoss
import TensorGraph.Transform.Differentiate

namespace TensorGraph

/-- **`PassStats`** -- what passes did to a module. -/
structure PassStats where
  /-- Whether the module changed. -/
  changed : Bool
  /-- Functions that were added and did not replace another. -/
  functionsAdded : Nat
  /-- Bindings of the new functions beyond those of their sources. -/
  bindingsEmitted : Nat
  deriving DecidableEq

namespace PassStats

/-- Nothing was done. -/
def none : PassStats := ⟨false, 0, 0⟩

/-- **`merge`** -- what two runs did together. -/
def merge (a b : PassStats) : PassStats :=
  ⟨a.changed || b.changed, a.functionsAdded + b.functionsAdded,
    a.bindingsEmitted + b.bindingsEmitted⟩

end PassStats

/-- **`Pass`** -- a transformation with its arguments. -/
inductive Pass where
  /-- Adds the gradient of a function with respect to the named parameters, or all. -/
  | gradient (function : String) (request : Option (List String)) (config : GradientConfig)
  /-- Adds the composition of a backbone and a loss. -/
  | appendLoss (backbone : String) (loss : Function) (outputs : Nat) (newName : Option String)

namespace Pass

/-- The name of the kind of a pass. -/
def name : Pass → String
  | gradient .. => "gradient"
  | appendLoss .. => "append_loss"

/-- The function that a pass adds, and how many bindings count as its own. -/
def output (p : Pass) (rules : RuleTable) (m : Module) :
    Except TransformError (Function × Nat) :=
  match p with
  | gradient name request config =>
    match m.get? name with
    | .none => .error (.functionNotFound name)
    | some f => do
      let ids ← request.mapM f.paramsNamed
      let g ← f.differentiate rules config ids
      return (g, g.bindings.length - f.bindings.length)
  | appendLoss backbone loss outputs newName => do
    let g ← m.appendLoss backbone loss outputs newName
    return (g, loss.bindings.length)

/-- **`run`** -- the module with what the pass adds. -/
def run (p : Pass) (rules : RuleTable) (m : Module) :
    Except TransformError (PassStats × Module) := do
  let (g, emitted) ← p.output rules m
  let added := if m.contains g.name then 0 else 1
  return (⟨true, added, emitted⟩, m.insert g)

/-- Runs passes after others that did `total`, up to the first that fails. -/
def runFrom (rules : RuleTable) (total : PassStats) (m : Module) :
    List Pass → Except TransformError PassStats × Module
  | [] => (.ok total, m)
  | p :: rest =>
    match p.run rules m with
    | .ok (stats, m) => runFrom rules (total.merge stats) m rest
    | .error e => (.error e, m)

/-- **`runAll`** -- runs passes one after the other; gives what they did or the first
failure, and the module in either case. -/
def runAll (rules : RuleTable) (passes : List Pass) (m : Module) :
    Except TransformError PassStats × Module :=
  runFrom rules .none m passes

end Pass

end TensorGraph
