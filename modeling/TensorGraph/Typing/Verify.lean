/-
# TensorGraph.Typing.Verify -- well-formed functions and modules

A function is well-formed when it is in single-assignment form, no two values share a
name, every binding declares the type of its expression, every region exposes parameters
or bindings of its own, and what is returned is exposed or a parameter. The conditions
are checked in this order and the first fault is reported. A module is well-formed when
its functions are and their names differ.
-/
import TensorGraph.Typing.Call
import TensorGraph.Typing.Index

namespace TensorGraph

/-! ## Faults -/

/-- **`VerifyError`** -- why a function or module is not well-formed. -/
inductive VerifyError where
  | index (fault : IndexError)
  | duplicateName (name : String)
  | notATuple (binding : String) (id : ValueId)
  | tupleIndex (binding : String) (index arity : Nat)
  | shape (binding : String) (fault : ShapeError)
  | typeMismatch (binding : String) (declared inferred : ValueType)
  | outputNotInRegion (region : Nat) (id : ValueId)
  | returnNotOutput (id : ValueId)
  | duplicateFunction (name : String)
  deriving DecidableEq

/-- The wording of a fault. -/
def VerifyError.message : VerifyError → String
  | index fault => fault.message
  | duplicateName name => s!"value name `%{name}` is defined more than once"
  | notATuple binding ⟨n⟩ => s!"binding `%{binding}`: value %{n} is not a tuple"
  | tupleIndex binding i arity =>
    s!"binding `%{binding}`: tuple index {i} out of range for arity {arity}"
  | shape binding fault => s!"binding `%{binding}`: {fault.message}"
  | typeMismatch binding declared inferred =>
    s!"binding `%{binding}` declares {declared} but its expression has type {inferred}"
  | outputNotInRegion region ⟨n⟩ =>
    s!"region {region} output %{n} is not bound in that region or a parameter"
  | returnNotOutput ⟨n⟩ =>
    s!"return references %{n} which is neither a region output nor a parameter"
  | duplicateFunction name => s!"function @{name} is defined more than once"

/-! ## Types of expressions -/

namespace FunctionIndex

/-- The type of a component of a tuple. -/
def elementType (ix : FunctionIndex) (binding : String) (tuple : ValueId) (index : Nat) :
    Except VerifyError ValueType :=
  match ix.typeOf? tuple with
  | some (.tuple elements) =>
    match elements[index]? with
    | some ty => .ok ty
    | none => .error (.tupleIndex binding index elements.length)
  | _ => .error (.notATuple binding tuple)

/-- The type of an operand. -/
def operandType (ix : FunctionIndex) (binding : String) : Operand → Except VerifyError ValueType
  | .value id =>
    match ix.typeOf? id with
    | some ty => .ok ty
    | none => .error (.index (.missingDefinition id))
  | .tupleElement tuple index => ix.elementType binding tuple index
  | .literal constant => .ok (.tensor constant.spec)

mutual

/-- The type of a field of a tuple construction. -/
def fieldType (ix : FunctionIndex) (binding : String) :
    TupleField → Except VerifyError ValueType
  | .operand x => ix.operandType binding x
  | .tuple fields => (ix.fieldTypes binding fields).map .tuple

/-- The types of fields; the first fault counts. -/
def fieldTypes (ix : FunctionIndex) (binding : String) :
    List TupleField → Except VerifyError (List ValueType)
  | [] => .ok []
  | field :: rest => do
    let ty ← ix.fieldType binding field
    return ty :: (← ix.fieldTypes binding rest)

end

theorem fieldTypes_eq_mapM (ix : FunctionIndex) (binding : String) (fields : List TupleField) :
    ix.fieldTypes binding fields = fields.mapM (ix.fieldType binding) := by
  induction fields with
  | nil => rfl
  | cons field rest ih =>
    rw [fieldTypes, ih, List.mapM_cons]

/-- **`exprType`** -- the type of the expression of a binding. -/
def exprType (ix : FunctionIndex) (b : Binding) : Except VerifyError ValueType :=
  match b.expr with
  | .call op operands => do
    let types ← operands.mapM (ix.operandType b.name)
    (op.resultType types (some b.ty)).mapError (.shape b.name)
  | .tuple fields => (ix.fieldTypes b.name fields).map .tuple
  | .tupleGet tuple index => ix.elementType b.name tuple index
  | .alias x => ix.operandType b.name x

/-- A binding declares the type of its expression. -/
def checkBinding (ix : FunctionIndex) (b : Binding) : Except VerifyError Unit := do
  let inferred ← ix.exprType b
  if inferred = b.ty then return else throw (.typeMismatch b.name b.ty inferred)

/-- A region exposes a parameter or a binding of its own. -/
def checkOutput (ix : FunctionIndex) (region : Nat) (id : ValueId) : Except VerifyError Unit :=
  match ix.definitionOf? id with
  | some (.param _) => .ok ()
  | some (.binding pos) =>
    if pos.region = region then .ok () else .error (.outputNotInRegion region id)
  | none => .error (.outputNotInRegion region id)

end FunctionIndex

/-! ## Functions and modules -/

/-- The names of all values, parameters first. -/
def Function.valueNames (f : Function) : List String :=
  f.params.map Param.name ++ f.bindings.map Binding.name

/-- The first element that occurs earlier in the list, when `seen` has occurred before. -/
def firstRepeated? {α : Type} [BEq α] (seen : List α) : List α → Option α
  | [] => none
  | x :: xs => if seen.contains x then some x else firstRepeated? (x :: seen) xs

/-- The values that may be returned: parameters and outputs. -/
def Function.exposed (f : Function) : List ValueId :=
  f.paramIds ++ f.regions.flatMap Region.outputs

/-- **`Function.verify`** -- checks a function. -/
def Function.verify (f : Function) : Except VerifyError Unit := do
  let ix ← (FunctionIndex.ofFunction f).mapError .index
  match firstRepeated? [] f.valueNames with
  | some name => throw (.duplicateName name)
  | none =>
    f.bindings.forM ix.checkBinding
    f.regions.zipIdx.forM fun (r, region) => r.outputs.forM (ix.checkOutput region)
    match f.ret.values.find? fun id => !f.exposed.contains id with
    | some id => throw (.returnNotOutput id)
    | none => return

/-- Checks functions that follow functions of the names `seen`. -/
def verifyFunctions (seen : List String) : List Function → Except VerifyError Unit
  | [] => .ok ()
  | f :: rest =>
    if seen.contains f.name then .error (.duplicateFunction f.name)
    else do
      f.verify
      verifyFunctions (f.name :: seen) rest

/-- **`Module.verify`** -- checks a module. -/
def Module.verify (m : Module) : Except VerifyError Unit := verifyFunctions [] m.functions

end TensorGraph
