/-
# TensorGraph.Typing.Index -- definitions and uses of a function

The index of a function says for each value where it is defined, with which type, and
which bindings read it. It exists exactly when the function is in single-assignment form:
every identifier is defined once, and every binding reads values defined before it. The
binding that stands first decides which of two faults is reported, and within a binding
its reads come before its own identifier.
-/
import TensorGraph.Graph.Lookup

namespace TensorGraph

/-- **`BindingPos`** -- where a binding stands. -/
structure BindingPos where
  /-- The position of its region. -/
  region : Nat
  /-- Its position in the region. -/
  index : Nat
  deriving DecidableEq

/-- Where a value comes from. -/
inductive Definition where
  | param (index : Nat)
  | binding (pos : BindingPos)
  deriving DecidableEq

/-- **`IndexError`** -- a fault against single assignment. -/
inductive IndexError where
  | duplicateValue (id : ValueId)
  | missingDefinition (id : ValueId)
  deriving DecidableEq

/-- The wording of a fault. -/
def IndexError.message : IndexError → String
  | duplicateValue ⟨n⟩ => s!"value %{n} is defined more than once"
  | missingDefinition ⟨n⟩ => s!"value %{n} is used before it is defined"

/-- What the index records of one value. -/
structure IndexEntry where
  /-- The value. -/
  id : ValueId
  /-- Its declared type. -/
  ty : ValueType
  /-- Where it is defined. -/
  definition : Definition
  /-- The bindings that read it, in order, each once. -/
  users : List BindingPos
  deriving DecidableEq

/-- **`FunctionIndex`** -- the values of a function in order of definition. -/
structure FunctionIndex where
  /-- One entry for each value. -/
  entries : List IndexEntry

namespace FunctionIndex

/-- The entry of a value. -/
def entryOf? (ix : FunctionIndex) (id : ValueId) : Option IndexEntry :=
  ix.entries.find? fun e => e.id == id

/-- The type of a value. -/
def typeOf? (ix : FunctionIndex) (id : ValueId) : Option ValueType :=
  (ix.entryOf? id).map IndexEntry.ty

/-- Where a value is defined. -/
def definitionOf? (ix : FunctionIndex) (id : ValueId) : Option Definition :=
  (ix.entryOf? id).map IndexEntry.definition

/-- The bindings that read a value, in order, each once. -/
def usersOf (ix : FunctionIndex) (id : ValueId) : List BindingPos :=
  ((ix.entryOf? id).map IndexEntry.users).getD []

/-- The type that an operand reads. -/
def operandType? (ix : FunctionIndex) : Operand → Option ValueType
  | .value id => ix.typeOf? id
  | .tupleElement tuple index => (ix.typeOf? tuple).bind fun ty => ty.element? index
  | .literal constant => some (.tensor constant.spec)

/-! ## Building -/

/-- Adds a value that is new. -/
def define (ix : FunctionIndex) (id : ValueId) (ty : ValueType) (d : Definition) :
    Except IndexError FunctionIndex :=
  if (ix.entryOf? id).isSome then .error (.duplicateValue id)
  else .ok ⟨ix.entries ++ [⟨id, ty, d, []⟩]⟩

/-- Records that the binding at `pos` reads a value; a second read changes nothing. -/
def use (ix : FunctionIndex) (pos : BindingPos) (id : ValueId) : Except IndexError FunctionIndex :=
  if (ix.entryOf? id).isSome then
    .ok ⟨ix.entries.map fun e =>
      if e.id = id ∧ e.users.getLast? ≠ some pos then { e with users := e.users ++ [pos] } else e⟩
  else .error (.missingDefinition id)

/-- Records a binding: what it reads, then what it defines. -/
def addBinding (ix : FunctionIndex) (pos : BindingPos) (b : Binding) :
    Except IndexError FunctionIndex := do
  let ix ← b.expr.values.foldlM (fun ix id => ix.use pos id) ix
  ix.define b.id b.ty (.binding pos)

/-- The bindings of a function with their positions. -/
def positions (f : Function) : List (BindingPos × Binding) :=
  f.regions.zipIdx.flatMap fun (r, region) =>
    r.bindings.zipIdx.map fun (b, index) => (⟨region, index⟩, b)

/-- **`ofFunction`** -- the index of a function. -/
def ofFunction (f : Function) : Except IndexError FunctionIndex := do
  let ix ← f.params.zipIdx.foldlM (fun ix (p, index) => ix.define p.id p.ty (.param index)) ⟨[]⟩
  (positions f).foldlM (fun ix (pos, b) => ix.addBinding pos b) ix

end FunctionIndex

end TensorGraph
