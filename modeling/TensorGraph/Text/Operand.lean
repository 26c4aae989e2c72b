/-
# TensorGraph.Text.Operand -- operands as written, and names in scope

An operand is written as `%name`, as `%name[index]` for a component of a tuple, or as a
number. Names are resolved against a scope, which holds what a function has defined so
far: identifiers are given out in order of definition, starting at 0, and a name is
defined once.
-/
import TensorGraph.Graph.Basic
import TensorGraph.Text.Error
import TensorGraph.Text.Number
import TensorGraph.Text.Scan

namespace TensorGraph

/-! ## Scopes -/

/-- A name with its value and type. -/
structure ScopeEntry where
  /-- The name. -/
  name : String
  /-- The value it stands for. -/
  id : ValueId
  /-- The type of the value. -/
  ty : ValueType

/-- **`Scope`** -- the values defined so far, latest first. -/
structure Scope where
  /-- The entries. -/
  entries : List ScopeEntry

namespace Scope

/-- Nothing defined yet. -/
def empty : Scope := ⟨[]⟩

/-- The identifier of the next value. -/
def nextId (s : Scope) : ValueId := ⟨s.entries.length⟩

/-- The value of a name, if it is defined. -/
def find? (s : Scope) (name : String) : Option ValueId :=
  (s.entries.find? fun e => e.name == name).map ScopeEntry.id

/-- The type of a value, if it is defined. -/
def typeOf? (s : Scope) (id : ValueId) : Option ValueType :=
  (s.entries.find? fun e => e.id == id).map ScopeEntry.ty

/-- The value of a name. -/
def resolve (s : Scope) (name : String) : Except TextError ValueId :=
  match s.find? name with
  | some id => .ok id
  | none => .error (.unknownValue name)

/-- **`define`** -- gives a new name the next identifier. -/
def define (s : Scope) (name : String) (ty : ValueType) : Except TextError (ValueId × Scope) :=
  if name = "" then .error .emptyValueName
  else if (s.find? name).isSome then .error (.duplicateValue name)
  else .ok (s.nextId, ⟨⟨name, s.nextId, ty⟩ :: s.entries⟩)

/-- The type that an operand reads. -/
def operandType (s : Scope) (operand : Operand) : Except TextError ValueType :=
  let ty? :=
    match operand with
    | .value id => s.typeOf? id
    | .tupleElement tuple index => (s.typeOf? tuple).bind fun ty => ty.element? index
    | .literal constant => some (.tensor constant.spec)
  match ty? with
  | some ty => .ok ty
  | none => .error .unknownOperandType

end Scope

/-- The name in `%name`: blanks around and percent signs before it are dropped. -/
def valueName (s : List Char) : String := String.ofList ((trim s).dropWhile (· == '%'))

/-! ## Operands -/

/-- **`OperandText`** -- an operand whose names are not resolved yet. -/
inductive OperandText where
  | value (name : String)
  | element (tuple : String) (index : Nat)
  | number (bits : UInt32)

namespace OperandText

/-- Reads `name[index]`, given what stands before and after the first bracket. -/
def ofElement (before after : List Char) : Except TextError OperandText :=
  if !after.contains ']' && !before.contains ']' then .error .elementUnclosed
  else if after.getLast? ≠ some ']' then .error .elementMalformed
  else if (trim before).isEmpty then .error .emptyElementBase
  else
    let index := trim after.dropLast
    match readIndex? index with
    | some n => .ok (.element (String.ofList (trim before)) n)
    | none => .error (.invalidElementIndex (String.ofList index))

/-- **`ofText`** -- reads an operand. -/
def ofText (s : List Char) : Except TextError OperandText :=
  match trim s with
  | [] => .error .emptyOperand
  | ['%'] => .error .emptyOperandName
  | '%' :: name =>
    match cutAtFirst '[' name with
    | some (before, after) => ofElement before after
    | none => .ok (.value (String.ofList (trim name)))
  | text =>
    match readNumber? .single text with
    | some word => .ok (.number (UInt32.ofNat word))
    | none => .error (.invalidOperand (String.ofList text))

/-- The operand meant in a scope; a number is a scalar of type `f32`. -/
def resolve (scope : Scope) : OperandText → Except TextError Operand
  | .value name => (scope.resolve name).map .value
  | .element tuple index => (scope.resolve tuple).map fun id => .tupleElement id index
  | .number bits => .ok (.literal (.ofSingle bits))

end OperandText

/-- **`Operand.ofText`** -- reads an operand and resolves its name. -/
def Operand.ofText (scope : Scope) (s : List Char) : Except TextError Operand :=
  (OperandText.ofText s).bind (OperandText.resolve scope)

end TensorGraph
