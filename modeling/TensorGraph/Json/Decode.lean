/-
# TensorGraph.Json.Decode -- modules from JSON documents

A decoder is given how many levels of containers it may still open; the document as a
whole may open 127. Unknown fields of an object are passed over, however deep they are. A
field may be given once only, and all but the version word of a module and the axes of a
sum must be given. An object may also be written as the list of all its fields in order,
and a kind that carries nothing as an object with a null field.
-/
import TensorGraph.Graph.Version
import TensorGraph.Json.Encode
import TensorGraph.Json.Printer
import TensorGraph.Json.Reader
import TensorGraph.Text.Number

namespace TensorGraph

open scoped CoreInstances

/-- **`JsonDecoder`** -- reads a document with so many levels left. -/
abbrev JsonDecoder (α : Type) := Nat → Json → Option α

namespace Json

/-! ## Shapes of documents -/

/-- The levels of containers that a document may open. -/
def levelLimit : Nat := 127

/-- Bound of the numbers of values. -/
def idBound : Nat := 2 ^ (32 : Nat)

/-- A natural number below a bound. -/
def nat? (bound : Nat) : Json → Option Nat
  | .number (some n) => if n < bound then some n else none
  | _ => none

/-- A dimension, axis or index. -/
def index? : Json → Option Nat := nat? indexBound

/-- The number of a value. -/
def valueId? (json : Json) : Option ValueId := (json.nat? idBound).map ValueId.mk

/-- A text. -/
def text? : Json → Option String
  | .string text => text
  | _ => none

/-- A truth value. -/
def bool? : Json → Option Bool
  | .bool b => some b
  | _ => none

/-- A list whose elements are read one level down. -/
def list {α : Type} (item : JsonDecoder α) : JsonDecoder (List α)
  | depth + 1, .array elements => elements.mapM (item depth)
  | _, _ => none

/-- A list of dimensions, axes or bytes. -/
def nats (bound : Nat) : JsonDecoder (List Nat) := list fun _ => nat? bound

/-- The fields of the given names, with the levels left inside. -/
def fields? (names : List String) : Nat → Json → Option (Nat × List (Option Json))
  | depth + 1, .array elements =>
    if elements.length = names.length then some (depth, elements.map some) else none
  | depth + 1, .object fields => do
    let keys ← fields.mapM Prod.fst
    if names.all fun name => keys.count name ≤ 1 then
      return (depth, names.map fun name => fields.lookup (some name))
    else none
  | _, _ => none

/-- The kind that a document names and what it carries, with the levels left inside. -/
def variant? : Nat → Json → Option (String × Json × Nat)
  | depth, .string (some tag) => some (tag, .null, depth)
  | depth + 1, .object [(some tag, value)] => some (tag, value, depth)
  | _, _ => none

/-- The kind that an object names and what it carries, with the levels left inside. -/
def payload? : Nat → Json → Option (String × Json × Nat)
  | depth + 1, .object [(some tag, value)] => some (tag, value, depth)
  | _, _ => none

/-! ## Types and literals -/

/-- An element type. -/
def dtype? : JsonDecoder DType := fun depth json => do
  match ← json.variant? depth with
  | (tag, .null, _) => DType.all.find? fun d => d.jsonName == tag
  | _ => none

/-- A shape. -/
def shape? : JsonDecoder Shape := fun depth json => do
  match ← json.fields? ["dims"] depth with
  | (depth, [some dims]) => return ⟨← nats indexBound depth dims⟩
  | _ => none

/-- A tensor spec. -/
def spec? : JsonDecoder TensorSpec := fun depth json => do
  match ← json.fields? ["dtype", "shape"] depth with
  | (depth, [some dtype, some shape]) => return ⟨← dtype.dtype? depth, ← shape.shape? depth⟩
  | _ => none

/-- A type. -/
def type? : JsonDecoder ValueType
  | 0, _ => none
  | depth + 1, .object [(some "Tensor", spec)] => (spec.spec? depth).map .tensor
  | depth + 2, .object [(some "Tuple", .array elements)] =>
    (elements.mapM (type? depth)).map .tuple
  | _, _ => none

/-- A literal. -/
def literal? : JsonDecoder Literal := fun depth json => do
  match ← json.fields? ["spec", "bytes"] depth with
  | (depth, [some spec, some bytes]) =>
    return ⟨← spec.spec? depth, (← nats 256 depth bytes).map UInt8.ofNat⟩
  | _ => none

/-! ## Expressions -/

/-- A component of a tuple. -/
def element? : JsonDecoder (ValueId × Nat) := fun depth json => do
  match ← json.fields? ["tuple", "index"] depth with
  | (_, [some tuple, some index]) => return (← tuple.valueId?, ← index.index?)
  | _ => none

/-- An operand. -/
def operand? : JsonDecoder Operand := fun depth json => do
  match ← json.payload? depth with
  | ("Value", value, _) => value.valueId?.map .value
  | ("TupleElement", value, depth) =>
    (value.element? depth).map fun (tuple, index) => .tupleElement tuple index
  | ("Literal", value, depth) => (value.literal? depth).map .literal
  | _ => none

/-- The axes of a sum; nothing and `null` stand for all of them. -/
def axes? : Nat → Option Json → Option (Option (List Nat))
  | _, none => some none
  | _, some .null => some none
  | depth, some json => (nats indexBound depth json).map some

/-- The operators that carry nothing, by their names in stored forms. -/
def plainOperation? : String → Option Operation
  | "Add" => some .add
  | "Subtract" => some .subtract
  | "Multiply" => some .multiply
  | "Divide" => some .divide
  | "Negative" => some .negative
  | "Exp" => some .exp
  | "Log" => some .log
  | "Matmul" => some .matmul
  | "SoftmaxCrossEntropy" => some .softmaxCrossEntropy
  | "Ones" => some .ones
  | "Zeros" => some .zeros
  | "OnesLike" => some .onesLike
  | "ZerosLike" => some .zerosLike
  | "CollapseSumLike" => some .collapseSumLike
  | _ => none

/-- The sole field of an object. -/
def soleField? (name : String) : Nat → Json → Option (Nat × Json) := fun depth json => do
  match ← json.fields? [name] depth with
  | (depth, [some value]) => some (depth, value)
  | _ => none

/-- An operator with what it carries. -/
def loadedOperation? : Nat → String → Json → Option Operation
  | depth, "Transpose", json => do
    let (depth, perm) ← json.soleField? "perm" depth
    return .transpose (← nats indexBound depth perm)
  | depth, "Reshape", json => do
    let (depth, dims) ← json.soleField? "shape" depth
    return .reshape (← nats indexBound depth dims)
  | depth, "Sum", json => do
    match ← json.fields? ["axes", "keepdims"] depth with
    | (depth, [axes, some keepdims]) => return .sum (← axes? depth axes) (← keepdims.bool?)
    | _ => none
  | depth, "Softmax", json => do
    let (_, axis) ← json.soleField? "axis" depth
    return .softmax (← axis.index?)
  | depth, "CustomCall", json => do
    let (_, target) ← json.soleField? "target" depth
    return .customCall (← target.text?)
  | _, _, _ => none

/-- An operation. -/
def operation? : JsonDecoder Operation := fun depth json => do
  let (tag, value, depth) ← json.variant? depth
  match plainOperation? tag, value with
  | some op, .null => return op
  | some _, _ => none
  | none, value => loadedOperation? depth tag value

/-- A field of a tuple construction. -/
def field? : JsonDecoder TupleField
  | 0, _ => none
  | depth + 1, .object [(some "Operand", x)] => (x.operand? depth).map .operand
  | depth + 2, .object [(some "Tuple", .array elements)] =>
    (elements.mapM (field? depth)).map .tuple
  | _, _ => none

/-- An expression. -/
def expr? : JsonDecoder Expr := fun depth json => do
  match ← json.payload? depth with
  | ("Call", value, depth) =>
    match ← value.fields? ["op", "operands"] depth with
    | (depth, [some op, some operands]) =>
      return .call (← op.operation? depth) (← list operand? depth operands)
    | _ => none
  | ("Tuple", value, depth) => return .tuple (← list field? depth value)
  | ("TupleGet", value, depth) =>
    let (tuple, index) ← value.element? depth
    return .tupleGet tuple index
  | ("Use", value, depth) => return .alias (← value.operand? depth)
  | _ => none

/-- A return expression. -/
def return? : JsonDecoder ReturnExpr
  | 0, _ => none
  | _ + 1, .object [(some "Value", id)] => id.valueId?.map .value
  | depth + 2, .object [(some "Tuple", .array elements)] =>
    (elements.mapM (return? depth)).map .tuple
  | _, _ => none

/-! ## Functions and modules -/

/-- A parameter. -/
def param? : JsonDecoder Param := fun depth json => do
  match ← json.fields? ["id", "name", "ty"] depth with
  | (depth, [some id, some name, some ty]) =>
    return ⟨← id.valueId?, ← name.text?, ← ty.type? depth⟩
  | _ => none

/-- A binding. -/
def binding? : JsonDecoder Binding := fun depth json => do
  match ← json.fields? ["id", "name", "expr", "ty"] depth with
  | (depth, [some id, some name, some expr, some ty]) =>
    return ⟨← id.valueId?, ← name.text?, ← expr.expr? depth, ← ty.type? depth⟩
  | _ => none

/-- A region. -/
def region? : JsonDecoder Region := fun depth json => do
  match ← json.fields? ["bindings", "outputs"] depth with
  | (depth, [some bindings, some outputs]) =>
    return ⟨← list binding? depth bindings, ← list (fun _ => valueId?) depth outputs⟩
  | _ => none

/-- A function. -/
def function? : JsonDecoder Function := fun depth json => do
  match ← json.fields? ["name", "params", "regions", "ret"] depth with
  | (depth, [some name, some params, some regions, some ret]) =>
    return ⟨← name.text?, ← list param? depth params, ← list region? depth regions,
      ← ret.return? depth⟩
  | _ => none

/-- A module; without a version word, of the current version. -/
def module? : JsonDecoder Module := fun depth json => do
  match ← json.fields? ["ir_version", "functions"] depth with
  | (depth, [version, some functions]) =>
    let version ← version.elim (some currentVersion) text?
    return ⟨version, ← list function? depth functions⟩
  | _ => none

end Json

/-! ## The JSON form as text -/

/-- **`Module.toJsonText`** -- a module as JSON text. -/
def Module.toJsonText (m : Module) : List Char := (Json.ofModule m).render

/-- **`Module.ofJsonText`** -- a module from JSON text. -/
def Module.ofJsonText (s : List Char) : Except StoreError Module :=
  match (Json.read? s).bind (Json.module? Json.levelLimit) with
  | some m => m.acceptVersion
  | none => .error .json

end TensorGraph
