/-
# TensorGraph.Binary.Decode -- modules from bytes

A reader takes bytes from the front and fails when there are too few, when a truth value
or a presence is neither 0 nor 1, when a kind has no such number, or when a text is not
UTF-8. What follows a complete module is left alone.

Types, tuple fields and return expressions nest to any depth. Each level takes bytes of its
own, so the number of bytes left bounds the levels still to come.
-/
import TensorGraph.Graph.Version

namespace TensorGraph

open scoped CoreInstances

/-- **`ByteReader`** -- takes a value from the front of the bytes. -/
abbrev ByteReader := StateT (List UInt8) Option

namespace Binary

/-! ## Words -/

/-- One byte. -/
def byte : ByteReader UInt8
  | [] => none
  | b :: rest => some (b, rest)

/-- So many items, one after the other. -/
def many {α : Type} (item : ByteReader α) : Nat → ByteReader (List α)
  | 0 => pure []
  | count + 1 => do
    let x ← item
    let xs ← many item count
    return x :: xs

/-- A word of so many bytes. -/
def word (width : Nat) : ByteReader Nat := leValue <$> many byte width

@[simp] theorem byte_cons (b : UInt8) (rest : List UInt8) : byte (b :: rest) = some (b, rest) :=
  rfl

/-- Bytes are taken in order. -/
theorem many_byte (bytes rest : List UInt8) :
    many byte bytes.length (bytes ++ rest) = some (bytes, rest) := by
  induction bytes with
  | nil => rfl
  | cons b bs ih =>
    show (many byte bs.length (bs ++ rest)).bind (fun p => some (b :: p.1, p.2)) = _
    rw [ih, Option.bind_some]

/-- A dimension, axis, index or length. -/
def nat : ByteReader Nat := word 8

/-- The kind of a value of several kinds. -/
def tag : ByteReader Nat := word 4

/-- A truth value. -/
def bool : ByteReader Bool := do
  match ← byte with
  | 0 => return false
  | 1 => return true
  | _ => failure

/-- A list. -/
def list {α : Type} (item : ByteReader α) : ByteReader (List α) := do many item (← nat)

/-- A text. -/
def text : ByteReader String := do
  let bytes ← list byte
  match String.fromUTF8? ⟨bytes.toArray⟩ with
  | some s => return s
  | none => failure

/-- A value, by its number. -/
def valueId : ByteReader ValueId := ValueId.mk <$> word 4

/-- Reads something nested, with as many levels as there are bytes. -/
def nested {α : Type} (levels : Nat → ByteReader α) : ByteReader α :=
  fun bytes => levels bytes.length bytes

/-! ## Types and literals -/

/-- An element type, by its place in the declaration. -/
def dtype : ByteReader DType := do
  match DType.all[← tag]? with
  | some d => return d
  | none => failure

/-- A tensor spec. -/
def spec : ByteReader TensorSpec := do
  let d ← dtype
  let dims ← list nat
  return ⟨d, ⟨dims⟩⟩

/-- A type of at most so many levels. -/
def typeWithin : Nat → ByteReader ValueType
  | 0 => failure
  | levels + 1 => do
    match ← tag with
    | 0 => .tensor <$> spec
    | 1 => .tuple <$> list (typeWithin levels)
    | _ => failure

/-- A type. -/
def type : ByteReader ValueType := nested typeWithin

/-- A literal. -/
def literal : ByteReader Literal := do
  let s ← spec
  let bytes ← list byte
  return ⟨s, bytes⟩

/-! ## Expressions -/

/-- An operand. -/
def operand : ByteReader Operand := do
  match ← tag with
  | 0 => .value <$> valueId
  | 1 => do
    let tuple ← valueId
    let index ← nat
    return .tupleElement tuple index
  | 2 => .literal <$> literal
  | _ => failure

/-- The axes of a sum, if they are given. -/
def axes : ByteReader (Option (List Nat)) := do
  if ← bool then some <$> list nat else return none

/-- An operation. -/
def operation : ByteReader Operation := do
  match ← tag with
  | 0 => return .add
  | 1 => return .subtract
  | 2 => return .multiply
  | 3 => return .divide
  | 4 => return .negative
  | 5 => return .exp
  | 6 => return .log
  | 7 => return .matmul
  | 8 => .transpose <$> list nat
  | 9 => .reshape <$> list nat
  | 10 => do
    let reduced ← axes
    let keepdims ← bool
    return .sum reduced keepdims
  | 11 => .softmax <$> nat
  | 12 => return .softmaxCrossEntropy
  | 13 => return .ones
  | 14 => return .zeros
  | 15 => return .onesLike
  | 16 => return .zerosLike
  | 17 => return .collapseSumLike
  | 18 => .customCall <$> text
  | _ => failure

/-- A field of a tuple construction, of at most so many levels. -/
def fieldWithin : Nat → ByteReader TupleField
  | 0 => failure
  | levels + 1 => do
    match ← tag with
    | 0 => .operand <$> operand
    | 1 => .tuple <$> list (fieldWithin levels)
    | _ => failure

/-- A field of a tuple construction. -/
def field : ByteReader TupleField := nested fieldWithin

/-- An expression. -/
def expr : ByteReader Expr := do
  match ← tag with
  | 0 => do
    let op ← operation
    let operands ← list operand
    return .call op operands
  | 1 => .tuple <$> list field
  | 2 => do
    let tuple ← valueId
    let index ← nat
    return .tupleGet tuple index
  | 3 => .alias <$> operand
  | _ => failure

/-- A return expression of at most so many levels. -/
def returnWithin : Nat → ByteReader ReturnExpr
  | 0 => failure
  | levels + 1 => do
    match ← tag with
    | 0 => .value <$> valueId
    | 1 => .tuple <$> list (returnWithin levels)
    | _ => failure

/-- A return expression. -/
def returnExpr : ByteReader ReturnExpr := nested returnWithin

/-! ## Functions and modules -/

/-- A parameter. -/
def param : ByteReader Param := do
  let id ← valueId
  let name ← text
  let ty ← type
  return ⟨id, name, ty⟩

/-- A binding. -/
def binding : ByteReader Binding := do
  let id ← valueId
  let name ← text
  let e ← expr
  let ty ← type
  return ⟨id, name, e, ty⟩

/-- A region. -/
def region : ByteReader Region := do
  let bindings ← list binding
  let outputs ← list valueId
  return ⟨bindings, outputs⟩

/-- A function. -/
def function : ByteReader Function := do
  let name ← text
  let params ← list param
  let regions ← list region
  let ret ← returnExpr
  return ⟨name, params, regions, ret⟩

/-- A module. -/
def module : ByteReader Module := do
  let version ← text
  let functions ← list function
  return ⟨version, functions⟩

end Binary

/-- **`Module.ofBytes`** -- a module from its binary form; bytes behind it do not count. -/
def Module.ofBytes (bytes : List UInt8) : Except StoreError Module :=
  match Binary.module.run bytes with
  | some (m, _) => m.acceptVersion
  | none => .error .binary

end TensorGraph
