/-
# TensorGraph.Text.Call -- operands and attributes of a call

After the name of an operation come lists of operands between parentheses and attributes
of the form `name[value]`, in any order, with commas and ASCII blanks anywhere between
them. Operands of several lists are taken together, and of several attributes with one
name the last counts. What an attribute leaves out is taken from the first operand or
from the declared type of the result.
-/
import TensorGraph.Text.Operand

namespace TensorGraph

/-! ## Clauses -/

/-- **`Clause`** -- one part of what follows the name of an operation. -/
inductive Clause where
  | operands (texts : List (List Char))
  | attribute (name value : List Char)

/-- Blanks between clauses. -/
def isAsciiBlank (c : Char) : Bool :=
  c == ' ' || c == '\t' || c == '\n' || c == '\x0c' || c == '\x0d'

/-- Characters of the name of an attribute. -/
def isAttributeChar (c : Char) : Bool := c.isAlpha || c == '_'

/-- **`clauses`** -- cuts what follows the name of an operation into clauses. -/
def clauses (s : List Char) : Except TextError (List Clause) :=
  match _h : s with
  | [] => .ok []
  | '(' :: body =>
    match _hc : closing? '(' ')' 0 body with
    | none => .error .unclosedOperands
    | some (inside, rest) =>
      (clauses rest).map fun more =>
        .operands ((items inside).filter fun item => !item.isEmpty) :: more
  | c :: rest =>
    if isAsciiBlank c || c == ',' then clauses rest
    else
      match _hd : s.dropWhile isAttributeChar with
      | '[' :: body =>
        match _hc : closing? '[' ']' 0 body with
        | none => .error .unclosedAttribute
        | some (inside, rest) =>
          (clauses rest).map fun more =>
            .attribute (s.takeWhile isAttributeChar) (trim inside) :: more
      | _ => .error (.unexpectedToken (String.ofList s))
termination_by s.length
decreasing_by
  · have h1 := length_closing? _hc
    simp only [List.length_cons]
    omega
  · simp
  · have h1 := length_closing? _hc
    have h2 := (List.dropWhile_sublist isAttributeChar (l := s)).length_le
    rw [_hd] at h2
    subst _h
    simp only [List.length_cons] at h2 ⊢
    omega

/-- The operands of all clauses, in order. -/
def operandTexts (cs : List Clause) : List (List Char) :=
  cs.flatMap fun
    | .operands texts => texts
    | .attribute _ _ => []

/-- The value of the last attribute of the given name. -/
def attribute? (cs : List Clause) (word : String) : Option (List Char) :=
  cs.reverse.findSome? fun
    | .attribute name value => if name = word.toList then some value else none
    | .operands _ => none

/-! ## Attribute values -/

/-- A number in an attribute. -/
def readEntry (s : List Char) : Except TextError Nat :=
  let entry := trim s
  if entry.isEmpty then .error .emptyListEntry
  else
    match readIndex? entry with
    | some n => .ok n
    | none => .error (.invalidInteger (String.ofList entry))

/-- Numbers separated by commas, or nothing at all. -/
def readEntries (s : List Char) : Except TextError (List Nat) :=
  if (trim s).isEmpty then .ok [] else ((trim s).splitOn ',').mapM readEntry

/-- A truth value, in any case of letters. -/
def readBool (s : List Char) : Except TextError Bool :=
  let word := String.ofList ((trim s).map Char.toLower)
  if word = "true" then .ok true
  else if word = "false" then .ok false
  else .error (.invalidBool word)

/-! ## Operations -/

/-- What an operation is read from: its operands and attributes, the scope, and the
declared type of the result. -/
structure CallText where
  /-- The names in scope. -/
  scope : Scope
  /-- The operands, resolved. -/
  operands : List Operand
  /-- The clauses, for their attributes. -/
  clauses : List Clause
  /-- The declared type. -/
  declared : ValueType

namespace CallText

/-- The rank of the first operand of the operation of the given name. -/
def firstRank (c : CallText) (name : String) : Except TextError Nat :=
  match c.operands with
  | [] => .error (.missingOperand name)
  | operand :: _ =>
    match c.scope.operandType operand with
    | .error e => .error e
    | .ok (.tensor spec) => .ok spec.shape.rank
    | .ok (.tuple _) => .error (.operandNotTensor name)

/-- Without `perm`, the axes in reverse. -/
def transpose (c : CallText) : Except TextError Operation :=
  match attribute? c.clauses "perm" with
  | some value => (readEntries value).map .transpose
  | none => (c.firstRank "transpose").map fun rank => .transpose (List.range rank).reverse

/-- Without `shape`, the shape of the declared type. -/
def reshape (c : CallText) : Except TextError Operation :=
  match attribute? c.clauses "shape", c.declared with
  | some value, _ => (readEntries value).map .reshape
  | none, .tensor spec => .ok (.reshape spec.shape.dims)
  | none, .tuple _ => .error .reshapeResult

/-- Without `axes`, every axis; without `keepdims`, reduced axes go. -/
def sum (c : CallText) : Except TextError Operation := do
  let axes ← (attribute? c.clauses "axes").mapM readEntries
  let keepdims ← (attribute? c.clauses "keepdims").mapM readBool
  return .sum axes (keepdims.getD false)

/-- Without `axis`, the last axis. -/
def softmax (c : CallText) : Except TextError Operation :=
  match attribute? c.clauses "axis" with
  | some value => (readEntry value).map .softmax
  | none =>
    match c.firstRank "softmax" with
    | .error e => .error e
    | .ok 0 => .error .softmaxRank
    | .ok (axis + 1) => .ok (.softmax axis)

/-- A custom call names its target. -/
def customCall (c : CallText) : Except TextError Operation :=
  match attribute? c.clauses "target" with
  | some value =>
    if (trim value).isEmpty then .error .missingTarget
    else .ok (.customCall (String.ofList (trim value)))
  | none => .error .missingTarget

end CallText

/-- The operators that take no attribute. -/
def plainOperations : List Operation :=
  [.add, .subtract, .multiply, .divide, .negative, .exp, .log, .matmul, .softmaxCrossEntropy,
    .ones, .zeros, .onesLike, .zerosLike, .collapseSumLike]

/-- **`CallText.operation`** -- the operation of the given name. -/
def CallText.operation (c : CallText) (name : String) : Except TextError Operation :=
  match plainOperations.find? fun op => op.name == name with
  | some op => .ok op
  | none =>
    if name = "transpose" then c.transpose
    else if name = "reshape" then c.reshape
    else if name = "sum" then c.sum
    else if name = "softmax" then c.softmax
    else if name = "custom_call" then c.customCall
    else .error (.unsupportedOperation name)

end TensorGraph
