/-
# TensorGraph.Text.Print -- the text form of functions and modules

Two spaces of indentation per level and one statement per line. A function with exactly
one region shows its bindings without braces. Values go by their names; a value that the
function does not define is shown by its number between angle brackets, a literal that is
no scalar of type `f32` by its spec, and a missing type by a question mark: none of these
three can be read back.
-/
import TensorGraph.Graph.Lookup
import TensorGraph.Number.Shortest

namespace TensorGraph

/-! ## Values -/

/-- Texts separated by a comma and a space. -/
def commaSeparated (texts : List (List Char)) : List Char := [',', ' '].intercalate texts

/-- Numbers separated by a comma and a space. -/
def renderNats (ns : List Nat) : List Char := commaSeparated (ns.map (Nat.toDigits 10))

/-- A value by its name. -/
def Function.renderValue (f : Function) (id : ValueId) : List Char :=
  match f.nameOf? id with
  | some name => '%' :: name.toList
  | none => '%' :: '<' :: (Nat.toDigits 10 id.index ++ ['>'])

/-- A component of a tuple. -/
def Function.renderElement (f : Function) (tuple : ValueId) (index : Nat) : List Char :=
  f.renderValue tuple ++ '[' :: (Nat.toDigits 10 index ++ [']'])

/-- A literal: a scalar of type `f32` as a number. -/
def Literal.render (l : Literal) : List Char :=
  match l.single? with
  | some bits => numberText literalStyle .single bits.toNat
  | none => "literal<".toList ++ l.spec.render ++ ['>']

/-- An operand. -/
def Function.renderOperand (f : Function) : Operand → List Char
  | .value id => f.renderValue id
  | .tupleElement tuple index => f.renderElement tuple index
  | .literal constant => constant.render

mutual

/-- A field of a tuple construction. -/
def Function.renderField (f : Function) : TupleField → List Char
  | .operand x => f.renderOperand x
  | .tuple fields => '(' :: (commaSeparated (f.renderFields fields) ++ [')'])

/-- Fields of a tuple construction, each rendered. -/
def Function.renderFields (f : Function) : List TupleField → List (List Char)
  | [] => []
  | field :: rest => f.renderField field :: f.renderFields rest

end

mutual

/-- A return expression. -/
def Function.renderReturn (f : Function) : ReturnExpr → List Char
  | .value id => f.renderValue id
  | .tuple elements => '(' :: (commaSeparated (f.renderReturns elements) ++ [')'])

/-- Return expressions, each rendered. -/
def Function.renderReturns (f : Function) : List ReturnExpr → List (List Char)
  | [] => []
  | element :: rest => f.renderReturn element :: f.renderReturns rest

end

/-! ## Operations and expressions -/

/-- The word for an operation; every custom call has the same. -/
def Operation.keyword : Operation → String
  | .customCall _ => "custom_call"
  | op => op.name

/-- An attribute. -/
def renderAttribute (name : String) (value : List Char) : List Char :=
  name.toList ++ '[' :: (value ++ [']'])

/-- The attributes of an operation, in the order in which they are written. -/
def Operation.attributes : Operation → List (List Char)
  | .transpose perm => [renderAttribute "perm" (renderNats perm)]
  | .reshape dims => [renderAttribute "shape" (renderNats dims)]
  | .sum axes keepdims =>
    (axes.map fun axes => renderAttribute "axes" (renderNats axes)).toList ++
      (if keepdims then [renderAttribute "keepdims" "true".toList] else [])
  | .softmax axis => [renderAttribute "axis" (Nat.toDigits 10 axis)]
  | .customCall target => [renderAttribute "target" target.toList]
  | _ => []

/-- A call: operands between parentheses, then attributes separated by spaces. -/
def Function.renderCall (f : Function) (op : Operation) (operands : List Operand) : List Char :=
  let arguments := '(' :: (commaSeparated (operands.map f.renderOperand) ++ [')'])
  op.keyword.toList ++ arguments ++ op.attributes.flatMap (' ' :: ·)

/-- The right-hand side of a binding. -/
def Function.renderExpr (f : Function) : Expr → List Char
  | .call op operands => f.renderCall op operands
  | .tuple fields => "tuple".toList ++ f.renderField (.tuple fields)
  | .tupleGet tuple index => f.renderElement tuple index
  | .alias x => f.renderOperand x

/-! ## Lines -/

/-- A line of text at a level of indentation. -/
def renderLine (level : Nat) (text : List Char) : List Char :=
  List.replicate (2 * level) ' ' ++ text ++ ['\n']

/-- A binding without indentation. -/
def Function.renderBinding (f : Function) (b : Binding) : List Char :=
  '%' :: (b.name.toList ++ " = ".toList ++ f.renderExpr b.expr ++ " -> ".toList ++ b.ty.render)

/-- The bindings of a region and its outputs, if it has any. -/
def Function.renderRegion (f : Function) (level : Nat) (r : Region) : List Char :=
  let outputs := "output ".toList ++ commaSeparated (r.outputs.map f.renderValue)
  r.bindings.flatMap (fun b => renderLine level (f.renderBinding b)) ++
    (if r.outputs.isEmpty then [] else renderLine level outputs)

/-- A region between braces. -/
def Function.renderBracedRegion (f : Function) (r : Region) : List Char :=
  renderLine 1 ("region ".toList ++ [leftBrace]) ++ f.renderRegion 2 r ++
    renderLine 1 [rightBrace]

/-- The regions; a single one has no braces. -/
def Function.renderRegions (f : Function) : List Char :=
  match f.regions with
  | [r] => f.renderRegion 1 r
  | regions => regions.flatMap f.renderBracedRegion

/-- The header of a function up to the opening brace. -/
def Function.renderHeader (f : Function) : List Char :=
  let params := f.params.map fun p => '%' :: (p.name.toList ++ ':' :: ' ' :: p.ty.render)
  let result :=
    match f.returnType? with
    | some ty => ty.render
    | none => ['?']
  "func @".toList ++ f.name.toList ++ '(' :: (commaSeparated params ++ ") -> ".toList ++ result ++
    [' ', leftBrace])

/-- **`Function.render`** -- a function in the text form. -/
def Function.render (f : Function) : List Char :=
  renderLine 0 f.renderHeader ++ f.renderRegions ++
    renderLine 1 ("return ".toList ++ f.renderReturn f.ret) ++ renderLine 0 [rightBrace]

/-- **`Module.render`** -- the functions of a module, separated by empty lines. -/
def Module.render (m : Module) : List Char := ['\n'].intercalate (m.functions.map Function.render)

end TensorGraph
