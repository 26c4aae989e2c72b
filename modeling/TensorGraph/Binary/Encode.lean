/-
# TensorGraph.Binary.Encode -- the binary form of modules

Fixed-width little-endian words: eight bytes for dimensions, indices and lengths, four for
the numbers of values and for the kind of a value of several kinds, one for truth values,
for presence and for element bytes. Texts and lists are their length and their content.
Kinds are numbered from 0 in order of declaration, and so are element types.
-/
import TensorGraph.Graph.Basic

namespace TensorGraph

namespace Binary

/-! ## Words -/

/-- A dimension, axis, index or length. -/
def ofNat (n : Nat) : List UInt8 := leBytes 8 n

/-- The kind of a value of several kinds. -/
def ofTag (n : Nat) : List UInt8 := leBytes 4 n

/-- A truth value. -/
def ofBool (b : Bool) : List UInt8 := [if b then 1 else 0]

/-- A text, by its UTF-8 bytes. -/
def ofText (s : String) : List UInt8 :=
  let bytes := s.toUTF8.data.toList
  ofNat bytes.length ++ bytes

/-- A list. -/
def ofList {α : Type} (item : α → List UInt8) (xs : List α) : List UInt8 :=
  ofNat xs.length ++ xs.flatMap item

/-- A value, by its number. -/
def ofValueId (id : ValueId) : List UInt8 := leBytes 4 id.index

/-! ## Types and literals -/

/-- An element type, by its place in the declaration. -/
def ofDType (d : DType) : List UInt8 := ofTag (DType.all.idxOf d)

/-- A tensor spec. -/
def ofSpec (t : TensorSpec) : List UInt8 := ofDType t.dtype ++ ofList ofNat t.shape.dims

mutual

/-- A type. -/
def ofType : ValueType → List UInt8
  | .tensor spec => ofTag 0 ++ ofSpec spec
  | .tuple elements => ofTag 1 ++ (ofNat elements.length ++ ofTypes elements)

/-- Several types without their number. -/
def ofTypes : List ValueType → List UInt8
  | [] => []
  | ty :: rest => ofType ty ++ ofTypes rest

end

theorem ofTypes_eq_flatMap (tys : List ValueType) : ofTypes tys = tys.flatMap ofType := by
  induction tys with
  | nil => rfl
  | cons ty rest ih => rw [ofTypes, ih, List.flatMap_cons]

/-- A literal. -/
def ofLiteral (l : Literal) : List UInt8 := ofSpec l.spec ++ ofList (fun b => [b]) l.bytes

/-! ## Expressions -/

/-- A component of a tuple. -/
def ofElement (tuple : ValueId) (index : Nat) : List UInt8 := ofValueId tuple ++ ofNat index

/-- An operand. -/
def ofOperand : Operand → List UInt8
  | .value id => ofTag 0 ++ ofValueId id
  | .tupleElement tuple index => ofTag 1 ++ ofElement tuple index
  | .literal constant => ofTag 2 ++ ofLiteral constant

/-- The axes of a sum, if they are given. -/
def ofAxes : Option (List Nat) → List UInt8
  | none => [0]
  | some axes => 1 :: ofList ofNat axes

/-- An operation. -/
def ofOperation : Operation → List UInt8
  | .add => ofTag 0
  | .subtract => ofTag 1
  | .multiply => ofTag 2
  | .divide => ofTag 3
  | .negative => ofTag 4
  | .exp => ofTag 5
  | .log => ofTag 6
  | .matmul => ofTag 7
  | .transpose perm => ofTag 8 ++ ofList ofNat perm
  | .reshape dims => ofTag 9 ++ ofList ofNat dims
  | .sum axes keepdims => ofTag 10 ++ (ofAxes axes ++ ofBool keepdims)
  | .softmax axis => ofTag 11 ++ ofNat axis
  | .softmaxCrossEntropy => ofTag 12
  | .ones => ofTag 13
  | .zeros => ofTag 14
  | .onesLike => ofTag 15
  | .zerosLike => ofTag 16
  | .collapseSumLike => ofTag 17
  | .customCall target => ofTag 18 ++ ofText target

mutual

/-- A field of a tuple construction. -/
def ofField : TupleField → List UInt8
  | .operand x => ofTag 0 ++ ofOperand x
  | .tuple fields => ofTag 1 ++ (ofNat fields.length ++ ofFields fields)

/-- Several fields without their number. -/
def ofFields : List TupleField → List UInt8
  | [] => []
  | field :: rest => ofField field ++ ofFields rest

end

theorem ofFields_eq_flatMap (fields : List TupleField) :
    ofFields fields = fields.flatMap ofField := by
  induction fields with
  | nil => rfl
  | cons field rest ih => rw [ofFields, ih, List.flatMap_cons]

/-- An expression. -/
def ofExpr : Expr → List UInt8
  | .call op operands => ofTag 0 ++ (ofOperation op ++ ofList ofOperand operands)
  | .tuple fields => ofTag 1 ++ (ofNat fields.length ++ ofFields fields)
  | .tupleGet tuple index => ofTag 2 ++ ofElement tuple index
  | .alias x => ofTag 3 ++ ofOperand x

mutual

/-- A return expression. -/
def ofReturn : ReturnExpr → List UInt8
  | .value id => ofTag 0 ++ ofValueId id
  | .tuple elements => ofTag 1 ++ (ofNat elements.length ++ ofReturns elements)

/-- Several return expressions without their number. -/
def ofReturns : List ReturnExpr → List UInt8
  | [] => []
  | element :: rest => ofReturn element ++ ofReturns rest

end

theorem ofReturns_eq_flatMap (elements : List ReturnExpr) :
    ofReturns elements = elements.flatMap ofReturn := by
  induction elements with
  | nil => rfl
  | cons element rest ih => rw [ofReturns, ih, List.flatMap_cons]

/-! ## Functions and modules -/

/-- A parameter. -/
def ofParam (p : Param) : List UInt8 := ofValueId p.id ++ (ofText p.name ++ ofType p.ty)

/-- A binding. -/
def ofBinding (b : Binding) : List UInt8 :=
  ofValueId b.id ++ (ofText b.name ++ (ofExpr b.expr ++ ofType b.ty))

/-- A region. -/
def ofRegion (r : Region) : List UInt8 :=
  ofList ofBinding r.bindings ++ ofList ofValueId r.outputs

/-- A function. -/
def ofFunction (f : Function) : List UInt8 :=
  ofText f.name ++ (ofList ofParam f.params ++ (ofList ofRegion f.regions ++ ofReturn f.ret))

end Binary

/-- **`Module.toBytes`** -- a module in the binary form. -/
def Module.toBytes (m : Module) : List UInt8 :=
  Binary.ofText m.version ++ Binary.ofList Binary.ofFunction m.functions

end TensorGraph
