/-
# TensorGraph.Json.Encode -- the JSON form of modules

A structure is an object with its fields in a fixed order. A value of several kinds is an
object whose single field names the kind, or only the name when the kind carries nothing.
-/
import TensorGraph.Graph.Basic
import TensorGraph.Json.Value

namespace TensorGraph

/-- The word for an element type in stored forms. -/
def DType.jsonName : DType → String
  | .i1 => "I1"
  | .si32 => "Si32"
  | .si64 => "Si64"
  | .f16 => "F16"
  | .bf16 => "Bf16"
  | .f32 => "F32"
  | .f64 => "F64"

namespace Json

/-- A tensor spec. -/
def ofSpec (t : TensorSpec) : Json :=
  record [("dtype", ofText t.dtype.jsonName), ("shape", record [("dims", ofNats t.shape.dims)])]

mutual

/-- A type. -/
def ofType : ValueType → Json
  | .tensor spec => tagged "Tensor" (ofSpec spec)
  | .tuple elements => tagged "Tuple" (.array (ofTypes elements))

/-- Several types. -/
def ofTypes : List ValueType → List Json
  | [] => []
  | ty :: rest => ofType ty :: ofTypes rest

end

theorem ofTypes_eq_map (tys : List ValueType) : ofTypes tys = tys.map ofType := by
  induction tys with
  | nil => rfl
  | cons ty rest ih => rw [ofTypes, ih, List.map_cons]

/-- A value, by its number. -/
def ofValueId (id : ValueId) : Json := ofNat id.index

/-- A literal. -/
def ofLiteral (l : Literal) : Json :=
  record [("spec", ofSpec l.spec), ("bytes", ofNats (l.bytes.map UInt8.toNat))]

/-- A component of a tuple. -/
def ofElement (tuple : ValueId) (index : Nat) : Json :=
  record [("tuple", ofValueId tuple), ("index", ofNat index)]

/-- An operand. -/
def ofOperand : Operand → Json
  | .value id => tagged "Value" (ofValueId id)
  | .tupleElement tuple index => tagged "TupleElement" (ofElement tuple index)
  | .literal constant => tagged "Literal" (ofLiteral constant)

/-- The axes of a sum. -/
def ofAxes : Option (List Nat) → Json
  | none => .null
  | some axes => ofNats axes

/-- An operation. -/
def ofOperation : Operation → Json
  | .add => ofText "Add"
  | .subtract => ofText "Subtract"
  | .multiply => ofText "Multiply"
  | .divide => ofText "Divide"
  | .negative => ofText "Negative"
  | .exp => ofText "Exp"
  | .log => ofText "Log"
  | .matmul => ofText "Matmul"
  | .transpose perm => tagged "Transpose" (record [("perm", ofNats perm)])
  | .reshape dims => tagged "Reshape" (record [("shape", ofNats dims)])
  | .sum axes keepdims =>
    tagged "Sum" (record [("axes", ofAxes axes), ("keepdims", .bool keepdims)])
  | .softmax axis => tagged "Softmax" (record [("axis", ofNat axis)])
  | .softmaxCrossEntropy => ofText "SoftmaxCrossEntropy"
  | .ones => ofText "Ones"
  | .zeros => ofText "Zeros"
  | .onesLike => ofText "OnesLike"
  | .zerosLike => ofText "ZerosLike"
  | .collapseSumLike => ofText "CollapseSumLike"
  | .customCall target => tagged "CustomCall" (record [("target", ofText target)])

mutual

/-- A field of a tuple construction. -/
def ofField : TupleField → Json
  | .operand x => tagged "Operand" (ofOperand x)
  | .tuple fields => tagged "Tuple" (.array (ofFields fields))

/-- Several fields. -/
def ofFields : List TupleField → List Json
  | [] => []
  | field :: rest => ofField field :: ofFields rest

end

theorem ofFields_eq_map (fields : List TupleField) : ofFields fields = fields.map ofField := by
  induction fields with
  | nil => rfl
  | cons field rest ih => rw [ofFields, ih, List.map_cons]

/-- An expression. -/
def ofExpr : Expr → Json
  | .call op operands =>
    tagged "Call" (record [("op", ofOperation op), ("operands", .array (operands.map ofOperand))])
  | .tuple fields => tagged "Tuple" (.array (ofFields fields))
  | .tupleGet tuple index => tagged "TupleGet" (ofElement tuple index)
  | .alias x => tagged "Use" (ofOperand x)

mutual

/-- A return expression. -/
def ofReturn : ReturnExpr → Json
  | .value id => tagged "Value" (ofValueId id)
  | .tuple elements => tagged "Tuple" (.array (ofReturns elements))

/-- Several return expressions. -/
def ofReturns : List ReturnExpr → List Json
  | [] => []
  | element :: rest => ofReturn element :: ofReturns rest

end

theorem ofReturns_eq_map (elements : List ReturnExpr) :
    ofReturns elements = elements.map ofReturn := by
  induction elements with
  | nil => rfl
  | cons element rest ih => rw [ofReturns, ih, List.map_cons]

/-- A parameter. -/
def ofParam (p : Param) : Json :=
  record [("id", ofValueId p.id), ("name", ofText p.name), ("ty", ofType p.ty)]

/-- A binding. -/
def ofBinding (b : Binding) : Json :=
  record [("id", ofValueId b.id), ("name", ofText b.name), ("expr", ofExpr b.expr),
    ("ty", ofType b.ty)]

/-- A region. -/
def ofRegion (r : Region) : Json :=
  record [("bindings", .array (r.bindings.map ofBinding)),
    ("outputs", .array (r.outputs.map ofValueId))]

/-- A function. -/
def ofFunction (f : Function) : Json :=
  record [("name", ofText f.name), ("params", .array (f.params.map ofParam)),
    ("regions", .array (f.regions.map ofRegion)), ("ret", ofReturn f.ret)]

/-- **`ofModule`** -- a module. -/
def ofModule (m : Module) : Json :=
  record [("ir_version", ofText m.version), ("functions", .array (m.functions.map ofFunction))]

end Json

end TensorGraph
