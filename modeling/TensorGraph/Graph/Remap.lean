/-
# TensorGraph.Graph.Remap -- substitution of values

A remap sends some values to others and leaves the rest alone. It is applied to what an
expression reads, when expressions are copied from one function into another; operators,
literals and tuple indices stay as they are.
-/
import TensorGraph.Graph.Lookup

namespace TensorGraph

/-- **`Remap`** -- a finite substitution, latest entry first. -/
structure Remap where
  /-- The entries; the first entry for a value counts. -/
  entries : List (ValueId × ValueId)

namespace Remap

/-- The substitution that changes nothing. -/
def empty : Remap := ⟨[]⟩

/-- Sends `source` to `target` from now on. -/
def insert (r : Remap) (source target : ValueId) : Remap := ⟨(source, target) :: r.entries⟩

/-- Where a value is sent, if it has an entry. -/
def get? (r : Remap) (source : ValueId) : Option ValueId := r.entries.lookup source

/-- Where a value is sent; without an entry it stays. -/
def value (r : Remap) (id : ValueId) : ValueId := (r.get? id).getD id

@[simp] theorem get?_empty (id : ValueId) : empty.get? id = none := rfl

@[simp] theorem value_empty (id : ValueId) : empty.value id = id := rfl

/-- The latest entry counts. -/
theorem get?_insert (r : Remap) (source target id : ValueId) :
    (r.insert source target).get? id = if id = source then some target else r.get? id := by
  unfold get? insert
  rw [List.lookup_cons]
  by_cases h : id = source
  · rw [if_pos h, beq_iff_eq.mpr h]
  · rw [if_neg h, beq_false_of_ne h]

@[simp] theorem value_insert_self (r : Remap) (source target : ValueId) :
    (r.insert source target).value source = target := by
  rw [value, get?_insert, if_pos rfl, Option.getD_some]

/-- Substitutes in an operand. -/
def operand (r : Remap) : Operand → Operand
  | .value id => .value (r.value id)
  | .tupleElement tuple index => .tupleElement (r.value tuple) index
  | .literal constant => .literal constant

mutual

/-- Substitutes in a tuple field. -/
def field (r : Remap) : TupleField → TupleField
  | .operand x => .operand (r.operand x)
  | .tuple fields => .tuple (r.fields fields)

/-- Substitutes in tuple fields. -/
def fields (r : Remap) : List TupleField → List TupleField
  | [] => []
  | x :: rest => r.field x :: r.fields rest

end

/-- **`expr`** -- substitutes in an expression. -/
def expr (r : Remap) : Expr → Expr
  | .call op operands => .call op (operands.map r.operand)
  | .tuple fields => .tuple (r.fields fields)
  | .tupleGet tuple index => .tupleGet (r.value tuple) index
  | .alias x => .alias (r.operand x)

end Remap

end TensorGraph
