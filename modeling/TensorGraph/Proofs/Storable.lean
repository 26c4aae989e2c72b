/-
# TensorGraph.Proofs.Storable -- what a machine of 64 bits holds

Stored forms keep the numbers of values in 32 bits, and dimensions, axes, indices and the lengths
of texts and lists in 64. A module is storable when all of its numbers and lengths are in these
ranges, which a module in the memory of such a machine always is.
-/
import TensorGraph.Graph.Lookup
import TensorGraph.Json.Decode

namespace TensorGraph

open scoped CoreInstances

/-! ## Numbers, texts and lists -/

/-- The number of a value is a word of 32 bits. -/
def ValueId.Storable (id : ValueId) : Prop := id.index < Json.idBound

instance : DecidablePred ValueId.Storable := fun _ => inferInstanceAs (Decidable (_ < _))

/-- The length of a text is a word of 64 bits. -/
def TextFits (s : String) : Prop := s.utf8ByteSize < indexBound

instance : DecidablePred TextFits := fun _ => inferInstanceAs (Decidable (_ < _))

/-- The length of a list is a word of 64 bits, and its elements fit. -/
def ListFits {α : Type} (fits : α → Prop) (xs : List α) : Prop :=
  xs.length < indexBound ∧ ∀ x ∈ xs, fits x

instance {α : Type} (fits : α → Prop) [DecidablePred fits] : DecidablePred (ListFits fits) :=
  fun _ => inferInstanceAs (Decidable (_ ∧ _))

/-! ## Types and literals -/

/-- A tensor type whose extents fit. -/
def TensorSpec.Storable (t : TensorSpec) : Prop := ListFits (· < indexBound) t.shape.dims

instance : DecidablePred TensorSpec.Storable := fun _ => inferInstanceAs (Decidable (ListFits _ _))

namespace ValueType

mutual

/-- **`Storable`** -- a type whose extents and numbers of components fit. -/
def Storable : ValueType → Prop
  | .tensor spec => spec.Storable
  | .tuple elements => elements.length < indexBound ∧ AllStorable elements

/-- Several types that are storable. -/
def AllStorable : List ValueType → Prop
  | [] => True
  | ty :: rest => ty.Storable ∧ AllStorable rest

end

mutual

/-- Decides whether a type is storable. -/
def decStorable : (ty : ValueType) → Decidable ty.Storable
  | .tensor spec => inferInstanceAs (Decidable spec.Storable)
  | .tuple elements =>
    @instDecidableAnd _ _ (inferInstanceAs (Decidable (_ < _))) (decAllStorable elements)

/-- Decides whether several types are storable. -/
def decAllStorable : (tys : List ValueType) → Decidable (AllStorable tys)
  | [] => isTrue trivial
  | ty :: rest => @instDecidableAnd _ _ (decStorable ty) (decAllStorable rest)

end

instance : DecidablePred Storable := decStorable

theorem allStorable_iff {tys : List ValueType} : AllStorable tys ↔ ∀ ty ∈ tys, ty.Storable := by
  induction tys with
  | nil => simp [AllStorable]
  | cons ty rest ih => simp [AllStorable, ih]

/-- A tuple is storable when its list of components fits. -/
theorem storable_tuple {elements : List ValueType} :
    (tuple elements).Storable ↔ ListFits Storable elements := by
  rw [Storable, allStorable_iff, ListFits]

end ValueType

/-- A literal whose spec and payload fit. -/
def Literal.Storable (l : Literal) : Prop := l.spec.Storable ∧ l.bytes.length < indexBound

instance : DecidablePred Literal.Storable := fun _ => inferInstanceAs (Decidable (_ ∧ _))

/-! ## Expressions -/

/-- An operand whose numbers fit. -/
def Operand.Storable : Operand → Prop
  | .value id => id.Storable
  | .tupleElement id index => id.Storable ∧ index < indexBound
  | .literal constant => constant.Storable

instance : DecidablePred Operand.Storable
  | .value id => inferInstanceAs (Decidable id.Storable)
  | .tupleElement _ _ => inferInstanceAs (Decidable (_ ∧ _))
  | .literal constant => inferInstanceAs (Decidable constant.Storable)

/-- An operation whose parameters fit. -/
def Operation.Storable : Operation → Prop
  | .transpose perm => ListFits (· < indexBound) perm
  | .reshape dims => ListFits (· < indexBound) dims
  | .sum axes _ => ∀ ns ∈ axes, ListFits (· < indexBound) ns
  | .softmax axis => axis < indexBound
  | .customCall target => TextFits target
  | _ => True

instance : DecidablePred Operation.Storable
  | .transpose perm => inferInstanceAs (Decidable (ListFits (· < indexBound) perm))
  | .reshape dims => inferInstanceAs (Decidable (ListFits (· < indexBound) dims))
  | .sum axes _ => inferInstanceAs (Decidable (∀ ns ∈ axes, ListFits (· < indexBound) ns))
  | .softmax axis => inferInstanceAs (Decidable (axis < indexBound))
  | .customCall target => inferInstanceAs (Decidable (TextFits target))
  | .add | .subtract | .multiply | .divide | .negative | .exp | .log | .matmul
  | .softmaxCrossEntropy | .ones | .zeros | .onesLike | .zerosLike | .collapseSumLike =>
    isTrue trivial

namespace TupleField

mutual

/-- **`Storable`** -- a field whose operands and numbers of components fit. -/
def Storable : TupleField → Prop
  | .operand x => x.Storable
  | .tuple fields => fields.length < indexBound ∧ AllStorable fields

/-- Several fields that are storable. -/
def AllStorable : List TupleField → Prop
  | [] => True
  | field :: rest => field.Storable ∧ AllStorable rest

end

mutual

/-- Decides whether a field is storable. -/
def decStorable : (field : TupleField) → Decidable field.Storable
  | .operand x => inferInstanceAs (Decidable x.Storable)
  | .tuple fields =>
    @instDecidableAnd _ _ (inferInstanceAs (Decidable (_ < _))) (decAllStorable fields)

/-- Decides whether several fields are storable. -/
def decAllStorable : (fields : List TupleField) → Decidable (AllStorable fields)
  | [] => isTrue trivial
  | field :: rest => @instDecidableAnd _ _ (decStorable field) (decAllStorable rest)

end

instance : DecidablePred Storable := decStorable

theorem allStorable_iff {fields : List TupleField} :
    AllStorable fields ↔ ∀ field ∈ fields, field.Storable := by
  induction fields with
  | nil => simp [AllStorable]
  | cons field rest ih => simp [AllStorable, ih]

/-- A tuple of fields is storable when its list of fields fits. -/
theorem storable_tuple {fields : List TupleField} :
    (tuple fields).Storable ↔ ListFits Storable fields := by
  rw [Storable, allStorable_iff, ListFits]

end TupleField

/-- An expression whose numbers and lengths fit. -/
def Expr.Storable : Expr → Prop
  | .call op operands => op.Storable ∧ ListFits Operand.Storable operands
  | .tuple fields => ListFits TupleField.Storable fields
  | .tupleGet id index => id.Storable ∧ index < indexBound
  | .alias x => x.Storable

instance : DecidablePred Expr.Storable
  | .call _ _ => inferInstanceAs (Decidable (_ ∧ _))
  | .tuple fields => inferInstanceAs (Decidable (ListFits TupleField.Storable fields))
  | .tupleGet _ _ => inferInstanceAs (Decidable (_ ∧ _))
  | .alias x => inferInstanceAs (Decidable x.Storable)

namespace ReturnExpr

mutual

/-- **`Storable`** -- a return expression whose values and numbers of components fit. -/
def Storable : ReturnExpr → Prop
  | .value id => id.Storable
  | .tuple elements => elements.length < indexBound ∧ AllStorable elements

/-- Several return expressions that are storable. -/
def AllStorable : List ReturnExpr → Prop
  | [] => True
  | element :: rest => element.Storable ∧ AllStorable rest

end

mutual

/-- Decides whether a return expression is storable. -/
def decStorable : (element : ReturnExpr) → Decidable element.Storable
  | .value id => inferInstanceAs (Decidable id.Storable)
  | .tuple elements =>
    @instDecidableAnd _ _ (inferInstanceAs (Decidable (_ < _))) (decAllStorable elements)

/-- Decides whether several return expressions are storable. -/
def decAllStorable : (elements : List ReturnExpr) → Decidable (AllStorable elements)
  | [] => isTrue trivial
  | element :: rest => @instDecidableAnd _ _ (decStorable element) (decAllStorable rest)

end

instance : DecidablePred Storable := decStorable

theorem allStorable_iff {elements : List ReturnExpr} :
    AllStorable elements ↔ ∀ element ∈ elements, element.Storable := by
  induction elements with
  | nil => simp [AllStorable]
  | cons element rest ih => simp [AllStorable, ih]

/-- A tuple is storable when its list of components fits. -/
theorem storable_tuple {elements : List ReturnExpr} :
    (tuple elements).Storable ↔ ListFits Storable elements := by
  rw [Storable, allStorable_iff, ListFits]

end ReturnExpr

/-! ## Functions and modules -/

/-- A parameter that fits. -/
def Param.Storable (p : Param) : Prop := p.id.Storable ∧ TextFits p.name ∧ p.ty.Storable

instance : DecidablePred Param.Storable := fun _ => inferInstanceAs (Decidable (_ ∧ _ ∧ _))

/-- A binding that fits. -/
def Binding.Storable (b : Binding) : Prop :=
  b.id.Storable ∧ TextFits b.name ∧ b.expr.Storable ∧ b.ty.Storable

instance : DecidablePred Binding.Storable := fun _ => inferInstanceAs (Decidable (_ ∧ _ ∧ _ ∧ _))

/-- A region that fits. -/
def Region.Storable (r : Region) : Prop :=
  ListFits Binding.Storable r.bindings ∧ ListFits ValueId.Storable r.outputs

instance : DecidablePred Region.Storable := fun _ => inferInstanceAs (Decidable (_ ∧ _))

/-- A function that fits. -/
def Function.Storable (f : Function) : Prop :=
  TextFits f.name ∧ ListFits Param.Storable f.params ∧ ListFits Region.Storable f.regions ∧
    f.ret.Storable

instance : DecidablePred Function.Storable := fun _ => inferInstanceAs (Decidable (_ ∧ _ ∧ _ ∧ _))

theorem Function.Storable.param {f : Function} (h : f.Storable) {p : Param} (hp : p ∈ f.params) :
    p.Storable := h.2.1.2 p hp

theorem Function.Storable.binding {f : Function} (h : f.Storable) {b : Binding}
    (hb : b ∈ f.bindings) : b.Storable := by
  obtain ⟨region, hregion, hb⟩ := List.mem_flatMap.mp hb
  exact (h.2.2.1.2 region hregion).1.2 b hb

/-- **`Module.Storable`** -- a module whose numbers and lengths fit. -/
def Module.Storable (m : Module) : Prop :=
  TextFits m.version ∧ ListFits Function.Storable m.functions

instance : DecidablePred Module.Storable := fun _ => inferInstanceAs (Decidable (_ ∧ _))

/-! ## Version words -/

/-- The version word that a stored module may carry decides whether it is accepted. -/
theorem Module.acceptVersion_eq (m : Module) :
    m.acceptVersion = if m.version = "" ∨ m.version = currentVersion
      then .ok { m with version := currentVersion } else .error (.versionMismatch m.version) := by
  rw [acceptVersion]
  by_cases hempty : m.version = ""
  · rw [if_pos hempty, if_pos (.inl hempty)]
  · rw [if_neg hempty]
    by_cases hcurrent : m.version = currentVersion
    · rw [if_pos hcurrent, if_pos (.inr hcurrent), ← hcurrent]
    · rw [if_neg hcurrent, if_neg (not_or.mpr ⟨hempty, hcurrent⟩)]

end TensorGraph
