/-
# TensorGraph.Proofs.Context -- typing in a context

A context lists values with their types in order of definition. `Expr.HasType` says which
type an expression has when the values it reads have the types that the context gives them;
`Context.Accepts` says that bindings can be appended to a context one after the other, each
with a new identity and the type that it declares. Both grow with the context, and the type
of an expression depends on the values that it reads and on no other.
-/
import Mathlib.Data.List.Nodup
import TensorGraph.Proofs.Outcome
import TensorGraph.Typing.Verify

namespace TensorGraph

/-! ## Types of expressions -/

/-- **`TypeMap`** -- which type each value has. -/
abbrev TypeMap := ValueId → Option ValueType

/-- The type that an operand reads. -/
def Operand.type? (types : TypeMap) : Operand → Option ValueType
  | .value id => types id
  | .tupleElement tuple index => (types tuple).bind fun ty => ty.element? index
  | .literal constant => some (.tensor constant.spec)

mutual

/-- The type of a field of a tuple construction. -/
def TupleField.type? (types : TypeMap) : TupleField → Option ValueType
  | .operand x => x.type? types
  | .tuple fields => (TupleField.types? types fields).map .tuple

/-- The types of fields. -/
def TupleField.types? (types : TypeMap) : List TupleField → Option (List ValueType)
  | [] => some []
  | field :: rest =>
    match field.type? types, TupleField.types? types rest with
    | some ty, some tys => some (ty :: tys)
    | _, _ => none

end

/-- Operands with their types, one by one. -/
abbrev Operand.HaveTypes (types : TypeMap) : List Operand → List ValueType → Prop :=
  List.Forall₂ fun x ty => x.type? types = some ty

/-- **`Expr.HasType`** -- the type of an expression. The type is also what a call may
declare where its operands do not decide it. -/
def Expr.HasType (types : TypeMap) : Expr → ValueType → Prop
  | .call op operands, ty =>
    ∃ tys, Operand.HaveTypes types operands tys ∧ op.resultType tys (some ty) = .ok ty
  | .tuple fields, ty => ∃ tys, TupleField.types? types fields = some tys ∧ ty = .tuple tys
  | .tupleGet source index, ty => (Operand.tupleElement source index).type? types = some ty
  | .alias x, ty => x.type? types = some ty

theorem TupleField.types?_cons_eq_some_iff {types : TypeMap} {field : TupleField}
    {rest : List TupleField} {tys : List ValueType} :
    TupleField.types? types (field :: rest) = some tys ↔
      ∃ ty tys', field.type? types = some ty ∧ TupleField.types? types rest = some tys' ∧
        tys = ty :: tys' := by
  rw [TupleField.types?]
  cases field.type? types with
  | none => simp
  | some ty =>
    cases TupleField.types? types rest with
    | none => simp
    | some tys' =>
      constructor
      · intro h
        exact ⟨ty, tys', rfl, rfl, (Option.some.inj h).symm⟩
      · rintro ⟨_, _, h, h', rfl⟩
        cases h
        cases h'
        rfl

theorem TupleField.type?_tuple_eq_some_iff {types : TypeMap} {fields : List TupleField}
    {ty : ValueType} :
    (TupleField.tuple fields).type? types = some ty ↔
      ∃ tys, TupleField.types? types fields = some tys ∧ ty = .tuple tys := by
  rw [TupleField.type?, Option.map_eq_some_iff]
  exact exists_congr fun tys => and_congr_right fun _ => eq_comm

/-- Fields with their types, one by one. -/
theorem TupleField.types?_eq_some_iff {types : TypeMap} {fields : List TupleField}
    {tys : List ValueType} :
    TupleField.types? types fields = some tys ↔
      List.Forall₂ (fun field ty => field.type? types = some ty) fields tys := by
  induction fields generalizing tys with
  | nil =>
    rw [TupleField.types?, List.forall₂_nil_left_iff]
    exact ⟨fun h => (Option.some.inj h).symm, fun h => congrArg _ h.symm⟩
  | cons field rest ih =>
    rw [TupleField.types?_cons_eq_some_iff, List.forall₂_cons_left_iff]
    constructor
    · rintro ⟨ty, tys', h, h', rfl⟩
      exact ⟨ty, tys', h, ih.mp h', rfl⟩
    · rintro ⟨ty, tys', h, h', rfl⟩
      exact ⟨ty, tys', h, ih.mpr h', rfl⟩

/-- An element of a tuple that is read has the type at its position. -/
theorem Operand.type?_tupleElement {types : TypeMap} {tuple : ValueId} {index : Nat}
    {ty : ValueType} (h : (Operand.tupleElement tuple index).type? types = some ty) :
    ∃ elements, types tuple = some (.tuple elements) ∧ elements[index]? = some ty := by
  obtain ⟨whole, hw, he⟩ := Option.bind_eq_some_iff.mp h
  cases whole with
  | tensor spec => cases he
  | tuple elements => exact ⟨elements, hw, he⟩

/-! ## Dependence on what is read -/

section Agreement

variable {types types' : TypeMap}

theorem Operand.type?_of_agree {x : Operand} {ty : ValueType} (h : x.type? types = some ty)
    (agree : ∀ id, x.value? = some id → types id = types' id) : x.type? types' = some ty := by
  cases x with
  | value id => exact (agree id rfl).symm.trans h
  | tupleElement tuple index =>
    rw [Operand.type?, ← agree tuple rfl]
    exact h
  | literal constant => exact h

theorem Operand.haveTypes_of_agree {xs : List Operand} {tys : List ValueType}
    (h : Operand.HaveTypes types xs tys)
    (agree : ∀ id ∈ xs.filterMap Operand.value?, types id = types' id) :
    Operand.HaveTypes types' xs tys := by
  induction h with
  | nil => exact .nil
  | @cons x ty xs tys hx _ ih =>
    refine .cons (Operand.type?_of_agree hx fun id hid => ?_) (ih fun id hid => ?_)
    · exact agree id (List.mem_filterMap.mpr ⟨x, List.mem_cons_self, hid⟩)
    · obtain ⟨y, hy, hv⟩ := List.mem_filterMap.mp hid
      exact agree id (List.mem_filterMap.mpr ⟨y, List.mem_cons_of_mem x hy, hv⟩)

mutual

theorem TupleField.type?_of_agree (field : TupleField) {ty : ValueType}
    (h : field.type? types = some ty)
    (agree : ∀ id ∈ field.values, types id = types' id) : field.type? types' = some ty := by
  cases field with
  | operand x =>
    have hx : x.type? types = some ty := h
    refine Operand.type?_of_agree hx fun id hid => agree id ?_
    rw [TupleField.values, hid]
    exact List.mem_singleton.mpr rfl
  | tuple fields =>
    obtain ⟨tys, hf, rfl⟩ := TupleField.type?_tuple_eq_some_iff.mp h
    exact TupleField.type?_tuple_eq_some_iff.mpr
      ⟨tys, TupleField.types?_of_agree fields hf agree, rfl⟩

theorem TupleField.types?_of_agree (fields : List TupleField) {tys : List ValueType}
    (h : TupleField.types? types fields = some tys)
    (agree : ∀ id ∈ TupleField.valuesList fields, types id = types' id) :
    TupleField.types? types' fields = some tys := by
  cases fields with
  | nil => exact h
  | cons field rest =>
    rw [TupleField.valuesList] at agree
    obtain ⟨ty, tys', hf, hr, rfl⟩ := TupleField.types?_cons_eq_some_iff.mp h
    have hf' := TupleField.type?_of_agree field hf fun id hid =>
      agree id (List.mem_append_left _ hid)
    have hr' := TupleField.types?_of_agree rest hr fun id hid =>
      agree id (List.mem_append_right _ hid)
    exact TupleField.types?_cons_eq_some_iff.mpr ⟨ty, tys', hf', hr', rfl⟩

end

/-- **The type of an expression** depends on the types of the values that it reads. -/
theorem Expr.HasType.of_agree {e : Expr} {ty : ValueType} (h : e.HasType types ty)
    (agree : ∀ id ∈ e.values, types id = types' id) : e.HasType types' ty := by
  cases e with
  | call op operands =>
    obtain ⟨tys, hx, hop⟩ := h
    exact ⟨tys, Operand.haveTypes_of_agree hx agree, hop⟩
  | tuple fields =>
    obtain ⟨tys, hf, rfl⟩ := h
    exact ⟨tys, TupleField.types?_of_agree fields hf agree, rfl⟩
  | tupleGet source index =>
    have hx : (Operand.tupleElement source index).type? types = some ty := h
    refine Operand.type?_of_agree hx fun id hid => agree id ?_
    exact List.mem_singleton.mpr (Option.some.inj hid).symm
  | «alias» x =>
    have hx : x.type? types = some ty := h
    refine Operand.type?_of_agree hx fun id hid => agree id ?_
    rw [Expr.values, hid]
    exact List.mem_singleton.mpr rfl

end Agreement

/-! ## What is read has a type -/

section Reads

variable {types : TypeMap}

theorem Operand.isSome_of_type? {x : Operand} {ty : ValueType} (h : x.type? types = some ty)
    {id : ValueId} (hid : x.value? = some id) : (types id).isSome := by
  cases x with
  | value id' =>
    cases hid
    exact Option.isSome_of_mem h
  | tupleElement tuple index =>
    cases hid
    obtain ⟨elements, he, _⟩ := Operand.type?_tupleElement h
    exact Option.isSome_of_mem he
  | literal constant => cases hid

mutual

theorem TupleField.isSome_of_type? (field : TupleField) {ty : ValueType}
    (h : field.type? types = some ty) : ∀ id ∈ field.values, (types id).isSome := by
  intro id hid
  cases field with
  | operand x =>
    rw [TupleField.values, Option.mem_toList] at hid
    exact Operand.isSome_of_type? h hid
  | tuple fields =>
    obtain ⟨tys, hf, _⟩ := TupleField.type?_tuple_eq_some_iff.mp h
    exact TupleField.isSome_of_types? fields hf id hid

theorem TupleField.isSome_of_types? (fields : List TupleField) {tys : List ValueType}
    (h : TupleField.types? types fields = some tys) :
    ∀ id ∈ TupleField.valuesList fields, (types id).isSome := by
  intro id hid
  cases fields with
  | nil => exact absurd hid List.not_mem_nil
  | cons field rest =>
    obtain ⟨ty, tys', hf, hr, _⟩ := TupleField.types?_cons_eq_some_iff.mp h
    rw [TupleField.valuesList] at hid
    rcases List.mem_append.mp hid with hid | hid
    · exact TupleField.isSome_of_type? field hf id hid
    · exact TupleField.isSome_of_types? rest hr id hid

end

/-- An expression with a type reads values that have types. -/
theorem Expr.HasType.isSome {e : Expr} {ty : ValueType} (h : e.HasType types ty) :
    ∀ id ∈ e.values, (types id).isSome := by
  intro id hid
  cases e with
  | call op operands =>
    obtain ⟨tys, hx, _⟩ := h
    obtain ⟨x, hx', hid⟩ := List.mem_filterMap.mp hid
    obtain ⟨ty, _, hty⟩ := forall₂_exists_of_mem hx hx'
    exact Operand.isSome_of_type? hty hid
  | tuple fields =>
    obtain ⟨tys, hf, _⟩ := h
    exact TupleField.isSome_of_types? fields hf id hid
  | tupleGet source index =>
    have hx : (Operand.tupleElement source index).type? types = some ty := h
    cases List.mem_singleton.mp hid
    exact Operand.isSome_of_type? hx rfl
  | «alias» x =>
    have hx : x.type? types = some ty := h
    rw [Expr.values, Option.mem_toList] at hid
    exact Operand.isSome_of_type? hx hid

end Reads

/-! ## Contexts -/

/-- In a list with distinct keys, a key is found with the value it is listed with. -/
theorem lookup_eq_some_iff {β : Type} {entries : List (ValueId × β)}
    (h : (entries.map Prod.fst).Nodup) {id : ValueId} {x : β} :
    entries.lookup id = some x ↔ (id, x) ∈ entries := by
  induction entries with
  | nil => simp
  | cons entry rest ih =>
    obtain ⟨key, y⟩ := entry
    obtain ⟨hkey, hrest⟩ := List.nodup_cons.mp h
    rw [List.lookup_cons, List.mem_cons, Prod.mk.injEq]
    by_cases hk : id = key
    · rw [beq_iff_eq.mpr hk]
      constructor
      · intro he
        exact .inl ⟨hk, (Option.some.inj he).symm⟩
      · rintro (⟨_, rfl⟩ | hm)
        · rfl
        · exact absurd (List.mem_map_of_mem (f := Prod.fst) hm) (hk ▸ hkey)
    · rw [beq_false_of_ne hk]
      exact (ih hrest).trans ⟨.inr, fun hm => hm.resolve_left fun e => hk e.1⟩

/-- **`Context`** -- values with their types, in order of definition. -/
abbrev Context := List (ValueId × ValueType)

namespace Context

/-- The values. -/
def ids (s : Context) : List ValueId := s.map Prod.fst

/-- The type of a value. -/
def typeOf? (s : Context) : TypeMap := fun id => s.lookup id

end Context

/-- What a parameter adds to a context. -/
def Param.entry (p : Param) : ValueId × ValueType := (p.id, p.ty)

/-- What a binding adds to a context. -/
def Binding.entry (b : Binding) : ValueId × ValueType := (b.id, b.ty)

/-- The parameters of a function with their types. -/
def Function.paramContext (f : Function) : Context := f.params.map Param.entry

/-- **`Function.context`** -- all values of a function with their types. -/
def Function.context (f : Function) : Context := f.paramContext ++ f.bindings.map Binding.entry

namespace Context

theorem ids_append (s t : Context) : (s ++ t).ids = s.ids ++ t.ids := List.map_append

theorem ids_map_entry (bs : List Binding) : ids (bs.map Binding.entry) = bs.map Binding.id :=
  List.map_map

theorem isSome_typeOf? {s : Context} {id : ValueId} : (s.typeOf? id).isSome ↔ id ∈ s.ids := by
  unfold typeOf?
  induction s with
  | nil => simp [ids]
  | cons entry rest ih =>
    obtain ⟨key, ty⟩ := entry
    rw [List.lookup_cons, show ids ((key, ty) :: rest) = key :: ids rest from rfl,
      List.mem_cons]
    by_cases h : id = key
    · rw [beq_iff_eq.mpr h]
      exact ⟨fun _ => .inl h, fun _ => rfl⟩
    · rw [beq_false_of_ne h]
      exact ih.trans ⟨.inr, fun hm => hm.resolve_left h⟩

theorem typeOf?_eq_none {s : Context} {id : ValueId} (h : id ∉ s.ids) : s.typeOf? id = none := by
  rw [← Option.not_isSome_iff_eq_none, isSome_typeOf?]
  exact h

theorem typeOf?_append (s t : Context) (id : ValueId) :
    (s ++ t).typeOf? id = (s.typeOf? id).or (t.typeOf? id) := List.lookup_append

/-- A longer context gives a value the same type. -/
theorem typeOf?_append_of_mem {s : Context} (t : Context) {id : ValueId} (h : id ∈ s.ids) :
    (s ++ t).typeOf? id = s.typeOf? id := by
  rw [typeOf?_append]
  obtain ⟨ty, hty⟩ := Option.isSome_iff_exists.mp (isSome_typeOf?.mpr h)
  rw [hty, Option.some_or]

theorem typeOf?_append_of_eq_some {s : Context} (t : Context) {id : ValueId} {ty : ValueType}
    (h : s.typeOf? id = some ty) : (s ++ t).typeOf? id = some ty := by
  rw [typeOf?_append, h, Option.some_or]

/-- A value of a context with one value more is that one or was there before. -/
theorem typeOf?_append_singleton {s : Context} {id : ValueId} (h : id ∉ s.ids) (ty : ValueType)
    (other : ValueId) :
    (s ++ [(id, ty)]).typeOf? other = if other = id then some ty else s.typeOf? other := by
  rw [typeOf?_append]
  by_cases ho : other = id
  · subst ho
    rw [if_pos rfl, typeOf?_eq_none h, Option.none_or, typeOf?, List.lookup_cons, beq_self_eq_true]
  · have hnone : typeOf? [(id, ty)] other = none :=
      typeOf?_eq_none fun hm => ho (List.mem_singleton.mp hm)
    rw [if_neg ho, hnone, Option.or_none]

/-- With distinct values, a context gives each the type it is listed with. -/
theorem typeOf?_eq_some_iff {s : Context} (hs : s.ids.Nodup) {id : ValueId} {ty : ValueType} :
    s.typeOf? id = some ty ↔ (id, ty) ∈ s := lookup_eq_some_iff hs

/-- What has a type keeps it in a longer context. -/
theorem hasType_append {s : Context} (t : Context) {e : Expr} {ty : ValueType}
    (h : e.HasType s.typeOf? ty) : e.HasType (s ++ t).typeOf? ty :=
  h.of_agree fun id hid => (typeOf?_append_of_mem t (isSome_typeOf?.mp (h.isSome id hid))).symm

/-- What has a type in a longer context and reads nothing of the rest has it before. -/
theorem hasType_of_append {s t : Context} {e : Expr} {ty : ValueType}
    (h : e.HasType (s ++ t).typeOf? ty) (reads : ∀ id ∈ e.values, id ∈ s.ids) :
    e.HasType s.typeOf? ty :=
  h.of_agree fun id hid => typeOf?_append_of_mem t (reads id hid)

/-! ## Bindings in a context -/

/-- **`Accepts`** -- bindings can be appended to a context, each with a new identity and the
type that it declares. -/
def Accepts (s : Context) : List Binding → Prop
  | [] => True
  | b :: rest => b.id ∉ s.ids ∧ b.expr.HasType s.typeOf? b.ty ∧ Accepts (s ++ [b.entry]) rest

theorem accepts_append {s : Context} {bs cs : List Binding} :
    s.Accepts (bs ++ cs) ↔ s.Accepts bs ∧ Accepts (s ++ bs.map Binding.entry) cs := by
  induction bs generalizing s with
  | nil =>
    rw [List.nil_append, List.map_nil, List.append_nil]
    exact ⟨fun h => ⟨trivial, h⟩, fun h => h.2⟩
  | cons b bs ih =>
    rw [List.cons_append, Accepts, Accepts, ih, List.map_cons, List.append_assoc,
      List.singleton_append]
    simp only [and_assoc]

/-- Appending accepted bindings keeps values distinct. -/
theorem Accepts.nodup {s : Context} {bs : List Binding} (h : s.Accepts bs) (hs : s.ids.Nodup) :
    (ids (s ++ bs.map Binding.entry)).Nodup := by
  induction bs generalizing s with
  | nil => rwa [List.map_nil, List.append_nil]
  | cons b bs ih =>
    obtain ⟨hid, _, hrest⟩ := h
    have hs' : (ids (s ++ [b.entry])).Nodup := by
      rw [ids_append]
      exact hs.append (List.nodup_singleton _) (List.disjoint_singleton.mpr hid)
    have := ih hrest hs'
    rwa [List.append_assoc, List.singleton_append] at this

end Context

end TensorGraph
