/-
# TensorGraph.Proofs.Adjoints -- adjoints in the making are typed

An adjoint is typed in a context when its leaves read tensors of the spec they carry and
its operators are applied as a call of that spec may be. Adjoints of one type have a sum of
that type, which is typed where both are (`Adjoint.exists_addsTo`). Next to the type stands what
an adjoint reaches: the places of its tensors that are not known zeros. A sum reaches what one
of its summands reaches, and nothing else, so that zeros stay known for what they are.
-/
import TensorGraph.Adjoint.Expr
import TensorGraph.Proofs.CallTyping
import TensorGraph.Proofs.Context

namespace TensorGraph

/-! ## Calls whose type follows from their operands -/

/-- A type that follows from the operands stands whatever is declared. -/
theorem Operation.resultSpec_of_none {op : Operation} {specs : List TensorSpec}
    {spec : TensorSpec} (h : op.resultSpec specs none = .ok spec) (declared : Option ValueType) :
    op.resultSpec specs declared = .ok spec := by
  have hdeclared : op.declaredSpec specs none ≠ .ok spec := by
    intro hd
    cases specs with
    | nil => cases hd
    | cons x specs => cases hd
  cases op with
  | ones => exact absurd h hdeclared
  | zeros => exact absurd h hdeclared
  | customCall target => exact absurd h hdeclared
  | _ => exact h

theorem Operation.isCustom_of_resultSpec {op : Operation} {specs : List TensorSpec}
    {spec : TensorSpec} (h : op.resultSpec specs none = .ok spec) : op.isCustom = false := by
  cases op with
  | customCall target =>
    cases specs with
    | nil => cases h
    | cons x specs => cases h
  | _ => rfl

/-- The sum of two tensors of one spec has that spec. -/
theorem Operation.resultSpec_add_self (spec : TensorSpec) :
    Operation.add.resultSpec [spec, spec] none = .ok spec :=
  Operation.broadcastSpec_eq_ok_iff.mpr
    ⟨spec, spec, rfl, rfl, rfl, Shape.broadcast?_self spec.shape⟩

theorem Operand.type?_mono {types types' : TypeMap}
    (hsub : ∀ id ty, types id = some ty → types' id = some ty) {x : Operand} {ty : ValueType}
    (h : x.type? types = some ty) : x.type? types' = some ty := by
  refine Operand.type?_of_agree h fun id hid => ?_
  obtain ⟨found, hf⟩ := Option.isSome_iff_exists.mp (Operand.isSome_of_type? h hid)
  rw [hf, hsub id found hf]

namespace Adjoint

/-! ## Typing -/

mutual

/-- **`Typed`** -- leaves read tensors of the specs they carry, and operators are applied as
their specs demand. -/
def Typed (types : TypeMap) : Adjoint → Prop
  | leaf x spec => x.type? types = some (.tensor spec)
  | call op args spec =>
    op.isCustom = false ∧ TypedAll types args ∧
      op.resultType (Adjoint.types args) (some (.tensor spec)) = .ok (.tensor spec)
  | zeros _ => True
  | tuple components => TypedAll types components

/-- Several typed adjoints. -/
def TypedAll (types : TypeMap) : List Adjoint → Prop
  | [] => True
  | a :: rest => Typed types a ∧ TypedAll types rest

end

theorem typedAll_iff {types : TypeMap} {as : List Adjoint} :
    TypedAll types as ↔ ∀ a ∈ as, Typed types a := by
  induction as with
  | nil => exact ⟨fun _ _ hm => absurd hm List.not_mem_nil, fun _ => trivial⟩
  | cons a as ih => rw [TypedAll, ih, List.forall_mem_cons]

section Mono

variable {types types' : TypeMap}

mutual

/-- What is typed stays so when more values have types. -/
theorem Typed.mono (hsub : ∀ id ty, types id = some ty → types' id = some ty) (a : Adjoint)
    (h : a.Typed types) : a.Typed types' := by
  cases a with
  | leaf x spec => exact Operand.type?_mono hsub h
  | call op args spec => exact ⟨h.1, TypedAll.mono hsub args h.2.1, h.2.2⟩
  | zeros spec => trivial
  | tuple components => exact TypedAll.mono hsub components h

theorem TypedAll.mono (hsub : ∀ id ty, types id = some ty → types' id = some ty)
    (as : List Adjoint) (h : TypedAll types as) : TypedAll types' as := by
  cases as with
  | nil => trivial
  | cons a as => exact ⟨Typed.mono hsub a h.1, TypedAll.mono hsub as h.2⟩

end

end Mono

mutual

theorem typed_zerosOf (types : TypeMap) (ty : ValueType) : (zerosOf ty).Typed types := by
  cases ty with
  | tensor spec => trivial
  | tuple elements => exact typedAll_zerosOfAll types elements

theorem typedAll_zerosOfAll (types : TypeMap) (tys : List ValueType) :
    TypedAll types (zerosOfAll tys) := by
  cases tys with
  | nil => trivial
  | cons ty rest => exact ⟨typed_zerosOf types ty, typedAll_zerosOfAll types rest⟩

end

theorem typed_ones (types : TypeMap) (spec : TensorSpec) : (ones spec).Typed types :=
  ⟨rfl, trivial, rfl⟩

/-- The type of a tensor. -/
theorem type_of_spec? {a : Adjoint} {spec : TensorSpec} (h : a.spec? = some spec) :
    a.type = .tensor spec := by
  cases a with
  | tuple components => cases h
  | leaf x s => exact congrArg _ (Option.some.inj h)
  | call op args s => exact congrArg _ (Option.some.inj h)
  | zeros s => exact congrArg _ (Option.some.inj h)

theorem spec?_of_type {a : Adjoint} {spec : TensorSpec} (h : a.type = .tensor spec) :
    a.spec? = some spec := by
  cases a with
  | tuple components => cases h
  | leaf x s => exact congrArg some (ValueType.tensor.inj h)
  | call op args s => exact congrArg some (ValueType.tensor.inj h)
  | zeros s => exact congrArg some (ValueType.tensor.inj h)

/-- What has the type of a tuple is one. -/
theorem exists_of_type_tuple {a : Adjoint} {tys : List ValueType} (h : a.type = .tuple tys) :
    ∃ components, a = tuple components ∧ types components = tys := by
  cases a with
  | leaf x spec => cases h
  | call op args spec => cases h
  | zeros spec => cases h
  | tuple components => exact ⟨components, rfl, ValueType.tuple.inj h⟩

/-- Adjoints of the types of fields begin with that of the first field. -/
theorem exists_cons_of_types? {context : TypeMap} {field : TupleField} {fields : List TupleField}
    {as : List Adjoint} (h : TupleField.types? context (field :: fields) = some (types as)) :
    ∃ a rest, as = a :: rest ∧ field.type? context = some a.type ∧
      TupleField.types? context fields = some (types rest) := by
  obtain ⟨ty, tys, hfield, hrest, hcons⟩ := TupleField.types?_cons_eq_some_iff.mp h
  cases as with
  | nil => cases hcons
  | cons a rest =>
    obtain ⟨rfl, rfl⟩ := List.cons.inj hcons
    exact ⟨a, rest, rfl, hfield, hrest⟩

/-- **Applying an operator** whose type follows from the operands. -/
theorem apply_eq_ok {op : Operation} {args : List Adjoint} {specs : List TensorSpec}
    {spec : TensorSpec} (hargs : types args = specs.map .tensor)
    (h : op.resultSpec specs none = .ok spec) : apply op args = .ok (.call op args spec) := by
  have hop := Operation.isCustom_of_resultSpec h
  have htype : op.resultType (types args) none = .ok (.tensor spec) :=
    (Operation.resultType_eq_ok_iff hop).mpr ⟨specs, spec, hargs, h, rfl⟩
  rw [apply, htype]

theorem types_pair {a b : Adjoint} {spec : TensorSpec} (ha : a.type = .tensor spec)
    (hb : b.type = .tensor spec) : types [a, b] = [spec, spec].map .tensor := by
  rw [types, types, types, ha, hb]
  rfl

theorem typed_call {op : Operation} {args : List Adjoint} {specs : List TensorSpec}
    {spec : TensorSpec} {context : TypeMap} (hargs : types args = specs.map .tensor)
    (h : op.resultSpec specs none = .ok spec) (ht : TypedAll context args) :
    (call op args spec).Typed context := by
  have hop := Operation.isCustom_of_resultSpec h
  refine ⟨hop, ht, (Operation.resultType_eq_ok_iff hop).mpr ⟨specs, spec, hargs, ?_, rfl⟩⟩
  exact Operation.resultSpec_of_none h _

/-! ## Places that are reached -/

mutual

/-- **`Reaches`** -- at a place there is a tensor that is not a known zero. -/
def Reaches : Adjoint → List Nat → Prop
  | zeros _, _ => False
  | leaf _ _, place => place = []
  | call _ _ _, place => place = []
  | tuple _, [] => False
  | tuple components, index :: place => ReachesAt components index place

/-- At a place of one of several adjoints there is a tensor that is not a known zero. -/
def ReachesAt : List Adjoint → Nat → List Nat → Prop
  | [], _, _ => False
  | a :: _, 0, place => Reaches a place
  | _ :: rest, index + 1, place => ReachesAt rest index place

end

theorem reachesAt_iff {as : List Adjoint} {index : Nat} {place : List Nat} :
    ReachesAt as index place ↔ ∃ a, as[index]? = some a ∧ a.Reaches place := by
  induction as generalizing index with
  | nil => simp [ReachesAt]
  | cons a as ih =>
    cases index with
    | zero =>
      refine ⟨fun h => ⟨a, rfl, h⟩, ?_⟩
      rintro ⟨a', ha, h⟩
      cases ha
      exact h
    | succ index => exact ih

/-- A tensor is reached as a whole or not at all. -/
theorem reaches_of_type {a : Adjoint} {spec : TensorSpec} (h : a.type = .tensor spec)
    {place : List Nat} : a.Reaches place ↔ place = [] ∧ a.isZero = false := by
  cases a with
  | tuple components => cases h
  | zeros s => simp [Reaches, isZero]
  | leaf x s => exact ⟨fun h => ⟨h, rfl⟩, fun h => h.1⟩
  | call op args s => exact ⟨fun h => ⟨h, rfl⟩, fun h => h.1⟩

mutual

/-- **A zero reaches nothing**, and what reaches nothing is known to be zero. -/
theorem isZero_iff (a : Adjoint) : a.isZero = true ↔ ∀ place, ¬a.Reaches place := by
  cases a with
  | zeros spec => exact ⟨fun _ _ h => h, fun _ => rfl⟩
  | leaf x spec => simp [Reaches, isZero]
  | call op args spec => simp [Reaches, isZero]
  | tuple components =>
    rw [isZero, allZero_iff]
    refine ⟨fun h place => ?_, fun h index place => h (index :: place)⟩
    cases place with
    | nil => exact id
    | cons index place => exact h index place

theorem allZero_iff (as : List Adjoint) :
    allZero as = true ↔ ∀ index place, ¬ReachesAt as index place := by
  cases as with
  | nil => exact ⟨fun _ _ _ h => h, fun _ => rfl⟩
  | cons a rest =>
    rw [allZero, Bool.and_eq_true, isZero_iff a, allZero_iff rest]
    constructor
    · rintro ⟨ha, hrest⟩ index place
      cases index with
      | zero => exact ha place
      | succ index => exact hrest index place
    · intro h
      exact ⟨fun place => h 0 place, fun index place => h (index + 1) place⟩

end

theorem isZero_eq_false_iff {a : Adjoint} : a.isZero = false ↔ ∃ place, a.Reaches place := by
  rw [← Bool.not_eq_true, isZero_iff, not_forall]
  exact exists_congr fun place => not_not

theorem not_reaches_zerosOf (ty : ValueType) (place : List Nat) : ¬(zerosOf ty).Reaches place :=
  (isZero_iff _).mp (isZero_zerosOf ty) place

/-! ## Sums -/

/-- **The forms that a sum takes**: a known zero disappears, tuples are added component by
component, and anything else is left to the operator. -/
theorem add_forms {a b c : Adjoint} (h : a.add b = .ok c) :
    (∃ spec, a = zeros spec ∧ c = b) ∨ (∃ spec, b = zeros spec ∧ c = a) ∨
      (∃ as bs cs, a = tuple as ∧ b = tuple bs ∧ addAll as bs = .ok cs ∧ c = tuple cs) ∨
      ((∀ spec, a ≠ zeros spec) ∧ (∀ spec, b ≠ zeros spec) ∧ apply .add [a, b] = .ok c) := by
  rw [add.eq_def] at h
  split at h
  · next _ spec =>
    cases h
    exact .inl ⟨spec, rfl, rfl⟩
  · next _ spec _ =>
    cases h
    exact .inr (.inl ⟨spec, rfl, rfl⟩)
  · next as bs =>
    split at h
    · obtain ⟨cs, hcs, rfl⟩ := map_eq_ok_iff.mp h
      exact .inr (.inr (.inl ⟨as, bs, cs, rfl, rfl, hcs, rfl⟩))
    · cases h
  · next ha hb _ => exact .inr (.inr (.inr ⟨ha, hb, h⟩))

/-- The operator that adds two tensors of one spec. -/
theorem apply_add_eq_ok {a b : Adjoint} {spec : TensorSpec} (ha : a.type = .tensor spec)
    (hb : b.type = .tensor spec) : apply .add [a, b] = .ok (.call .add [a, b] spec) :=
  apply_eq_ok (types_pair ha hb) (Operation.resultSpec_add_self spec)

/-- **`AddsTo`** -- what a sum of two adjoints is: of their type, reaching what they reach, and
typed where both are. -/
structure AddsTo (a b c : Adjoint) : Prop where
  /-- The type is that of the summands. -/
  type_eq : c.type = a.type
  /-- The sum is typed where the summands are. -/
  typed : ∀ {context : TypeMap}, a.Typed context → b.Typed context → c.Typed context
  /-- The sum reaches what one of its summands reaches. -/
  reaches : ∀ place, c.Reaches place ↔ a.Reaches place ∨ b.Reaches place

/-- A sum is known to be zero if both summands are, and only then. -/
theorem AddsTo.isZero {a b c : Adjoint} (h : AddsTo a b c) :
    c.isZero = (a.isZero && b.isZero) := by
  rw [Bool.eq_iff_iff, Bool.and_eq_true, isZero_iff, isZero_iff, isZero_iff, ← forall_and]
  exact forall_congr' fun place => by rw [h.reaches, not_or]

theorem addsTo_left {a b : Adjoint} (hb : b.isZero = true) : AddsTo a b a where
  type_eq := rfl
  typed hta _ := hta
  reaches place := (or_iff_left ((isZero_iff b).mp hb place)).symm

theorem addsTo_right {a b : Adjoint} (ha : a.isZero = true) (hty : b.type = a.type) :
    AddsTo a b b where
  type_eq := hty
  typed _ htb := htb
  reaches place := (or_iff_right ((isZero_iff a).mp ha place)).symm

/-- The sum of two tensors, neither of them a known zero, is a call. -/
theorem addsTo_call {a b : Adjoint} {spec : TensorSpec} (ha : a.type = .tensor spec)
    (hb : b.type = .tensor spec) (hza : a.isZero = false) :
    AddsTo a b (.call .add [a, b] spec) where
  type_eq := ha.symm
  typed hta htb :=
    typed_call (types_pair ha hb) (Operation.resultSpec_add_self spec) ⟨hta, htb, trivial⟩
  reaches place := by
    rw [reaches_of_type ha, reaches_of_type hb]
    exact ⟨fun h => .inl ⟨h, hza⟩, fun h => h.elim And.left And.left⟩

mutual

/-- **Adjoints of one type have a sum**, whatever they are made of. -/
theorem exists_addsTo (a b : Adjoint) (hty : b.type = a.type) :
    ∃ c, a.add b = .ok c ∧ AddsTo a b c := by
  cases a with
  | zeros spec => exact ⟨b, by rw [add], addsTo_right rfl hty⟩
  | leaf x spec =>
    have hb : b.type = .tensor spec := hty
    cases b with
    | zeros s => exact ⟨_, by simp [add], addsTo_left rfl⟩
    | leaf y s => exact ⟨_, apply_add_eq_ok rfl hb, addsTo_call rfl hb rfl⟩
    | call op args s => exact ⟨_, apply_add_eq_ok rfl hb, addsTo_call rfl hb rfl⟩
    | tuple bs => cases hb
  | call op args spec =>
    have hb : b.type = .tensor spec := hty
    cases b with
    | zeros s => exact ⟨_, by simp [add], addsTo_left rfl⟩
    | leaf y s => exact ⟨_, apply_add_eq_ok rfl hb, addsTo_call rfl hb rfl⟩
    | call op' args' s => exact ⟨_, apply_add_eq_ok rfl hb, addsTo_call rfl hb rfl⟩
    | tuple bs => cases hb
  | tuple as =>
    cases b with
    | zeros s => cases hty
    | leaf y s => cases hty
    | call op args s => cases hty
    | tuple bs =>
      have htys : types bs = types as := ValueType.tuple.inj hty
      have hlen : as.length = bs.length := by
        have := congrArg List.length htys
        rwa [types_eq_map, types_eq_map, List.length_map, List.length_map, eq_comm] at this
      obtain ⟨cs, hcs, hct, htyped, hreach⟩ := exists_addAll_addsTo as bs htys
      refine ⟨.tuple cs, ?_, congrArg ValueType.tuple hct, htyped, fun place => ?_⟩
      · rw [add, if_pos hlen, hcs]
        rfl
      · cases place with
        | nil => exact ⟨fun h => h.elim, fun h => h.elim id id⟩
        | cons index place => exact hreach index place

theorem exists_addAll_addsTo (as bs : List Adjoint) (hty : types bs = types as) :
    ∃ cs, addAll as bs = .ok cs ∧ types cs = types as ∧
      (∀ {context : TypeMap}, TypedAll context as → TypedAll context bs → TypedAll context cs) ∧
      ∀ index place, ReachesAt cs index place ↔
        ReachesAt as index place ∨ ReachesAt bs index place := by
  cases as with
  | nil =>
    cases bs with
    | nil => exact ⟨[], rfl, rfl, fun _ _ => trivial, fun _ _ => (or_self_iff).symm⟩
    | cons b bs => cases hty
  | cons a as =>
    cases bs with
    | nil => cases hty
    | cons b bs =>
      obtain ⟨hab, hrest⟩ := List.cons.inj hty
      obtain ⟨c, hc, hsum⟩ := exists_addsTo a b hab
      obtain ⟨cs, hcs, hcst, htcs, hreaches⟩ := exists_addAll_addsTo as bs hrest
      refine ⟨c :: cs, ?_, ?_, fun hta htb => ⟨hsum.typed hta.1 htb.1, htcs hta.2 htb.2⟩,
        fun index place => ?_⟩
      · rw [addAll, hc, ok_bind, hcs]
        rfl
      · rw [types, types, hsum.type_eq, hcst]
      · cases index with
        | zero => exact hsum.reaches place
        | succ index => exact hreaches index place

end

section Sums

variable {context : TypeMap}

/-- What a sum of two typed adjoints is: typed, of their type, and reaching what they reach. -/
def IsSum (context : TypeMap) (a b c : Adjoint) : Prop :=
  c.Typed context ∧ c.type = a.type ∧ ∀ place, c.Reaches place ↔ a.Reaches place ∨ b.Reaches place

/-- **Typed adjoints of one type have a sum.** -/
theorem exists_add (a b : Adjoint) (hty : b.type = a.type) (hta : a.Typed context)
    (htb : b.Typed context) : ∃ c, a.add b = .ok c ∧ IsSum context a b c := by
  obtain ⟨c, hc, hsum⟩ := exists_addsTo a b hty
  exact ⟨c, hc, hsum.typed hta htb, hsum.type_eq, hsum.reaches⟩

mutual

/-- Zeros add nothing. -/
theorem zerosOf_add (a : Adjoint) : (zerosOf a.type).add a = .ok a := by
  cases a with
  | zeros spec => rw [type, zerosOf, add]
  | leaf x spec => rw [type, zerosOf, add]
  | call op args spec => rw [type, zerosOf, add]
  | tuple components =>
    have hlen : (zerosOfAll (types components)).length = components.length := by
      rw [zerosOfAll_eq_map, types_eq_map, List.length_map, List.length_map]
    rw [type, zerosOf, add, if_pos hlen, zerosOfAll_addAll components]
    rfl

theorem zerosOfAll_addAll (as : List Adjoint) : addAll (zerosOfAll (types as)) as = .ok as := by
  cases as with
  | nil => rfl
  | cons a rest =>
    rw [types, zerosOfAll, addAll, zerosOf_add a, ok_bind, zerosOfAll_addAll rest]
    rfl

end

theorem types_set {as : List Adjoint} {index : Nat} {a c : Adjoint} (ha : as[index]? = some a)
    (hc : c.type = a.type) : types (as.set index c) = types as := by
  rw [types_eq_map, types_eq_map, List.map_set, hc]
  obtain ⟨hlt, rfl⟩ := List.getElem?_eq_some_iff.mp ha
  refine List.ext_getElem? fun i => ?_
  rw [List.getElem?_set]
  by_cases hi : index = i
  · subst hi
    rw [if_pos rfl, List.length_map, if_pos hlt, List.getElem?_map, ha, Option.map_some]
  · rw [if_neg hi]

/-- **What is added at a component** is added to what the tuple has there. -/
theorem addAt_eq_ok_iff {a b c : Adjoint} {index : Nat} :
    a.addAt index b = .ok c ↔ ∃ as current sum, a = tuple as ∧ as[index]? = some current ∧
      current.add b = .ok sum ∧ c = tuple (as.set index sum) := by
  constructor
  · intro h
    rw [addAt.eq_def] at h
    split at h
    · next as =>
      split at h
      · next current hcurrent =>
        obtain ⟨sum, hsum, rfl⟩ := map_eq_ok_iff.mp h
        exact ⟨as, current, sum, rfl, hcurrent, hsum, rfl⟩
      · cases h
    · cases h
  · rintro ⟨as, current, sum, rfl, hcurrent, hsum, rfl⟩
    rw [addAt, hcurrent]
    exact map_eq_ok_iff.mpr ⟨sum, hsum, rfl⟩

/-- **Adding to a component** of a tuple. -/
theorem exists_addAt {a b : Adjoint} {index : Nat} {tys : List ValueType} {ty : ValueType}
    (hty : a.type = .tuple tys) (hi : tys[index]? = some ty) (hb : b.type = ty)
    (hta : a.Typed context) (htb : b.Typed context) :
    ∃ c, a.addAt index b = .ok c ∧ c.Typed context ∧ c.type = a.type ∧
      ∀ place, c.Reaches place ↔
        a.Reaches place ∨ ∃ rest, place = index :: rest ∧ b.Reaches rest := by
  obtain ⟨as, rfl, htys⟩ := exists_of_type_tuple hty
  rw [types_eq_map] at htys
  obtain ⟨current, hcur, hct⟩ : ∃ current, as[index]? = some current ∧ current.type = ty := by
    rw [← htys, List.getElem?_map, Option.map_eq_some_iff] at hi
    exact hi
  have hmem := List.mem_of_getElem? hcur
  obtain ⟨c, hc, htc, hcty, hreach⟩ :=
    exists_add current b (hb.trans hct.symm) (typedAll_iff.mp hta current hmem) htb
  refine ⟨.tuple (as.set index c), ?_, ?_, ?_, fun place => ?_⟩
  · exact addAt_eq_ok_iff.mpr ⟨as, current, c, rfl, hcur, hc, rfl⟩
  · refine typedAll_iff.mpr fun x hx => ?_
    rcases List.mem_or_eq_of_mem_set hx with hx | rfl
    · exact typedAll_iff.mp hta x hx
    · exact htc
  · rw [type, type, types_set hcur hcty]
  · have hlt := (List.getElem?_eq_some_iff.mp hcur).1
    cases place with
    | nil => simp [Reaches]
    | cons i place =>
      show ReachesAt _ i place ↔ ReachesAt as i place ∨ _
      rw [reachesAt_iff, reachesAt_iff, List.getElem?_set]
      by_cases he : index = i
      · subst he
        rw [if_pos rfl, if_pos hlt, hcur]
        constructor
        · rintro ⟨x, hx, hr⟩
          cases hx
          rcases (hreach place).mp hr with hr | hr
          · exact .inl ⟨current, rfl, hr⟩
          · exact .inr ⟨place, rfl, hr⟩
        · rintro (⟨x, hx, hr⟩ | ⟨rest, hp, hr⟩)
          · cases hx
            exact ⟨c, rfl, (hreach place).mpr (.inl hr)⟩
          · cases hp
            exact ⟨c, rfl, (hreach place).mpr (.inr hr)⟩
      · rw [if_neg he]
        refine ⟨.inl, fun h => h.resolve_right ?_⟩
        rintro ⟨rest, hp, _⟩
        exact he (List.cons.inj hp).1.symm

end Sums

end Adjoint

end TensorGraph
