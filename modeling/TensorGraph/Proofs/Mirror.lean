/-
# TensorGraph.Proofs.Mirror -- copies under other identities

A splice copies parameters and bindings of a source under new identities and remembers
where each value went. An environment of the source is mirrored by one of the copy when
every value of the source is found, the same, under its new identity. An expression then
has the same value on both sides, and a copy of accepted bindings runs exactly when the
bindings themselves do: each new value goes under an identity above all that were given
out before, so that it hides none of them.
-/
import TensorGraph.Proofs.Runs
import TensorGraph.Transform.AppendLoss

namespace TensorGraph

/-! ## What a splice adds -/

namespace Splice

/-- The parameters that a splice adds for those of a source. -/
def copiedParams : Splice → List (Param × String) → List Param
  | _, [] => []
  | s, (p, name) :: rest =>
    ⟨⟨s.builder.nextIndex⟩, s.builder.names.choose name, p.ty⟩ ::
      (s.addParam p name).copiedParams rest

/-- The bindings that a splice adds for those of a source. -/
def copiedBindings : Splice → List (Binding × String) → List Binding
  | _, [] => []
  | s, (b, name) :: rest =>
    ⟨⟨s.builder.nextIndex⟩, s.builder.names.choose name, s.placed.expr b.expr, b.ty⟩ ::
      (s.addBinding b name).copiedBindings rest

theorem params_addParams (s : Splice) (ps : List (Param × String)) :
    (s.addParams ps).builder.params = s.builder.params ++ s.copiedParams ps := by
  induction ps generalizing s with
  | nil => exact (List.append_nil _).symm
  | cons p ps ih =>
    refine (ih (s.addParam p.1 p.2)).trans ?_
    show (s.builder.params ++ [_]) ++ _ = _
    rw [List.append_assoc]
    rfl

theorem bindings_addParams (s : Splice) (ps : List (Param × String)) :
    (s.addParams ps).builder.bindings = s.builder.bindings := by
  induction ps generalizing s with
  | nil => rfl
  | cons p ps ih => exact ih (s.addParam p.1 p.2)

theorem bindings_addBindings (s : Splice) (bs : List (Binding × String)) :
    (s.addBindings bs).builder.bindings = s.builder.bindings ++ s.copiedBindings bs := by
  induction bs generalizing s with
  | nil => exact (List.append_nil _).symm
  | cons b bs ih =>
    refine (ih (s.addBinding b.1 b.2)).trans ?_
    show (s.builder.bindings ++ [_]) ++ _ = _
    rw [List.append_assoc]
    rfl

theorem params_addBindings (s : Splice) (bs : List (Binding × String)) :
    (s.addBindings bs).builder.params = s.builder.params := by
  induction bs generalizing s with
  | nil => rfl
  | cons b bs ih => exact ih (s.addBinding b.1 b.2)

theorem length_copiedParams (s : Splice) (ps : List (Param × String)) :
    (s.copiedParams ps).length = ps.length := by
  induction ps generalizing s with
  | nil => rfl
  | cons p ps ih => rw [copiedParams, List.length_cons, ih, List.length_cons]

theorem length_copiedBindings (s : Splice) (bs : List (Binding × String)) :
    (s.copiedBindings bs).length = bs.length := by
  induction bs generalizing s with
  | nil => rfl
  | cons b bs ih => rw [copiedBindings, List.length_cons, ih, List.length_cons]

theorem name_addParams (s : Splice) (ps : List (Param × String)) :
    (s.addParams ps).builder.name = s.builder.name := by
  induction ps generalizing s with
  | nil => rfl
  | cons p ps ih => exact ih (s.addParam p.1 p.2)

theorem name_addBindings (s : Splice) (bs : List (Binding × String)) :
    (s.addBindings bs).builder.name = s.builder.name := by
  induction bs generalizing s with
  | nil => rfl
  | cons b bs ih => exact ih (s.addBinding b.1 b.2)

theorem nextIndex_addParams (s : Splice) (ps : List (Param × String)) :
    (s.addParams ps).builder.nextIndex = s.builder.nextIndex + ps.length := by
  induction ps generalizing s with
  | nil => rfl
  | cons p ps ih =>
    have hstep : (s.addParam p.1 p.2).builder.nextIndex = s.builder.nextIndex + 1 := rfl
    rw [show s.addParams (p :: ps) = (s.addParam p.1 p.2).addParams ps from rfl, ih, hstep,
      List.length_cons]
    omega

theorem nextIndex_addBindings (s : Splice) (bs : List (Binding × String)) :
    (s.addBindings bs).builder.nextIndex = s.builder.nextIndex + bs.length := by
  induction bs generalizing s with
  | nil => rfl
  | cons b bs ih =>
    have hstep : (s.addBinding b.1 b.2).builder.nextIndex = s.builder.nextIndex + 1 := rfl
    rw [show s.addBindings (b :: bs) = (s.addBinding b.1 b.2).addBindings bs from rfl, ih, hstep,
      List.length_cons]
    omega

end Splice

/-! ## Mirrored environments -/

variable {α : Type} {ar : Arithmetic α} {custom : CustomKernels α}

namespace Env

/-- **`Mirrors`** -- the values of a context are the same in two environments, up to where
they were placed, and every place is below a bound. -/
def Mirrors (source target : Env α) (placed : Remap) (bound : Nat) (Γ : Context) : Prop :=
  ∀ id ty, Γ.typeOf? id = some ty → ∃ copy v, placed.get? id = some copy ∧ copy.index < bound ∧
    source.lookup id = .ok v ∧ target.lookup copy = .ok v ∧ v.hasType ty = true

/-- **`Keeps`** -- below a bound, a later environment has the values of an earlier one. -/
def Keeps (bound : Nat) (earlier later : Env α) : Prop :=
  ∀ id : ValueId, id.index < bound → later.lookup id = earlier.lookup id

theorem Keeps.trans {bound bound' : Nat} {a b c : Env α} (h : Keeps bound a b)
    (h' : Keeps bound' b c) (hle : bound ≤ bound') : Keeps bound a c := fun id hid =>
  (h' id (Nat.lt_of_lt_of_le hid hle)).trans (h id hid)

theorem keeps_push (env : Env α) (bound : Nat) (v : Value α) :
    Keeps bound env (env.push ⟨bound⟩ v) := fun id hid =>
  lookup_push_of_ne fun h => absurd hid (by rw [h]; exact Nat.lt_irrefl _)

variable {source target : Env α} {placed : Remap} {bound : Nat} {Γ : Context}

theorem mirrors_nil : source.Mirrors target placed bound [] := by
  intro _ _ h
  simp [Context.typeOf?] at h

theorem Mirrors.keeps {target' : Env α} {bound' : Nat} (h : source.Mirrors target placed bound Γ)
    (hk : Keeps bound target target') (hle : bound ≤ bound') :
    source.Mirrors target' placed bound' Γ := by
  intro id ty hid
  obtain ⟨copy, v, hc, hlt, hs, ht, hty⟩ := h id ty hid
  exact ⟨copy, v, hc, Nat.lt_of_lt_of_le hlt hle, hs, (hk copy hlt).trans ht, hty⟩

/-- A value that is new on both sides keeps them mirrored. -/
theorem Mirrors.push (h : source.Mirrors target placed bound Γ) {id : ValueId}
    (hid : id ∉ Γ.ids) {v : Value α} {ty : ValueType} (hty : v.hasType ty = true) :
    (source.push id v).Mirrors (target.push ⟨bound⟩ v) (placed.insert id ⟨bound⟩) (bound + 1)
      (Γ ++ [(id, ty)]) := by
  intro other ty' ho
  rw [Context.typeOf?_append_singleton hid] at ho
  split at ho
  · next he =>
    subst he
    cases ho
    exact ⟨⟨bound⟩, v, by rw [Remap.get?_insert, if_pos rfl], Nat.lt_succ_self bound,
      lookup_push_self source other v, lookup_push_self target ⟨bound⟩ v, hty⟩
  · next he =>
    obtain ⟨copy, w, hc, hlt, hs, ht, hw⟩ := h other ty' ho
    refine ⟨copy, w, ?_, by omega, ?_, ?_, hw⟩
    · rw [Remap.get?_insert, if_neg he, hc]
    · exact (lookup_push_of_ne he).trans hs
    · exact (keeps_push target bound v copy hlt).trans ht

/-- What has a type has a value. -/
theorem Mirrors.exists_lookup (h : source.Mirrors target placed bound Γ) {id : ValueId}
    (hid : ∃ ty, Γ.typeOf? id = some ty) : ∃ v, source.lookup id = .ok v := by
  obtain ⟨ty, hty⟩ := hid
  obtain ⟨_, v, _, _, hv, _⟩ := h id ty hty
  exact ⟨v, hv⟩

/-! ## The same values -/

theorem Mirrors.lookup_eq (h : source.Mirrors target placed bound Γ) {id : ValueId}
    {ty : ValueType} (hid : Γ.typeOf? id = some ty) :
    target.lookup (placed.value id) = source.lookup id := by
  obtain ⟨copy, v, hc, _, hs, ht, _⟩ := h id ty hid
  rw [Remap.value, hc, Option.getD_some, ht, hs]

theorem Mirrors.operand_eq (h : source.Mirrors target placed bound Γ) {x : Operand}
    {ty : ValueType} (hx : x.type? Γ.typeOf? = some ty) :
    target.operand ar (placed.operand x) = source.operand ar x := by
  cases x with
  | value id => exact h.lookup_eq hx
  | tupleElement tuple index =>
    obtain ⟨elements, ht, _⟩ := Operand.type?_tupleElement hx
    rw [Remap.operand, operand, h.lookup_eq ht, operand]
  | literal constant => rfl

theorem Mirrors.tensorOperands_eq (h : source.Mirrors target placed bound Γ) {xs : List Operand}
    {tys : List ValueType} (hx : Operand.HaveTypes Γ.typeOf? xs tys) :
    (xs.map placed.operand).mapM (target.tensorOperand ar) =
      xs.mapM (source.tensorOperand ar) := by
  induction hx with
  | nil => rfl
  | @cons x ty xs tys hx _ ih =>
    rw [List.map_cons, List.mapM_cons, List.mapM_cons, ih, tensorOperand, h.operand_eq hx]
    rfl

mutual

theorem Mirrors.field_eq (h : source.Mirrors target placed bound Γ) (field : TupleField)
    {ty : ValueType} (hf : field.type? Γ.typeOf? = some ty) :
    target.field ar (placed.field field) = source.field ar field := by
  cases field with
  | operand x => exact h.operand_eq hf
  | tuple fields =>
    obtain ⟨tys, hfs, _⟩ := TupleField.type?_tuple_eq_some_iff.mp hf
    rw [Remap.field, Env.field, Mirrors.fields_eq h fields hfs, Env.field]

theorem Mirrors.fields_eq (h : source.Mirrors target placed bound Γ) (fields : List TupleField)
    {tys : List ValueType} (hf : TupleField.types? Γ.typeOf? fields = some tys) :
    target.fields ar (placed.fields fields) = source.fields ar fields := by
  cases fields with
  | nil => rfl
  | cons field rest =>
    obtain ⟨ty, tys', hx, hr, _⟩ := TupleField.types?_cons_eq_some_iff.mp hf
    rw [Remap.fields, Env.fields, Mirrors.field_eq h field hx, Mirrors.fields_eq h rest hr,
      Env.fields]

end

/-- **A copied expression** has the value of the expression, if either has one. -/
theorem Mirrors.expr_eq_ok_iff (h : source.Mirrors target placed bound Γ) {b : Binding}
    (hb : b.expr.HasType Γ.typeOf? b.ty) (id : ValueId) (name : String) {v : Value α} :
    target.expr ar custom ⟨id, name, placed.expr b.expr, b.ty⟩ = .ok v ↔
      source.expr ar custom b = .ok v := by
  obtain ⟨sourceId, sourceName, e, ty⟩ := b
  cases e with
  | call op operands =>
    obtain ⟨tys, hx, _⟩ := hb
    cases ty with
    | tuple tys => simp [Remap.expr, Env.expr]
    | tensor output =>
      -- the name of a binding shows in the errors of its kernel only
      rw [Remap.expr, expr_call_eq_ok_iff, expr_call_eq_ok_iff, h.tensorOperands_eq hx]
  | tuple fields =>
    obtain ⟨tys, hf, _⟩ := hb
    show (target.fields ar (placed.fields fields)).map Value.tuple = _ ↔ _
    rw [h.fields_eq fields hf]
    rfl
  | tupleGet tuple index =>
    have hx : (Operand.tupleElement tuple index).type? Γ.typeOf? = some ty := hb
    show target.operand ar (placed.operand (.tupleElement tuple index)) = _ ↔ _
    rw [h.operand_eq hx]
    rfl
  | «alias» x =>
    have hx : x.type? Γ.typeOf? = some ty := hb
    show target.operand ar (placed.operand x) = _ ↔ _
    rw [h.operand_eq hx]
    rfl

/-! ## Running a copy -/

variable (ar custom)

/-- **A copied binding** steps exactly when the binding does. -/
theorem Mirrors.step (h : source.Mirrors target placed bound Γ) {b : Binding}
    (hid : b.id ∉ Γ.ids) (hb : b.expr.HasType Γ.typeOf? b.ty) (name : String) :
    Agree (fun source' target' => source'.Mirrors target' (placed.insert b.id ⟨bound⟩) (bound + 1)
        (Γ ++ [b.entry]) ∧ Keeps bound target target')
      (source.step ar custom b)
      (target.step ar custom ⟨⟨bound⟩, name, placed.expr b.expr, b.ty⟩) := by
  constructor
  · intro source' hs
    obtain ⟨v, hv, hty, rfl⟩ := step_eq_ok_iff.mp hs
    have hv' := (h.expr_eq_ok_iff hb ⟨bound⟩ name).mpr hv
    exact ⟨_, step_eq_ok_iff.mpr ⟨v, hv', hty, rfl⟩, h.push hid hty, keeps_push target bound v⟩
  · intro target' ht
    obtain ⟨v, hv', hty, rfl⟩ := step_eq_ok_iff.mp ht
    have hv := (h.expr_eq_ok_iff hb ⟨bound⟩ name).mp hv'
    exact ⟨_, step_eq_ok_iff.mpr ⟨v, hv, hty, rfl⟩, h.push hid hty, keeps_push target bound v⟩

/-- **Copied bindings** run exactly when the bindings do, and end in environments that are
mirrored again. -/
theorem Mirrors.run {s : Splice}
    (h : source.Mirrors target s.placed s.builder.nextIndex Γ) (bs : List (Binding × String))
    (hacc : Γ.Accepts (bs.map Prod.fst)) :
    Agree (fun source' target' => source'.Mirrors target' (s.addBindings bs).placed
          (s.addBindings bs).builder.nextIndex (Γ ++ (bs.map Prod.fst).map Binding.entry) ∧
        Keeps s.builder.nextIndex target target')
      ((bs.map Prod.fst).foldlM (Env.step ar custom) source)
      ((s.copiedBindings bs).foldlM (Env.step ar custom) target) := by
  induction bs generalizing s source target Γ with
  | nil =>
    refine .of_ok ⟨?_, fun _ _ => rfl⟩
    rw [List.map_nil, List.map_nil, List.append_nil]
    exact h
  | cons b bs ih =>
    obtain ⟨b, name⟩ := b
    obtain ⟨hid, hb, hrest⟩ := hacc
    rw [List.map_cons, List.foldlM_cons, Splice.copiedBindings, List.foldlM_cons]
    refine (h.step ar custom hid hb _).bind fun source' target' _ _ hstep => ?_
    obtain ⟨hm, hk⟩ := hstep
    have hrun := ih (s := s.addBinding b name) hm hrest
    rw [List.append_assoc, List.singleton_append] at hrun
    exact hrun.mono fun _ _ h' => ⟨h'.1, hk.trans h'.2 (Nat.le_succ _)⟩

/-- **Copied parameters** take in the inputs that the parameters do. -/
theorem Mirrors.pushInputs {s : Splice}
    (h : source.Mirrors target s.placed s.builder.nextIndex Γ) (ps : List (Param × String))
    (hn : (Γ.ids ++ (ps.map Prod.fst).map Param.id).Nodup) {vs : List (Value α)}
    (hl : vs.length = ps.length) :
    Agree (fun source' target' => source'.Mirrors target' (s.addParams ps).placed
          (s.addParams ps).builder.nextIndex (Γ ++ (ps.map Prod.fst).map Param.entry) ∧
        Keeps s.builder.nextIndex target target')
      (source.pushInputs ((ps.map Prod.fst).zip vs))
      (target.pushInputs ((s.copiedParams ps).zip vs)) := by
  induction ps generalizing s source target Γ vs with
  | nil =>
    refine .of_ok ⟨?_, fun _ _ => rfl⟩
    rw [List.map_nil, List.map_nil, List.append_nil]
    exact h
  | cons p ps ih =>
    obtain ⟨p, name⟩ := p
    cases vs with
    | nil => simp at hl
    | cons v vs =>
      rw [List.map_cons, List.zip_cons_cons, Env.pushInputs, Splice.copiedParams,
        List.zip_cons_cons, Env.pushInputs]
      by_cases ht : v.hasType p.ty = true
      · rw [if_pos ht, if_pos ht]
        have hid : p.id ∉ Γ.ids := fun hm =>
          (List.disjoint_of_nodup_append hn) hm List.mem_cons_self
        have hn' : (Context.ids (Γ ++ [p.entry]) ++ (ps.map Prod.fst).map Param.id).Nodup := by
          rw [Context.ids_append, List.append_assoc]
          exact hn
        have hrun := ih (s := s.addParam p name) (h.push hid ht) hn' (Nat.succ.inj hl)
        rw [List.append_assoc, List.singleton_append] at hrun
        have hk := keeps_push target s.builder.nextIndex v
        exact hrun.mono fun _ _ h' => ⟨h'.1, hk.trans h'.2 (Nat.le_succ _)⟩
      · rw [if_neg ht, if_neg ht]
        constructor <;> simp

end Env

end TensorGraph
