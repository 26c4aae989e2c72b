/-
# TensorGraph.Proofs.Emission -- bound adjoints hold what adjoints denote

The value of an adjoint in an environment is that of its leaves under its operators.
Emitting a typed adjoint succeeds, keeps the builder sound, and leaves something of the
adjoint's type: an operand, a field or a value which, once the new bindings have run, reads
the value that the adjoint had before. The arguments of an operator are emitted one after
the other; later bindings do not disturb what the earlier ones hold, because a sound builder
gives out new identities.
-/
import TensorGraph.Adjoint.Emit
import TensorGraph.Proofs.Adjoints
import TensorGraph.Proofs.Construction
import TensorGraph.Proofs.Kernels
import TensorGraph.Proofs.Runs

namespace TensorGraph

variable {α : Type}

/-! ## What adjoints denote -/

namespace Env

variable {ar : Arithmetic α} {env env' : Env α} {types : TypeMap}

/-- What an operand reads depends on the values that have types. -/
theorem operand_of_agree (agree : ∀ id ty, types id = some ty → env'.lookup id = env.lookup id)
    {x : Operand} {ty : ValueType} (hx : x.type? types = some ty) :
    env'.operand ar x = env.operand ar x := by
  cases x with
  | value id => exact agree id ty hx
  | tupleElement tuple index =>
    obtain ⟨elements, he, _⟩ := Operand.type?_tupleElement hx
    rw [Env.operand, Env.operand, agree tuple _ he]
  | literal constant => rfl

mutual

theorem field_of_agree (agree : ∀ id ty, types id = some ty → env'.lookup id = env.lookup id)
    (field : TupleField) {ty : ValueType} (h : field.type? types = some ty) :
    env'.field ar field = env.field ar field := by
  cases field with
  | operand x => exact operand_of_agree agree h
  | tuple fields =>
    obtain ⟨tys, hf, _⟩ := TupleField.type?_tuple_eq_some_iff.mp h
    rw [Env.field, Env.field, fields_of_agree agree fields hf]

theorem fields_of_agree (agree : ∀ id ty, types id = some ty → env'.lookup id = env.lookup id)
    (fields : List TupleField) {tys : List ValueType}
    (h : TupleField.types? types fields = some tys) :
    env'.fields ar fields = env.fields ar fields := by
  cases fields with
  | nil => rfl
  | cons field rest =>
    obtain ⟨ty, tys', hf, hr, _⟩ := TupleField.types?_cons_eq_some_iff.mp h
    rw [Env.fields, Env.fields, field_of_agree agree field hf, fields_of_agree agree rest hr]

end

end Env

namespace Adjoint

mutual

/-- **`eval`** -- the value of an adjoint in an environment. -/
def eval (ar : Arithmetic α) (custom : CustomKernels α) (env : Env α) :
    Adjoint → Except EvalError (Value α)
  | leaf x _ => env.operand ar x
  | call op args spec => do
    let vs ← evalAll ar custom env args
    let ts ← vs.mapM Value.asTensor
    return .tensor (← Kernel.run ar custom op ts spec)
  | zeros spec => .ok (.tensor (.filled spec ar.zero))
  | tuple components => (evalAll ar custom env components).map .tuple

/-- The values of several adjoints. -/
def evalAll (ar : Arithmetic α) (custom : CustomKernels α) (env : Env α) :
    List Adjoint → Except EvalError (List (Value α))
  | [] => .ok []
  | a :: rest => do
    let v ← eval ar custom env a
    return v :: (← evalAll ar custom env rest)

end

variable {ar : Arithmetic α} {custom : CustomKernels α} {env env' : Env α}

theorem mapM_asTensor (ts : List (Tensor α)) :
    (ts.map Value.tensor).mapM Value.asTensor = .ok ts := by
  rw [mapM_eq_ok_iff, List.forall₂_map_left_iff, List.forall₂_same]
  exact fun _ _ => rfl

theorem eval_call_eq_ok {op : Operation} {args : List Adjoint} {spec : TensorSpec}
    {ts : List (Tensor α)} {t : Tensor α}
    (hargs : evalAll ar custom env args = .ok (ts.map .tensor))
    (ht : Kernel.run ar custom op ts spec = .ok t) :
    (call op args spec).eval ar custom env = .ok (.tensor t) := by
  rw [eval, hargs, ok_bind, mapM_asTensor, ok_bind, ht]
  rfl

/-- **`HasValue`** -- an adjoint has a value in an environment. -/
def HasValue (a : Adjoint) {α : Type} (ar : Arithmetic α) (custom : CustomKernels α)
    (env : Env α) : Prop := ∃ v, a.eval ar custom env = .ok v

/-- Several adjoints have values. -/
def HaveValues (as : List Adjoint) {α : Type} (ar : Arithmetic α) (custom : CustomKernels α)
    (env : Env α) : Prop := ∃ vs, evalAll ar custom env as = .ok vs

theorem haveValues_cons_iff {a : Adjoint} {rest : List Adjoint} :
    HaveValues (a :: rest) ar custom env ↔
      a.HasValue ar custom env ∧ HaveValues rest ar custom env := by
  unfold HaveValues HasValue
  constructor
  · rintro ⟨vs, h⟩
    rw [evalAll] at h
    obtain ⟨v, hv, h⟩ := bind_eq_ok_iff.mp h
    obtain ⟨vs', hvs, _⟩ := bind_eq_ok_iff.mp h
    exact ⟨⟨v, hv⟩, vs', hvs⟩
  · rintro ⟨⟨v, hv⟩, vs, hvs⟩
    exact ⟨v :: vs, by rw [evalAll, hv, ok_bind, hvs]; rfl⟩

/-- An operator that has a value applies to tensors. -/
theorem exists_of_eval_call {op : Operation} {args : List Adjoint} {spec : TensorSpec}
    {v : Value α} (h : (call op args spec).eval ar custom env = .ok v) :
    ∃ ts t, evalAll ar custom env args = .ok (ts.map .tensor) ∧
      Kernel.run ar custom op ts spec = .ok t ∧ v = .tensor t := by
  rw [eval] at h
  obtain ⟨vs, hvs, h⟩ := bind_eq_ok_iff.mp h
  obtain ⟨ts, hts, h⟩ := bind_eq_ok_iff.mp h
  obtain ⟨t, ht, h⟩ := bind_eq_ok_iff.mp h
  cases h
  refine ⟨ts, t, hvs.trans (congrArg _ ?_), ht, rfl⟩
  rw [mapM_eq_ok_iff] at hts
  rw [← List.forall₂_eq_eq_eq, List.forall₂_map_right_iff]
  refine hts.imp fun v t hvt => ?_
  cases v with
  | tensor t' =>
    cases hvt
    rfl
  | tuple vs => cases hvt

section Agreement

variable {types : TypeMap}

mutual

/-- The value of a typed adjoint depends on the values that have types. -/
theorem eval_of_agree (agree : ∀ id ty, types id = some ty → env'.lookup id = env.lookup id)
    (a : Adjoint) (h : a.Typed types) : a.eval ar custom env' = a.eval ar custom env := by
  cases a with
  | leaf x spec => exact Env.operand_of_agree agree h
  | call op args spec => rw [eval, eval, evalAll_of_agree agree args h.2.1]
  | zeros spec => rw [eval, eval]
  | tuple components => rw [eval, eval, evalAll_of_agree agree components h]

theorem evalAll_of_agree (agree : ∀ id ty, types id = some ty → env'.lookup id = env.lookup id)
    (as : List Adjoint) (h : TypedAll types as) :
    evalAll ar custom env' as = evalAll ar custom env as := by
  cases as with
  | nil => rw [evalAll, evalAll]
  | cons a rest =>
    rw [evalAll, evalAll, eval_of_agree agree a h.1, evalAll_of_agree agree rest h.2]

end

end Agreement

end Adjoint

/-! ## Running what was bound -/

namespace Builder

/-- **`Leads`** -- the bindings by which a later builder exceeds an earlier one run from one
environment to another. -/
def Leads (ar : Arithmetic α) (custom : CustomKernels α) (b later : Builder)
    (env env' : Env α) : Prop :=
  ∃ new, later.bindings = b.bindings ++ new ∧ new.foldlM (Env.step ar custom) env = .ok env'

/-- **`Runs`** -- the bindings by which a later builder exceeds an earlier one run wherever
something is ready. -/
def Runs (b later : Builder)
    (ready : ∀ {α : Type}, Arithmetic α → CustomKernels α → Env α → Prop) : Prop :=
  ∀ (α : Type) (ar : Arithmetic α) (custom : CustomKernels α) (env : Env α),
    ready ar custom env → ∃ env', b.Leads ar custom later env env'

/-- **`Advances`** -- a later builder exceeds an earlier one and is sound. -/
structure Advances (b later : Builder) : Prop where
  /-- Bindings were appended. -/
  grows : b.Grows later
  /-- The result is sound. -/
  sound : later.Sound

variable {ar : Arithmetic α} {custom : CustomKernels α} {a b c : Builder} {env env' : Env α}

theorem Sound.advances_refl (h : b.Sound) : b.Advances b := ⟨.refl b, h⟩

theorem Advances.trans (h : a.Advances b) (h' : b.Advances c) : a.Advances c :=
  ⟨h.grows.trans h'.grows, h'.sound⟩

theorem Leads.eq_of_refl (h : b.Leads ar custom b env env') : env' = env := by
  obtain ⟨new, hn, hrun⟩ := h
  have hnil : new = [] := List.append_cancel_left (hn.symm.trans (List.append_nil _).symm)
  subst hnil
  exact (Except.ok.inj hrun).symm

theorem leads_refl (b : Builder) (env : Env α) : b.Leads ar custom b env env :=
  ⟨[], (List.append_nil _).symm, rfl⟩

theorem runs_refl (b : Builder)
    (ready : ∀ {α : Type}, Arithmetic α → CustomKernels α → Env α → Prop) : b.Runs b ready :=
  fun _ _ _ env _ => ⟨env, leads_refl b env⟩

theorem Leads.trans {mid : Env α} (h : a.Leads ar custom b env mid)
    (h' : b.Leads ar custom c mid env') : a.Leads ar custom c env env' := by
  obtain ⟨first, hf, hrun⟩ := h
  obtain ⟨second, hs, hrun'⟩ := h'
  refine ⟨first ++ second, ?_, foldlM_append_eq_ok_iff.mpr ⟨mid, hrun, hrun'⟩⟩
  rw [hs, hf, List.append_assoc]

/-- What leads through a builder in between leads to it and on from it. -/
theorem Leads.split (h : a.Leads ar custom c env env') (hab : a.Grows b) (hbc : b.Grows c) :
    ∃ mid, a.Leads ar custom b env mid ∧ b.Leads ar custom c mid env' := by
  obtain ⟨new, hn, hrun⟩ := h
  obtain ⟨first, hf⟩ := hab.bindings
  obtain ⟨second, hs⟩ := hbc.bindings
  have hnew : new = first ++ second := by
    have happend : a.bindings ++ new = a.bindings ++ (first ++ second) := by
      rw [← hn, hs, hf, List.append_assoc]
    exact List.append_cancel_left happend
  subst hnew
  obtain ⟨mid, h₁, h₂⟩ := foldlM_append_eq_ok_iff.mp hrun
  exact ⟨mid, ⟨first, hf, h₁⟩, ⟨second, hs, h₂⟩⟩

/-- New bindings leave the values of a builder as they are. -/
theorem Leads.lookup_eq (h : b.Leads ar custom c env env') (hc : b.Advances c) {id : ValueId}
    {ty : ValueType} (hid : b.context.typeOf? id = some ty) :
    env'.lookup id = env.lookup id := by
  obtain ⟨new, hn, hrun⟩ := h
  refine Env.lookup_of_foldlM_step hrun fun hm => ?_
  have hcontext : c.context = b.context ++ new.map Binding.entry := by
    rw [context, hc.grows.params, hn, List.map_append, ← List.append_assoc, context]
  have hnodup := hc.sound.nodup
  rw [hcontext, Context.ids_append, Context.ids_map_entry] at hnodup
  have hmem := Context.isSome_typeOf?.mp (Option.isSome_of_mem hid)
  exact List.disjoint_of_nodup_append hnodup hmem hm

theorem Leads.operand_eq (h : b.Leads ar custom c env env') (hc : b.Advances c) {x : Operand}
    {ty : ValueType} (hx : x.type? b.context.typeOf? = some ty) :
    env'.operand ar x = env.operand ar x :=
  Env.operand_of_agree (fun _ _ hid => h.lookup_eq hc hid) hx

theorem Leads.eval_eq (h : b.Leads ar custom c env env') (hc : b.Advances c) {a : Adjoint}
    (ha : a.Typed b.context.typeOf?) : a.eval ar custom env' = a.eval ar custom env :=
  Adjoint.eval_of_agree (fun _ _ hid => h.lookup_eq hc hid) a ha

theorem Leads.evalAll_eq (h : b.Leads ar custom c env env') (hc : b.Advances c)
    {as : List Adjoint} (ha : Adjoint.TypedAll b.context.typeOf? as) :
    Adjoint.evalAll ar custom env' as = Adjoint.evalAll ar custom env as :=
  Adjoint.evalAll_of_agree (fun _ _ hid => h.lookup_eq hc hid) as ha

/-- What is bound for the head of a list leaves the values of the tail. -/
theorem runs_cons {x : Adjoint} {xs : List Adjoint} (hb : a.Advances b)
    (ht : Adjoint.TypedAll a.context.typeOf? xs) (h : a.Runs b x.HasValue)
    (h' : b.Runs c (Adjoint.HaveValues xs)) : a.Runs c (Adjoint.HaveValues (x :: xs)) := by
  intro α ar custom env hvalues
  obtain ⟨hx, hxs⟩ := Adjoint.haveValues_cons_iff.mp hvalues
  obtain ⟨env₁, hl₁⟩ := h α ar custom env hx
  rw [Adjoint.HaveValues, ← hl₁.evalAll_eq hb ht] at hxs
  obtain ⟨env₂, hl₂⟩ := h' α ar custom env₁ hxs
  exact ⟨env₂, hl₁.trans hl₂⟩

theorem Advances.typed (h : b.Advances c) {a : Adjoint} (ha : a.Typed b.context.typeOf?) :
    a.Typed c.context.typeOf? :=
  Adjoint.Typed.mono (fun _ _ hid => h.grows.typeOf?_of_eq_some hid) a ha

theorem Advances.type? (h : b.Advances c) {x : Operand} {ty : ValueType}
    (hx : x.type? b.context.typeOf? = some ty) : x.type? c.context.typeOf? = some ty :=
  Operand.type?_mono (fun _ _ hid => h.grows.typeOf?_of_eq_some hid) hx

theorem Advances.fieldType? (h : b.Advances c) {x : TupleField} {ty : ValueType}
    (hx : x.type? b.context.typeOf? = some ty) : x.type? c.context.typeOf? = some ty := by
  refine TupleField.type?_of_agree x hx fun id hid => ?_
  obtain ⟨found, hf⟩ := Option.isSome_iff_exists.mp (TupleField.isSome_of_type? x hx id hid)
  rw [hf, h.grows.typeOf?_of_eq_some hf]

/-- **Binding an expression** advances a sound builder. -/
theorem Sound.advances_bind (h : b.Sound) (hint : String) {e : Expr} {ty : ValueType}
    (ht : e.HasType b.context.typeOf? ty) : b.Advances (b.bind hint e ty).2 :=
  ⟨grows_bind b hint e ty, h.bind hint ht⟩

/-- An expression that evaluates to a value of its type is bound. -/
theorem exists_leads_bind {hint : String} {e : Expr} {ty : ValueType} {v : Value α}
    (hv : env.expr ar custom ⟨⟨b.nextIndex⟩, b.names.choose hint, e, ty⟩ = .ok v)
    (hty : v.hasType ty = true) :
    ∃ env', b.Leads ar custom (b.bind hint e ty).2 env env' :=
  ⟨_, _, bindings_bind b hint e ty,
    foldlM_cons_eq_ok_iff.mpr ⟨_, Env.step_eq_ok_iff.mpr ⟨v, hv, hty, rfl⟩, rfl⟩⟩

theorem leads_bind {hint : String} {e : Expr} {ty : ValueType}
    (h : b.Leads ar custom (b.bind hint e ty).2 env env') :
    ∃ v, env.expr ar custom ⟨⟨b.nextIndex⟩, b.names.choose hint, e, ty⟩ = .ok v ∧
      env'.lookup ⟨b.nextIndex⟩ = .ok v := by
  obtain ⟨new, hn, hrun⟩ := h
  have hnew : new = [⟨⟨b.nextIndex⟩, b.names.choose hint, e, ty⟩] :=
    List.append_cancel_left (hn.symm.trans (bindings_bind b hint e ty))
  subst hnew
  obtain ⟨mid, hstep, hnil⟩ := foldlM_cons_eq_ok_iff.mp hrun
  obtain ⟨v, hv, _, rfl⟩ := Env.step_eq_ok_iff.mp hstep
  cases hnil
  exact ⟨v, hv, Env.lookup_push_self env _ v⟩

end Builder

/-! ## Emitting operands -/

namespace Emit

open Builder

/-- **A bound call** runs where the operator applied to its arguments has a value, and holds
that value. -/
theorem bind_call_spec {b mid : Builder} (hint : String) {op : Operation} {args : List Adjoint}
    {spec : TensorSpec} {xs : List Operand} (hmid : b.Advances mid)
    (ht : (Adjoint.call op args spec).Typed b.context.typeOf?)
    (hx : Operand.HaveTypes mid.context.typeOf? xs (Adjoint.types args))
    (hruns : b.Runs mid (Adjoint.HaveValues args))
    (heval : ∀ (α : Type) (ar : Arithmetic α) (custom : CustomKernels α) (env env' : Env α),
      b.Leads ar custom mid env env' →
        xs.mapM (env'.operand ar) = Adjoint.evalAll ar custom env args) :
    b.Advances (mid.bind hint (.call op xs) (.tensor spec)).2 ∧
      (mid.bind hint (.call op xs) (.tensor spec)).2.context.typeOf? ⟨mid.nextIndex⟩ =
        some (.tensor spec) ∧
      b.Runs (mid.bind hint (.call op xs) (.tensor spec)).2
        (Adjoint.call op args spec).HasValue ∧
      ∀ (α : Type) (ar : Arithmetic α) (custom : CustomKernels α) (env env' : Env α),
        b.Leads ar custom (mid.bind hint (.call op xs) (.tensor spec)).2 env env' →
          env'.lookup ⟨mid.nextIndex⟩ = (Adjoint.call op args spec).eval ar custom env := by
  have htype : (Expr.call op xs).HasType mid.context.typeOf? (.tensor spec) :=
    ⟨Adjoint.types args, hx, ht.2.2⟩
  have hbind := hmid.sound.advances_bind hint htype
  refine ⟨hmid.trans hbind, typeOf?_bind_self hmid.sound hint _ _, ?_, ?_⟩
  · rintro α ar custom env ⟨v, hv⟩
    obtain ⟨ts, t, hargs, hrun, rfl⟩ := Adjoint.exists_of_eval_call hv
    obtain ⟨env₁, hl₁⟩ := hruns α ar custom env ⟨_, hargs⟩
    have hts : xs.mapM (env₁.tensorOperand ar) = .ok ts := by
      rw [Env.tensorOperands_eq_ok_iff, heval α ar custom env env₁ hl₁, hargs]
    have hspec : (Value.tensor t).hasType (.tensor spec) = true :=
      beq_iff_eq.mpr (Kernel.fits_of_run hrun ht.1).1
    obtain ⟨env₂, hl₂⟩ : ∃ env₂, mid.Leads ar custom
        (mid.bind hint (.call op xs) (.tensor spec)).2 env₁ env₂ :=
      exists_leads_bind (Env.expr_call_eq_ok_iff.mpr ⟨ts, t, hts, hrun, rfl⟩) hspec
    exact ⟨env₂, hl₁.trans hl₂⟩
  · intro α ar custom env env' hl
    obtain ⟨env₁, hl₁, hl₂⟩ := hl.split hmid.grows hbind.grows
    obtain ⟨v, hv, hlookup⟩ := leads_bind hl₂
    obtain ⟨ts, t, hts, hrun, rfl⟩ := Env.expr_call_eq_ok_iff.mp hv
    rw [Env.tensorOperands_eq_ok_iff, heval α ar custom env env₁ hl₁] at hts
    rw [hlookup, Adjoint.eval_call_eq_ok hts hrun]

theorem hasType_zeros (types : TypeMap) (spec : TensorSpec) :
    (Expr.call .zeros []).HasType types (.tensor spec) := ⟨[], .nil, rfl⟩

/-- **Bound zeros** run anywhere, and hold zeros. -/
theorem bind_zeros_spec {b : Builder} (hb : b.Sound) (hint : String) (spec : TensorSpec) :
    b.Advances (b.bind hint (.call .zeros []) (.tensor spec)).2 ∧
      (b.bind hint (.call .zeros []) (.tensor spec)).2.context.typeOf? ⟨b.nextIndex⟩ =
        some (.tensor spec) ∧
      b.Runs (b.bind hint (.call .zeros []) (.tensor spec)).2 (Adjoint.zeros spec).HasValue ∧
      ∀ (α : Type) (ar : Arithmetic α) (custom : CustomKernels α) (env env' : Env α),
        b.Leads ar custom (b.bind hint (.call .zeros []) (.tensor spec)).2 env env' →
          env'.lookup ⟨b.nextIndex⟩ = (Adjoint.zeros spec).eval ar custom env := by
  refine ⟨hb.advances_bind hint (hasType_zeros b.context.typeOf? spec),
    typeOf?_bind_self hb hint _ _, ?_, ?_⟩
  · intro α ar custom env _
    have hspec : (Value.tensor (Tensor.filled spec ar.zero)).hasType (.tensor spec) = true :=
      beq_self_eq_true spec
    exact exists_leads_bind (Env.expr_call_eq_ok_iff.mpr ⟨[], _, rfl, rfl, rfl⟩) hspec
  · intro α ar custom env env' hl
    obtain ⟨v, hv, hlookup⟩ := leads_bind hl
    obtain ⟨ts, t, hts, hrun, rfl⟩ := Env.expr_call_eq_ok_iff.mp hv
    cases hrun
    exact hlookup

variable (temp : String)

mutual

/-- **Emitting an operand.** -/
theorem operand_spec (a : Adjoint) {b : Builder} {spec : TensorSpec} (hb : b.Sound)
    (ht : a.Typed b.context.typeOf?) (hty : a.type = .tensor spec) :
    ∃ x b', (operand temp a).run b = some (x, b') ∧ b.Advances b' ∧
      x.type? b'.context.typeOf? = some (.tensor spec) ∧ b.Runs b' a.HasValue ∧
      ∀ (α : Type) (ar : Arithmetic α) (custom : CustomKernels α) (env env' : Env α),
        b.Leads ar custom b' env env' → env'.operand ar x = a.eval ar custom env := by
  cases a with
  | tuple components => cases hty
  | leaf x s =>
    have hs : s = spec := ValueType.tensor.inj hty
    subst hs
    refine ⟨x, b, by rw [operand]; rfl, hb.advances_refl, ht, runs_refl b _, ?_⟩
    intro α ar custom env env' hl
    rw [hl.eq_of_refl, Adjoint.eval]
  | zeros s =>
    have hs : s = spec := ValueType.tensor.inj hty
    subst hs
    exact ⟨.value ⟨b.nextIndex⟩, _, by rw [operand]; rfl, bind_zeros_spec hb temp s⟩
  | call op args s =>
    have hs : s = spec := ValueType.tensor.inj hty
    subst hs
    obtain ⟨specs, _, hspecs, _⟩ := (Operation.resultType_eq_ok_iff ht.1).mp ht.2.2
    obtain ⟨xs, mid, hrun, hmid, hx, hready, heval⟩ := operands_spec args hb ht.2.1 hspecs
    refine ⟨.value ⟨mid.nextIndex⟩, _, ?_, bind_call_spec temp hmid ht (hspecs ▸ hx) hready heval⟩
    rw [operand, StateT.run_bind, hrun]
    rfl

/-- Emitting several operands. -/
theorem operands_spec (as : List Adjoint) {b : Builder} {specs : List TensorSpec} (hb : b.Sound)
    (ht : Adjoint.TypedAll b.context.typeOf? as)
    (hty : Adjoint.types as = specs.map .tensor) :
    ∃ xs b', (operands temp as).run b = some (xs, b') ∧ b.Advances b' ∧
      Operand.HaveTypes b'.context.typeOf? xs (specs.map .tensor) ∧
      b.Runs b' (Adjoint.HaveValues as) ∧
      ∀ (α : Type) (ar : Arithmetic α) (custom : CustomKernels α) (env env' : Env α),
        b.Leads ar custom b' env env' →
          xs.mapM (env'.operand ar) = Adjoint.evalAll ar custom env as := by
  cases as with
  | nil =>
    cases specs with
    | cons spec specs => cases hty
    | nil =>
      refine ⟨[], b, by rw [operands]; rfl, hb.advances_refl, .nil, runs_refl b _, ?_⟩
      intro α ar custom env env' hl
      rw [Adjoint.evalAll]
      rfl
  | cons a rest =>
    cases specs with
    | nil => cases hty
    | cons spec specs =>
      obtain ⟨ha, hrest⟩ := List.cons.inj hty
      obtain ⟨x, mid, hrun, hmid, hx, hready, heval⟩ := operand_spec a hb ht.1 ha
      have htrest : Adjoint.TypedAll mid.context.typeOf? rest := Adjoint.typedAll_iff.mpr
        fun a' ha' => hmid.typed (Adjoint.typedAll_iff.mp ht.2 a' ha')
      obtain ⟨xs, b', hruns, hb', hxs, hreadys, hevals⟩ :=
        operands_spec rest hmid.sound htrest hrest
      refine ⟨x :: xs, b', ?_, hmid.trans hb', .cons (hb'.type? hx) hxs,
        runs_cons hmid ht.2 hready hreadys, ?_⟩
      · rw [operands, StateT.run_bind, hrun]
        show ((operands temp rest >>= fun xs => pure (x :: xs)).run mid) = _
        rw [StateT.run_bind, hruns]
        rfl
      · intro α ar custom env env' hl
        obtain ⟨env₁, hl₁, hl₂⟩ := hl.split hmid.grows hb'.grows
        have hstable := hl₁.evalAll_eq hmid ht.2
        rw [List.mapM_cons, hl₂.operand_eq hb' hx, heval α ar custom env env₁ hl₁,
          hevals α ar custom env₁ env' hl₂, hstable, Adjoint.evalAll]

end

/-! ## Settling, fields and values -/

/-- **Settling a tensor** leaves a leaf that holds it. -/
theorem settle_spec (hint : String) (a : Adjoint) {b : Builder} {spec : TensorSpec}
    (hb : b.Sound) (ht : a.Typed b.context.typeOf?) (hty : a.type = .tensor spec) :
    ∃ x b', (settle temp hint a).run b = some (.leaf x spec, b') ∧ b.Advances b' ∧
      x.type? b'.context.typeOf? = some (.tensor spec) ∧ b.Runs b' a.HasValue ∧
      ∀ (α : Type) (ar : Arithmetic α) (custom : CustomKernels α) (env env' : Env α),
        b.Leads ar custom b' env env' → env'.operand ar x = a.eval ar custom env := by
  cases a with
  | tuple components => cases hty
  | leaf x s =>
    have hs : s = spec := ValueType.tensor.inj hty
    subst hs
    refine ⟨x, b, rfl, hb.advances_refl, ht, runs_refl b _, ?_⟩
    intro α ar custom env env' hl
    rw [hl.eq_of_refl, Adjoint.eval]
  | zeros s =>
    have hs : s = spec := ValueType.tensor.inj hty
    subst hs
    exact ⟨.value ⟨b.nextIndex⟩, _, rfl, bind_zeros_spec hb hint s⟩
  | call op args s =>
    have hs : s = spec := ValueType.tensor.inj hty
    subst hs
    obtain ⟨specs, _, hspecs, _⟩ := (Operation.resultType_eq_ok_iff ht.1).mp ht.2.2
    obtain ⟨xs, mid, hrun, hmid, hx, hready, heval⟩ := operands_spec temp args hb ht.2.1 hspecs
    refine ⟨.value ⟨mid.nextIndex⟩, _, ?_, bind_call_spec hint hmid ht (hspecs ▸ hx) hready heval⟩
    rw [settle, StateT.run_bind, hrun]
    rfl

mutual

/-- **Emitting a field** of a tuple construction. -/
theorem field_spec (a : Adjoint) {b : Builder} (hb : b.Sound) (ht : a.Typed b.context.typeOf?) :
    ∃ x b', (field temp a).run b = some (x, b') ∧ b.Advances b' ∧
      x.type? b'.context.typeOf? = some a.type ∧ b.Runs b' a.HasValue ∧
      ∀ (α : Type) (ar : Arithmetic α) (custom : CustomKernels α) (env env' : Env α),
        b.Leads ar custom b' env env' → env'.field ar x = a.eval ar custom env := by
  have tensor : ∀ {spec}, a.type = .tensor spec →
      field temp a = TupleField.operand <$> operand temp a →
      ∃ x b', (field temp a).run b = some (x, b') ∧ b.Advances b' ∧
        x.type? b'.context.typeOf? = some a.type ∧ b.Runs b' a.HasValue ∧
        ∀ (α : Type) (ar : Arithmetic α) (custom : CustomKernels α) (env env' : Env α),
          b.Leads ar custom b' env env' → env'.field ar x = a.eval ar custom env := by
    intro spec hty hfield
    obtain ⟨x, b', hrun, hadv, hx, hready, heval⟩ := operand_spec temp a hb ht hty
    refine ⟨.operand x, b', ?_, hadv, hty ▸ hx, hready, heval⟩
    rw [hfield, StateT.run_map, hrun]
    rfl
  cases a with
  | leaf x spec => exact tensor rfl rfl
  | zeros spec => exact tensor rfl rfl
  | call op args spec => exact tensor rfl rfl
  | tuple components =>
    obtain ⟨xs, b', hrun, hadv, hx, hready, heval⟩ := fields_spec components hb ht
    refine ⟨.tuple xs, b', ?_, hadv, ?_, ?_, ?_⟩
    · rw [field, StateT.run_map, hrun]
      rfl
    · exact TupleField.type?_tuple_eq_some_iff.mpr ⟨_, hx, rfl⟩
    · rintro α ar custom env ⟨v, hv⟩
      obtain ⟨vs, hvs, _⟩ := map_eq_ok_iff.mp hv
      exact hready α ar custom env ⟨vs, hvs⟩
    · intro α ar custom env env' hl
      rw [Env.field, heval α ar custom env env' hl, Adjoint.eval]

/-- Emitting several fields. -/
theorem fields_spec (as : List Adjoint) {b : Builder} (hb : b.Sound)
    (ht : Adjoint.TypedAll b.context.typeOf? as) :
    ∃ xs b', (fields temp as).run b = some (xs, b') ∧ b.Advances b' ∧
      TupleField.types? b'.context.typeOf? xs = some (Adjoint.types as) ∧
      b.Runs b' (Adjoint.HaveValues as) ∧
      ∀ (α : Type) (ar : Arithmetic α) (custom : CustomKernels α) (env env' : Env α),
        b.Leads ar custom b' env env' →
          env'.fields ar xs = Adjoint.evalAll ar custom env as := by
  cases as with
  | nil =>
    refine ⟨[], b, by rw [fields]; rfl, hb.advances_refl, rfl, runs_refl b _, ?_⟩
    intro α ar custom env env' hl
    rw [Env.fields, Adjoint.evalAll]
  | cons a rest =>
    obtain ⟨x, mid, hrun, hmid, hx, hready, heval⟩ := field_spec a hb ht.1
    have htrest : Adjoint.TypedAll mid.context.typeOf? rest := Adjoint.typedAll_iff.mpr
      fun a' ha' => hmid.typed (Adjoint.typedAll_iff.mp ht.2 a' ha')
    obtain ⟨xs, b', hruns, hb', hxs, hreadys, hevals⟩ := fields_spec rest hmid.sound htrest
    refine ⟨x :: xs, b', ?_, hmid.trans hb', ?_, runs_cons hmid ht.2 hready hreadys, ?_⟩
    · rw [fields, StateT.run_bind, hrun]
      show ((fields temp rest >>= fun xs => pure (x :: xs)).run mid) = _
      rw [StateT.run_bind, hruns]
      rfl
    · exact TupleField.types?_cons_eq_some_iff.mpr ⟨_, _, hb'.fieldType? hx, hxs, rfl⟩
    · intro α ar custom env env' hl
      obtain ⟨env₁, hl₁, hl₂⟩ := hl.split hmid.grows hb'.grows
      have hstable := hl₁.evalAll_eq hmid ht.2
      have hkept : env'.field ar x = env₁.field ar x :=
        Env.field_of_agree (fun _ _ hid => hl₂.lookup_eq hb' hid) x hx
      rw [Env.fields, hkept, heval α ar custom env env₁ hl₁, hevals α ar custom env₁ env' hl₂,
        hstable, Adjoint.evalAll]

end

theorem hasType_reading {types : TypeMap} {x : Operand} {ty : ValueType}
    (h : x.type? types = some ty) : (reading x).HasType types ty := by
  cases x with
  | value id => exact h
  | tupleElement tuple index => exact h
  | literal constant => exact h

theorem expr_reading {ar : Arithmetic α} {custom : CustomKernels α} {env : Env α} (x : Operand)
    (id : ValueId) (name : String) (ty : ValueType) :
    env.expr ar custom ⟨id, name, reading x, ty⟩ = env.operand ar x := by
  cases x with
  | value id' => rfl
  | tupleElement tuple index => rfl
  | literal constant => rfl

/-- **Emitting a value** of the type of the adjoint. -/
theorem value_spec (hint : String) (a : Adjoint) {b : Builder} (hb : b.Sound)
    (ht : a.Typed b.context.typeOf?) :
    ∃ id b', (value temp hint a.type a).run b = some (id, b') ∧ b.Advances b' ∧
      b'.context.typeOf? id = some a.type ∧
      b.Runs b' (fun ar custom env =>
        ∃ v, a.eval ar custom env = .ok v ∧ v.hasType a.type = true) ∧
      ∀ (α : Type) (ar : Arithmetic α) (custom : CustomKernels α) (env env' : Env α),
        b.Leads ar custom b' env env' → env'.lookup id = a.eval ar custom env := by
  cases a with
  | leaf x spec =>
    have hbind := hb.advances_bind hint (hasType_reading ht)
    refine ⟨⟨b.nextIndex⟩, _, rfl, hbind, typeOf?_bind_self hb hint _ _, ?_, ?_⟩
    · rintro α ar custom env ⟨v, hv, hty⟩
      exact exists_leads_bind ((expr_reading x _ _ _).trans hv) hty
    · intro α ar custom env env' hl
      obtain ⟨v, hv, hlookup⟩ := leads_bind hl
      rw [expr_reading] at hv
      rw [hlookup, Adjoint.eval, hv]
  | zeros spec =>
    obtain ⟨hadv, htype, hruns, heval⟩ := bind_zeros_spec hb hint spec
    refine ⟨⟨b.nextIndex⟩, _, rfl, hadv, htype, ?_, heval⟩
    rintro α ar custom env ⟨v, hv, _⟩
    exact hruns α ar custom env ⟨v, hv⟩
  | call op args spec =>
    obtain ⟨specs, _, hspecs, _⟩ := (Operation.resultType_eq_ok_iff ht.1).mp ht.2.2
    obtain ⟨xs, mid, hrun, hmid, hx, hready, heval⟩ := operands_spec temp args hb ht.2.1 hspecs
    obtain ⟨hadv, htype, hruns, hmeans⟩ := bind_call_spec hint hmid ht (hspecs ▸ hx) hready heval
    refine ⟨⟨mid.nextIndex⟩, _, ?_, hadv, htype, ?_, hmeans⟩
    · rw [value, StateT.run_bind, hrun]
      rfl
    · rintro α ar custom env ⟨v, hv, _⟩
      exact hruns α ar custom env ⟨v, hv⟩
  | tuple components =>
    obtain ⟨xs, mid, hrun, hmid, hx, hready, heval⟩ := fields_spec temp components hb ht
    have hbind := hmid.sound.advances_bind hint
      (show (Expr.tuple xs).HasType mid.context.typeOf? (.tuple (Adjoint.types components)) from
        ⟨_, hx, rfl⟩)
    refine ⟨⟨mid.nextIndex⟩, _, ?_, hmid.trans hbind, typeOf?_bind_self hmid.sound hint _ _, ?_, ?_⟩
    · rw [value, StateT.run_bind, hrun]
      rfl
    · rintro α ar custom env ⟨v, hv, hty⟩
      obtain ⟨vs, hvs, rfl⟩ := map_eq_ok_iff.mp hv
      obtain ⟨env₁, hl₁⟩ := hready α ar custom env ⟨vs, hvs⟩
      have hfields : (env₁.fields ar xs).map Value.tuple = .ok (.tuple vs) := by
        rw [heval α ar custom env env₁ hl₁, hvs]
        rfl
      obtain ⟨env₂, hl₂⟩ : ∃ env₂, mid.Leads ar custom
          (mid.bind hint (.tuple xs) (.tuple (Adjoint.types components))).2 env₁ env₂ :=
        exists_leads_bind hfields hty
      exact ⟨env₂, hl₁.trans hl₂⟩
    · intro α ar custom env env' hl
      obtain ⟨env₁, hl₁, hl₂⟩ := hl.split hmid.grows hbind.grows
      obtain ⟨v, hv, hlookup⟩ := leads_bind hl₂
      have hfields : (env₁.fields ar xs).map Value.tuple = .ok v := hv
      rw [heval α ar custom env env₁ hl₁] at hfields
      rw [hlookup, Adjoint.eval, hfields]

end Emit

end TensorGraph
