/-
# TensorGraph.Proofs.Completeness -- what a run that succeeds leaves behind

A run that succeeds has checked the type of every input and of every bound value, and has read
every literal. So at its end each value of the function has its type (`Function.hasTypes_of_run`),
and every literal is of a floating type (`Function.isFloat_of_run`). A tensor may still hold
another number of elements than its spec says, if it came in from outside like that; when the
inputs and the results of opaque operators are complete, every value that is computed is
complete too, because kernels check the number of elements that they return
(`Function.isComplete_of_run`). What is appended to such a function and is plain then runs to the
end.
-/
import TensorGraph.Proofs.Runs
import TensorGraph.Proofs.Soundness

namespace TensorGraph

variable {α : Type} {ar : Arithmetic α} {custom : CustomKernels α}

/-! ## Complete values -/

namespace Value

mutual

/-- **`IsComplete`** -- every tensor holds as many elements as its spec says. -/
def IsComplete : Value α → Prop
  | .tensor t => t.data.size = t.spec.elementCount
  | .tuple vs => AllComplete vs

/-- Several complete values. -/
def AllComplete : List (Value α) → Prop
  | [] => True
  | v :: vs => IsComplete v ∧ AllComplete vs

end

theorem allComplete_iff {vs : List (Value α)} : AllComplete vs ↔ ∀ v ∈ vs, v.IsComplete := by
  induction vs with
  | nil => exact ⟨fun _ _ hm => absurd hm List.not_mem_nil, fun _ => trivial⟩
  | cons v vs ih => rw [AllComplete, ih, List.forall_mem_cons]

mutual

/-- **A complete value of a type** fits it. -/
theorem IsComplete.fits (v : Value α) {ty : ValueType} (hv : v.IsComplete)
    (h : v.hasType ty = true) : v.Fits ty := by
  cases v with
  | tensor t =>
    cases ty with
    | tuple tys => cases h
    | tensor spec =>
      have hspec : t.spec = spec := eq_of_beq h
      exact ⟨hspec, hspec ▸ hv⟩
  | tuple vs =>
    cases ty with
    | tensor spec => cases h
    | tuple tys => exact AllComplete.fits vs hv h

theorem AllComplete.fits (vs : List (Value α)) {tys : List ValueType} (hv : AllComplete vs)
    (h : haveTypes vs tys = true) : FitAll vs tys := by
  cases vs with
  | nil =>
    cases tys with
    | nil => trivial
    | cons ty tys => cases h
  | cons v vs =>
    cases tys with
    | nil => cases h
    | cons ty tys =>
      rw [haveTypes, Bool.and_eq_true] at h
      exact ⟨IsComplete.fits v hv.1 h.1, AllComplete.fits vs hv.2 h.2⟩

end

theorem IsComplete.component {v w : Value α} {index : Nat} (hv : v.IsComplete)
    (h : v.component index = .ok w) : w.IsComplete := by
  obtain ⟨vs, rfl, hw⟩ := component_eq_ok_iff.mp h
  exact allComplete_iff.mp hv w (List.mem_of_getElem? hw)

end Value

/-- **`IsComplete`** -- opaque operators return complete tensors. -/
def CustomKernels.IsComplete (custom : CustomKernels α) : Prop :=
  ∀ target inputs output t, custom target inputs output = some (.ok t) →
    t.data.size = t.spec.elementCount

/-- The result of a call is complete. -/
theorem Kernel.isComplete_of_run (hcustom : custom.IsComplete) {op : Operation}
    {inputs : List (Tensor α)} {output : TensorSpec} {t : Tensor α}
    (h : Kernel.run ar custom op inputs output = .ok t) : t.data.size = t.spec.elementCount := by
  cases hop : op.isCustom with
  | false =>
    obtain ⟨hspec, hsize⟩ := fits_of_run h hop
    rw [hsize, hspec]
  | true =>
    cases op with
    | customCall target =>
      rw [run] at h
      cases hc : custom target inputs output with
      | none =>
        rw [hc] at h
        simp at h
      | some result =>
        rw [hc, Option.getD_some] at h
        exact hcustom target inputs output t (hc.trans (congrArg some h))
    | _ => cases hop

/-! ## Literals that are read -/

/-- A literal that denotes a tensor is of a floating type, and the tensor is complete. -/
theorem Literal.spec_of_ofLiteral {l : Literal} {t : Tensor α}
    (h : Tensor.ofLiteral ar l = .ok t) : l.IsFloat ∧ t.data.size = t.spec.elementCount := by
  rw [Tensor.ofLiteral_exact] at h
  split at h
  · next words hw =>
    obtain ⟨hsize, rfl⟩ := Tensor.ofData_eq_ok_iff.mp h
    refine ⟨?_, hsize⟩
    rw [words?] at hw
    split at hw
    · next hlen =>
      refine ⟨?_, hlen⟩
      rw [decode?] at hw
      split at hw
      · next hd => exact .inl hd
      · next hd => exact .inr hd
      · cases hw
    · cases hw
  · cases h

namespace Env

variable {env env' : Env α}

theorem isFloat_of_operand {x : Operand} {v : Value α} (h : env.operand ar x = .ok v) :
    ∀ l, x.constant? = some l → l.IsFloat := by
  intro l hl
  cases x with
  | value id => cases hl
  | tupleElement tuple index => cases hl
  | literal constant =>
    cases hl
    obtain ⟨t, ht, _⟩ := map_eq_ok_iff.mp h
    exact (Literal.spec_of_ofLiteral ht).1

mutual

theorem isFloat_of_field (field : TupleField) {v : Value α} (h : env.field ar field = .ok v) :
    ∀ l ∈ field.constants, l.IsFloat := by
  cases field with
  | operand x =>
    intro l hl
    exact isFloat_of_operand h l (Option.mem_toList.mp hl)
  | tuple fields =>
    obtain ⟨vs, hvs, _⟩ := map_eq_ok_iff.mp h
    exact isFloat_of_fields fields hvs

theorem isFloat_of_fields (fields : List TupleField) {vs : List (Value α)}
    (h : env.fields ar fields = .ok vs) : ∀ l ∈ TupleField.constantsList fields, l.IsFloat := by
  cases fields with
  | nil => exact fun l hl => absurd hl List.not_mem_nil
  | cons field rest =>
    rw [Env.fields] at h
    obtain ⟨w, hw, h⟩ := bind_eq_ok_iff.mp h
    obtain ⟨ws, hws, _⟩ := bind_eq_ok_iff.mp h
    intro l hl
    rw [TupleField.constantsList] at hl
    exact (List.mem_append.mp hl).elim (isFloat_of_field field hw l) (isFloat_of_fields rest hws l)

end

/-- **The literals of an expression** that has a value are of floating types. -/
theorem isFloat_of_expr {b : Binding} {v : Value α} (h : env.expr ar custom b = .ok v) :
    ∀ l ∈ b.expr.constants, l.IsFloat := by
  obtain ⟨id, name, e, ty⟩ := b
  cases e with
  | call op xs =>
    cases ty with
    | tuple tys => cases h
    | tensor spec =>
      obtain ⟨ts, t, hts, _, _⟩ := expr_call_eq_ok_iff.mp h
      intro l hl
      obtain ⟨x, hx, hxl⟩ := List.mem_filterMap.mp hl
      obtain ⟨u, _, hu⟩ := forall₂_exists_of_mem (mapM_eq_ok_iff.mp hts) hx
      exact isFloat_of_operand (tensorOperand_eq_ok_iff.mp hu) l hxl
  | tuple fields =>
    obtain ⟨vs, hvs, _⟩ := map_eq_ok_iff.mp h
    exact isFloat_of_fields fields hvs
  | tupleGet tuple index => exact fun l hl => absurd hl List.not_mem_nil
  | «alias» x =>
    intro l hl
    exact isFloat_of_operand h l (Option.mem_toList.mp hl)

/-! ## Complete environments -/

/-- **`IsComplete`** -- every value that is found is complete. -/
def IsComplete (env : Env α) : Prop := ∀ id v, env.lookup id = .ok v → v.IsComplete

theorem IsComplete.push (henv : env.IsComplete) (id : ValueId) {v : Value α} (hv : v.IsComplete) :
    (env.push id v).IsComplete := by
  intro other w h
  rw [lookup_push] at h
  split at h
  · cases h
    exact hv
  · exact henv other w h

theorem IsComplete.operand (henv : env.IsComplete) {x : Operand} {v : Value α}
    (h : env.operand ar x = .ok v) : v.IsComplete := by
  cases x with
  | value id => exact henv id v h
  | tupleElement tuple index =>
    obtain ⟨whole, hwhole, hv⟩ := bind_eq_ok_iff.mp h
    exact (henv tuple whole hwhole).component hv
  | literal constant =>
    obtain ⟨t, ht, rfl⟩ := map_eq_ok_iff.mp h
    exact (Literal.spec_of_ofLiteral ht).2

mutual

theorem IsComplete.field (henv : env.IsComplete) (field : TupleField) {v : Value α}
    (h : env.field ar field = .ok v) : v.IsComplete := by
  cases field with
  | operand x => exact henv.operand h
  | tuple fields =>
    obtain ⟨vs, hvs, rfl⟩ := map_eq_ok_iff.mp h
    exact IsComplete.fields henv fields hvs

theorem IsComplete.fields (henv : env.IsComplete) (fields : List TupleField)
    {vs : List (Value α)} (h : env.fields ar fields = .ok vs) : Value.AllComplete vs := by
  cases fields with
  | nil =>
    cases h
    trivial
  | cons field rest =>
    rw [Env.fields] at h
    obtain ⟨w, hw, h⟩ := bind_eq_ok_iff.mp h
    obtain ⟨ws, hws, h⟩ := bind_eq_ok_iff.mp h
    cases h
    exact ⟨IsComplete.field henv field hw, IsComplete.fields henv rest hws⟩

end

theorem IsComplete.expr (henv : env.IsComplete) (hcustom : custom.IsComplete) {b : Binding}
    {v : Value α} (h : env.expr ar custom b = .ok v) : v.IsComplete := by
  obtain ⟨id, name, e, ty⟩ := b
  cases e with
  | call op xs =>
    cases ty with
    | tuple tys => cases h
    | tensor spec =>
      obtain ⟨ts, t, _, hrun, rfl⟩ := expr_call_eq_ok_iff.mp h
      exact Kernel.isComplete_of_run hcustom hrun
  | tuple fields =>
    obtain ⟨vs, hvs, rfl⟩ := map_eq_ok_iff.mp h
    exact henv.fields fields hvs
  | tupleGet tuple index =>
    have hx : env.operand ar (.tupleElement tuple index) = .ok v := h
    exact henv.operand hx
  | «alias» x => exact henv.operand h

/-- **Bindings keep an environment complete.** -/
theorem IsComplete.run (henv : env.IsComplete) (hcustom : custom.IsComplete) {bs : List Binding}
    (h : bs.foldlM (step ar custom) env = .ok env') : env'.IsComplete := by
  induction bs generalizing env with
  | nil =>
    cases h
    exact henv
  | cons b bs ih =>
    obtain ⟨mid, hstep, hrest⟩ := foldlM_cons_eq_ok_iff.mp h
    obtain ⟨v, hv, _, rfl⟩ := step_eq_ok_iff.mp hstep
    exact ih (henv.push b.id (henv.expr hcustom hv)) hrest

theorem IsComplete.pushAll (henv : env.IsComplete) {inputs : List (Param × Value α)}
    (h : ∀ input ∈ inputs, input.2.IsComplete) : (env.pushAll inputs).IsComplete := by
  induction inputs generalizing env with
  | nil => exact henv
  | cons input inputs ih =>
    obtain ⟨hinput, hrest⟩ := List.forall_mem_cons.mp h
    exact ih (henv.push input.1.id hinput) hrest

theorem isComplete_empty : (empty : Env α).IsComplete := by
  intro _ _ h
  cases h

/-! ## Typed environments -/

/-- **`HasTypes`** -- an environment has a value of its type for each value of a context. -/
def HasTypes (env : Env α) (Γ : Context) : Prop :=
  ∀ id ty, Γ.typeOf? id = some ty → ∃ v, env.lookup id = .ok v ∧ v.hasType ty = true

variable {Γ : Context}

theorem HasTypes.push (henv : env.HasTypes Γ) {id : ValueId} (hid : id ∉ Γ.ids) {v : Value α}
    {ty : ValueType} (hv : v.hasType ty = true) : (env.push id v).HasTypes (Γ ++ [(id, ty)]) :=
  exists_lookup_push henv hid hv

/-- **Bindings that have run** have values of the types that they declare. -/
theorem HasTypes.run (henv : env.HasTypes Γ) {bs : List Binding} (hbs : Γ.Accepts bs)
    (h : bs.foldlM (step ar custom) env = .ok env') :
    env'.HasTypes (Γ ++ bs.map Binding.entry) := by
  induction bs generalizing env Γ with
  | nil =>
    cases h
    rwa [List.map_nil, List.append_nil]
  | cons b bs ih =>
    obtain ⟨mid, hstep, hrest⟩ := foldlM_cons_eq_ok_iff.mp h
    obtain ⟨v, _, hv, rfl⟩ := step_eq_ok_iff.mp hstep
    have := ih (henv.push hbs.1 hv) hbs.2.2 hrest
    rwa [List.append_assoc, List.singleton_append] at this

theorem HasTypes.pushAll (henv : env.HasTypes Γ) {ps : List Param} {vs : List (Value α)}
    (hlen : ps.length = vs.length) (hn : (Γ.ids ++ ps.map Param.id).Nodup)
    (h : ∀ p v, (p, v) ∈ ps.zip vs → v.hasType p.ty = true) :
    (env.pushAll (ps.zip vs)).HasTypes (Γ ++ ps.map Param.entry) := by
  induction ps generalizing env Γ vs with
  | nil => rwa [List.map_nil, List.append_nil]
  | cons p ps ih =>
    cases vs with
    | nil => cases hlen
    | cons v vs =>
      have hid : p.id ∉ Γ.ids := fun hm =>
        (List.disjoint_of_nodup_append hn) hm List.mem_cons_self
      have hn' : (Context.ids (Γ ++ [p.entry]) ++ ps.map Param.id).Nodup := by
        rw [Context.ids_append, List.append_assoc]
        exact hn
      have := ih (henv.push hid (h p v List.mem_cons_self)) (Nat.succ.inj hlen) hn'
        fun q w hm => h q w (List.mem_cons_of_mem _ hm)
      rwa [List.append_assoc, List.singleton_append] at this

/-- A complete environment of typed values fits. -/
theorem HasTypes.fits (henv : env.HasTypes Γ) (hc : env.IsComplete) : env.Fits Γ := by
  intro id ty h
  obtain ⟨v, hv, hty⟩ := henv id ty h
  exact ⟨v, hv, (hc id v hv).fits v hty⟩

end Env

/-! ## Functions -/

namespace Function

variable {f : Function} {inputs : List (Value α)} {start final : Env α}

/-- **After a run** every value of the function has its type. -/
theorem WellFormed.hasTypes_of_run (hw : f.WellFormed) (hlen : f.params.length = inputs.length)
    (hstart : Env.empty.pushInputs (f.params.zip inputs) = .ok start)
    (hrun : f.bindings.foldlM (Env.step ar custom) start = .ok final) :
    final.HasTypes f.context := by
  obtain ⟨htypes, rfl⟩ := Env.pushInputs_eq_ok_iff.mp hstart
  have hempty : (Env.empty : Env α).HasTypes [] := fun _ _ h => by cases h
  exact (hempty.pushAll hlen hw.params_nodup htypes).run hw.accepts hrun

/-- **After a run on complete inputs** every value is complete. -/
theorem isComplete_of_run (hcustom : custom.IsComplete) (hin : ∀ v ∈ inputs, v.IsComplete)
    (hstart : Env.empty.pushInputs (f.params.zip inputs) = .ok start)
    (hrun : f.bindings.foldlM (Env.step ar custom) start = .ok final) : final.IsComplete := by
  obtain ⟨_, rfl⟩ := Env.pushInputs_eq_ok_iff.mp hstart
  refine (Env.isComplete_empty.pushAll fun input hm => ?_).run hcustom hrun
  exact hin input.2 (List.of_mem_zip hm).2

/-- **A run reads every literal**, so that all are of floating types. -/
theorem isFloat_of_run {bs : List Binding}
    (hrun : bs.foldlM (Env.step ar custom) start = .ok final) :
    ∀ b ∈ bs, ∀ l ∈ b.expr.constants, l.IsFloat := by
  induction bs generalizing start with
  | nil => exact fun b hb => absurd hb List.not_mem_nil
  | cons b bs ih =>
    obtain ⟨mid, hstep, hrest⟩ := foldlM_cons_eq_ok_iff.mp hrun
    obtain ⟨v, hv, _, _⟩ := Env.step_eq_ok_iff.mp hstep
    exact List.forall_mem_cons.mpr ⟨Env.isFloat_of_expr hv, ih hrest⟩

end Function

end TensorGraph
