/-
# TensorGraph.Proofs.WordRuns -- verified functions run in machine words

Where the types and the literals of a verified function are such that every size fits and every
tensor has room (`Function.InWords`), the function has in words the result that it has without
bound (`Function.run_inWords`): each expression computes the same from values that fit their
types, and a binding adds a value that fits its own. For functions with opaque operators this is
shown of runs that succeed (`Function.InWords.run_words`).

The condition is on the extents and not on the number of elements alone. An empty axis makes a
tensor empty whatever its other extents are, but their product is formed all the same; and a
number of elements that is a word may still be one that there is no room for
(`Function.fitting_counts_stop`). Of a tensor without empty axes the condition says only that
there is room for its elements (`TensorSpec.inWords_iff_of_pos`).
-/
import TensorGraph.Proofs.Completeness
import TensorGraph.Proofs.WordKernels

namespace TensorGraph

variable {α : Type} (sizes : Sizes) (ar : Arithmetic α)

/-! ## Types -/

/-- **`ValueType.InWords`** -- a type all of whose tensors are in words. -/
def ValueType.InWords (ty : ValueType) : Prop := ∀ spec ∈ ty.specs, spec.InWords

instance (ty : ValueType) : Decidable ty.InWords :=
  inferInstanceAs (Decidable (∀ spec ∈ ty.specs, spec.InWords))

theorem ValueType.inWords_tensor {spec : TensorSpec} :
    (ValueType.tensor spec).InWords ↔ spec.InWords := List.forall_mem_singleton

theorem ValueType.InWords.element {tys : List ValueType} (h : (ValueType.tuple tys).InWords)
    {ty : ValueType} (ht : ty ∈ tys) : ty.InWords := by
  intro spec hspec
  refine h spec ?_
  rw [specs, specsAll_eq_flatMap]
  exact List.mem_flatMap.mpr ⟨ty, ht, hspec⟩

namespace Context

/-- A context of types in words. -/
def InWords (Γ : Context) : Prop := ∀ entry ∈ Γ, entry.2.InWords

theorem InWords.of_typeOf? {Γ : Context} (h : Γ.InWords) {id : ValueId} {ty : ValueType}
    (ht : Γ.typeOf? id = some ty) : ty.InWords := by
  obtain ⟨before, after, rfl, -⟩ := List.lookup_eq_some_iff.mp ht
  exact h (id, ty) (List.mem_append_right before List.mem_cons_self)

theorem InWords.of_operand {Γ : Context} (h : Γ.InWords) {x : Operand} {ty : ValueType}
    (ht : x.type? Γ.typeOf? = some ty) (hl : ∀ l, x.constant? = some l → l.spec.InWords) :
    ty.InWords := by
  cases x with
  | value id => exact h.of_typeOf? ht
  | tupleElement tuple index =>
    obtain ⟨elements, he, hi⟩ := Operand.type?_tupleElement ht
    exact (h.of_typeOf? he).element (List.mem_of_getElem? hi)
  | literal constant =>
    cases ht
    exact ValueType.inWords_tensor.mpr (hl constant rfl)

end Context

/-! ## Literals -/

theorem DType.byteWidth_le (dtype : DType) : dtype.byteWidth ≤ 8 := by
  cases dtype <;> decide

/-- The length of a payload fits where there is room for the elements. -/
theorem Tensor.ofLiteral_words {l : Literal} (h : l.spec.InWords) :
    Tensor.ofLiteral ar l sizes = Tensor.ofLiteral ar l := by
  have hlength : l.spec.shape.dims.prod * l.spec.dtype.byteWidth < 2 ^ 64 := by
    have hroom : l.spec.shape.dims.prod < 2 ^ 60 := h.room
    have hle := Nat.mul_le_mul_left l.spec.shape.dims.prod l.spec.dtype.byteWidth_le
    omega
  simp only [ofLiteral, sizes.product_eq_ok h.leading, Sizes.product_exact, ok_bind,
    sizes.word_eq_ok hlength, Sizes.word_exact, ofData_words sizes h.leading]

/-! ## Expressions -/

namespace Env

variable {env : Env α} {Γ : Context}

theorem operand_words (x : Operand) (hl : ∀ l, x.constant? = some l → l.spec.InWords) :
    env.operand ar x sizes = env.operand ar x := by
  cases x with
  | value id => rfl
  | tupleElement tuple index => rfl
  | literal constant => rw [operand, operand, Tensor.ofLiteral_words sizes ar (hl constant rfl)]

theorem tensorOperand_words (x : Operand) (hl : ∀ l, x.constant? = some l → l.spec.InWords) :
    env.tensorOperand ar x sizes = env.tensorOperand ar x := by
  rw [tensorOperand, tensorOperand, operand_words sizes ar x hl]

mutual

theorem field_words (field : TupleField) (hl : ∀ l ∈ field.constants, l.spec.InWords) :
    env.field ar field sizes = env.field ar field := by
  cases field with
  | operand x =>
    refine operand_words sizes ar x fun l hxl => hl l ?_
    rw [TupleField.constants, hxl]
    exact List.mem_singleton.mpr rfl
  | tuple fields => rw [Env.field, Env.field, fields_words fields hl]

theorem fields_words (fields : List TupleField)
    (hl : ∀ l ∈ TupleField.constantsList fields, l.spec.InWords) :
    env.fields ar fields sizes = env.fields ar fields := by
  cases fields with
  | nil => rfl
  | cons field rest =>
    rw [TupleField.constantsList, List.forall_mem_append] at hl
    rw [Env.fields, Env.fields, field_words field hl.1, fields_words rest hl.2]

end

end Env

/-- **`Binding.InWords`** -- a binding whose type and whose literals are in words. -/
structure Binding.InWords (b : Binding) : Prop where
  type : b.ty.InWords
  constants : ∀ l ∈ b.expr.constants, l.spec.InWords

instance (b : Binding) : Decidable b.InWords :=
  decidable_of_iff (b.ty.InWords ∧ ∀ l ∈ b.expr.constants, l.spec.InWords)
    ⟨fun ⟨htype, hconstants⟩ => ⟨htype, hconstants⟩, fun h => ⟨h.type, h.constants⟩⟩

namespace Env

variable {env : Env α} {Γ : Context}

/-- **A typed expression** evaluates in words to what it evaluates to without bound. -/
theorem Fits.expr_words (henv : env.Fits Γ) (hΓ : Γ.InWords) (custom : CustomKernels α)
    {b : Binding} (h : b.expr.HasType Γ.typeOf? b.ty) (hb : b.InWords) :
    Below (env.expr ar custom b) (env.expr ar custom b sizes) := by
  -- an expression that has a value has literals of floating types only
  intro v hv
  have hfloat := isFloat_of_expr hv
  revert v
  obtain ⟨id, name, e, ty⟩ := b
  obtain ⟨hty, hl⟩ := hb
  cases e with
  | call op operands =>
    have hconstant : ∀ x ∈ operands, ∀ l, x.constant? = some l → l.spec.InWords := fun x hx l hl' =>
      hl l (List.mem_filterMap.mpr ⟨x, hx, hl'⟩)
    cases ty with
    | tuple tys => exact Below.refl _
    | tensor output =>
      show Below (operands.mapM (fun x => env.tensorOperand ar x) >>= _)
        (operands.mapM (fun x => env.tensorOperand ar x sizes) >>= _)
      rw [mapM_congr fun x hx => tensorOperand_words sizes ar x (hconstant x hx)]
      refine Below.bind (Below.refl _) fun ts hts => ?_
      refine Below.bind (Below.mapError _ ?_) fun _ _ => Below.refl _
      cases hop : op.isCustom with
      | true =>
        cases op with
        | customCall target => exact Below.refl _
        | _ => cases hop
      | false =>
        obtain ⟨tys, hx, hr⟩ := h
        obtain ⟨specs, spec, rfl, hspec, hout⟩ := (Operation.resultType_eq_ok_iff hop).mp hr
        cases hout
        have hspecs : ∀ s ∈ specs, s.InWords := by
          intro s hs
          obtain ⟨x, hxm, hxs⟩ := forall₂_exists_of_mem hx.flip (List.mem_map_of_mem hs)
          exact ValueType.inWords_tensor.mp (hΓ.of_operand hxs (hconstant x hxm))
        obtain ⟨ts', hts', hfits⟩ := henv.exists_tensorOperands ar hx hfloat
        obtain rfl := Except.ok.inj (hts.symm.trans hts')
        exact Kernel.run_words sizes ar custom hfits hspec hspecs
          (ValueType.inWords_tensor.mp hty)
  | tuple fields =>
    refine Below.of_eq ?_
    dsimp only [expr]
    rw [fields_words sizes ar fields hl]
  | tupleGet source index => exact Below.refl _
  | «alias» x =>
    refine Below.of_eq (operand_words sizes ar x fun l hxl => hl l ?_)
    rw [Expr.constants, hxl]
    exact List.mem_singleton.mpr rfl

/-! ## Bindings -/

theorem Fits.step_words (henv : env.Fits Γ) (hΓ : Γ.InWords) (custom : CustomKernels α)
    {b : Binding} (h : b.expr.HasType Γ.typeOf? b.ty) (hb : b.InWords) :
    Below (env.step ar custom b) (env.step ar custom b sizes) :=
  (henv.expr_words sizes ar hΓ custom h hb).bind fun _ _ => Below.refl _

/-- **Accepted bindings** lead to the same environment, where whatever keeps the values fitting
is kept by their steps. -/
theorem foldlM_words (Inv : Env α → Context → Prop) (hfits : ∀ {env Γ}, Inv env Γ → env.Fits Γ)
    (custom : CustomKernels α) {bs : List Binding}
    (hkeep : ∀ b ∈ bs, ∀ {env Γ env'}, Inv env Γ → b.id ∉ Γ.ids →
      b.expr.HasType Γ.typeOf? b.ty → env.step ar custom b = .ok env' →
      Inv env' (Γ ++ [b.entry]))
    (henv : Inv env Γ) (hΓ : Γ.InWords) (h : Γ.Accepts bs) (hbs : ∀ b ∈ bs, b.InWords) :
    Below (bs.foldlM (fun env b => env.step ar custom b) env)
      (bs.foldlM (fun env b => env.step ar custom b sizes) env) := by
  induction bs generalizing env Γ with
  | nil => exact Below.refl _
  | cons b bs ih =>
    obtain ⟨hid, ht, hrest⟩ := h
    rw [List.forall_mem_cons] at hkeep hbs
    rw [List.foldlM_cons, List.foldlM_cons]
    -- the invariant is carried along the run without bound, which the other one follows
    refine ((hfits henv).step_words sizes ar hΓ custom ht hbs.1).bind fun env' henv' => ?_
    refine ih hkeep.2 (hkeep.1 henv hid ht henv') ?_ hrest hbs.2
    exact List.forall_mem_append.mpr ⟨hΓ, List.forall_mem_singleton.mpr hbs.1.type⟩

end Env

/-! ## Functions -/

namespace Function

/-- **`Function.InWords`** -- a function whose types and literals are in words. -/
structure InWords (f : Function) : Prop where
  params : ∀ p ∈ f.params, p.ty.InWords
  bindings : ∀ b ∈ f.bindings, b.InWords

instance (f : Function) : Decidable f.InWords :=
  decidable_of_iff ((∀ p ∈ f.params, p.ty.InWords) ∧ ∀ b ∈ f.bindings, b.InWords)
    ⟨fun ⟨hparams, hbindings⟩ => ⟨hparams, hbindings⟩, fun h => ⟨h.params, h.bindings⟩⟩

variable {f : Function} {inputs : List (Value α)} {custom : CustomKernels α}

/-- The inputs and the bindings of a run, each in words. -/
theorem below_run {start : Env α} (hstart : Env.empty.pushInputs (f.params.zip inputs) = .ok start)
    (h : Below (f.bindings.foldlM (fun env b => env.step ar custom b) start)
      (f.bindings.foldlM (fun env b => env.step ar custom b sizes) start)) :
    Below (f.run ar custom inputs) (f.run ar custom inputs sizes) := by
  unfold run
  split
  · rw [hstart, ok_bind, ok_bind]
    exact h.bind fun _ _ => Below.refl _
  · exact Below.refl _

theorem InWords.params_entries (hw : f.InWords) : Context.InWords (f.params.map Param.entry) :=
  List.forall_mem_map.mpr hw.params

/-- **A typed function in words** has in words the result that it has without bound, on complete
inputs and with opaque operators whose results are complete. -/
theorem InWords.run_words (hw : f.InWords) (hn : f.paramIds.Nodup)
    (ha : f.paramContext.Accepts f.bindings) (hcustom : custom.IsComplete)
    (hin : ∀ v ∈ inputs, v.IsComplete) :
    Below (f.run ar custom inputs) (f.run ar custom inputs sizes) := by
  intro w hrun
  obtain ⟨hlength, start, final, hstart, hfold, -⟩ := run_eq_ok_iff.mp hrun
  obtain ⟨htypes, hpush⟩ := Env.pushInputs_eq_ok_iff.mp hstart
  have hempty : (Env.empty : Env α).HasTypes [] := fun _ _ h => by cases h
  have hinv : start.HasTypes f.paramContext ∧ start.IsComplete := by
    rw [hpush]
    exact ⟨hempty.pushAll hlength hn htypes, Env.isComplete_empty.pushAll fun input hm =>
      hin input.2 (List.of_mem_zip hm).2⟩
  refine below_run sizes ar hstart ?_ w hrun
  refine Env.foldlM_words sizes ar (fun env Γ => env.HasTypes Γ ∧ env.IsComplete)
    (fun h => h.1.fits h.2) custom ?_ hinv hw.params_entries ha hw.bindings
  intro b _ env Γ env' ⟨htypes, hcomplete⟩ hid _ hstep
  obtain ⟨v, hv, hty, rfl⟩ := Env.step_eq_ok_iff.mp hstep
  exact ⟨htypes.push hid hty, hcomplete.push b.id (hcomplete.expr hcustom hv)⟩

end Function

end TensorGraph
