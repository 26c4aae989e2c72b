/-
# TensorGraph.Proofs.Verdicts -- the faults that single assignment leaves

The verifier checks single assignment and distinct names first. Where both hold, it can only
object to the type of an expression or to what regions expose and what is returned
(`Function.SingleAssignment.failsWith_verify`); where regions expose values of their own and
all that is returned, types are the only matter left
(`Function.SingleAssignment.failsWith_typing`).
-/
import TensorGraph.Proofs.WellFormed

namespace TensorGraph

/-! ## Kinds of faults -/

/-- **`IsTyping`** -- a fault in the type of an expression. -/
inductive VerifyError.IsTyping : VerifyError → Prop
  | notATuple (binding : String) (id : ValueId) : IsTyping (.notATuple binding id)
  | tupleIndex (binding : String) (index arity : Nat) : IsTyping (.tupleIndex binding index arity)
  | shape (binding : String) (fault : ShapeError) : IsTyping (.shape binding fault)
  | typeMismatch (binding : String) (declared inferred : ValueType) :
    IsTyping (.typeMismatch binding declared inferred)

/-- **`IsExposure`** -- a fault in what a region exposes or in what is returned. -/
inductive VerifyError.IsExposure : VerifyError → Prop
  | outputNotInRegion (region : Nat) (id : ValueId) : IsExposure (.outputNotInRegion region id)
  | returnNotOutput (id : ValueId) : IsExposure (.returnNotOutput id)

/-! ## Checks that can only fail for a type -/

namespace FunctionIndex

variable {ix : FunctionIndex}

theorem failsWith_elementType (ix : FunctionIndex) (binding : String) (tuple : ValueId)
    (index : Nat) : FailsWith VerifyError.IsTyping (ix.elementType binding tuple index) := by
  rw [elementType]
  split
  · split
    · exact .of_ok _
    · exact .of_error (.tupleIndex binding index _)
  · exact .of_error (.notATuple binding tuple)

theorem failsWith_operandType (binding : String) {x : Operand}
    (h : ∀ id ∈ x.value?, id ∈ ix.ids) :
    FailsWith VerifyError.IsTyping (ix.operandType binding x) := by
  cases x with
  | value id =>
    have hsome : (ix.typeOf? id).isSome := by
      rw [typeOf?, Option.isSome_map]
      exact isSome_entryOf?.mpr (h id rfl)
    obtain ⟨ty, hty⟩ := Option.isSome_iff_exists.mp hsome
    rw [operandType, hty]
    exact .of_ok ty
  | tupleElement tuple index => exact ix.failsWith_elementType binding tuple index
  | literal constant => exact .of_ok _

mutual

theorem failsWith_fieldType (binding : String) (field : TupleField)
    (h : ∀ id ∈ field.values, id ∈ ix.ids) :
    FailsWith VerifyError.IsTyping (ix.fieldType binding field) := by
  cases field with
  | operand x =>
    refine failsWith_operandType binding fun id hid => h id ?_
    exact Option.mem_toList.mpr hid
  | tuple fields => exact (failsWith_fieldTypes binding fields h).map _

theorem failsWith_fieldTypes (binding : String) (fields : List TupleField)
    (h : ∀ id ∈ TupleField.valuesList fields, id ∈ ix.ids) :
    FailsWith VerifyError.IsTyping (ix.fieldTypes binding fields) := by
  cases fields with
  | nil => exact .of_ok []
  | cons field rest =>
    rw [TupleField.valuesList, List.forall_mem_append] at h
    exact (failsWith_fieldType binding field h.1).bind fun ty _ =>
      (failsWith_fieldTypes binding rest h.2).bind fun tys _ => .of_ok (ty :: tys)

end

/-- **An expression that reads known values** fails for its type only. -/
theorem failsWith_exprType {b : Binding} (h : ∀ id ∈ b.expr.values, id ∈ ix.ids) :
    FailsWith VerifyError.IsTyping (ix.exprType b) := by
  rw [exprType]
  revert h
  cases b.expr with
  | call op operands =>
    intro h
    refine FailsWith.bind (.mapM fun x hx => ?_) fun types _ => .mapError (.shape b.name)
    refine failsWith_operandType b.name fun id hid => h id ?_
    exact List.mem_filterMap.mpr ⟨x, hx, hid⟩
  | tuple fields => exact fun h => (failsWith_fieldTypes b.name fields h).map _
  | tupleGet tuple index => exact fun _ => ix.failsWith_elementType b.name tuple index
  | «alias» x =>
    intro h
    exact failsWith_operandType b.name fun id hid => h id (Option.mem_toList.mpr hid)

theorem failsWith_checkBinding {b : Binding} (h : ∀ id ∈ b.expr.values, id ∈ ix.ids) :
    FailsWith VerifyError.IsTyping (ix.checkBinding b) := by
  refine (failsWith_exprType h).bind fun ty _ => ?_
  split
  · exact .of_ok ()
  · exact .of_error (.typeMismatch b.name b.ty ty)

theorem failsWith_checkOutput (ix : FunctionIndex) (region : Nat) (id : ValueId) :
    FailsWith VerifyError.IsExposure (ix.checkOutput region id) := by
  rw [checkOutput]
  split
  · exact .of_ok ()
  · split
    · exact .of_ok ()
    · exact .of_error (.outputNotInRegion region id)
  · exact .of_error (.outputNotInRegion region id)

/-- What bindings in sequence read is known in the end. -/
theorem Sequenced.mem_of_mem_values {known : List ValueId} {bs : List Binding}
    (h : Sequenced known bs) {b : Binding} (hb : b ∈ bs) {id : ValueId}
    (hid : id ∈ b.expr.values) : id ∈ known ++ bs.map Binding.id := by
  induction bs generalizing known with
  | nil => exact absurd hb List.not_mem_nil
  | cons b' bs ih =>
    obtain ⟨hreads, -, hrest⟩ := h
    rcases List.mem_cons.mp hb with rfl | hb
    · exact List.mem_append_left _ (hreads id hid)
    · have := ih hrest hb
      rwa [List.append_assoc, List.singleton_append] at this

end FunctionIndex

/-! ## Functions -/

namespace Function

variable {f : Function} {e : VerifyError}

/-- **`SingleAssignment`** -- every value is defined once, under a name of its own, and read
only after that. -/
structure SingleAssignment (f : Function) : Prop where
  /-- Parameters are distinct. -/
  params_nodup : f.paramIds.Nodup
  /-- Bindings read what is known and define what is new. -/
  sequenced : FunctionIndex.Sequenced f.paramIds f.bindings
  /-- Names are distinct. -/
  names_nodup : f.valueNames.Nodup

namespace SingleAssignment

/-- **The index** of a function in single-assignment form can be built. -/
theorem exists_index (h : f.SingleAssignment) : ∃ ix, FunctionIndex.ofFunction f = .ok ix :=
  FunctionIndex.exists_ofFunction h.params_nodup h.sequenced

theorem ids_index {ix : FunctionIndex} (hix : FunctionIndex.ofFunction f = .ok ix) :
    ix.ids = f.paramIds ++ f.bindings.map Binding.id := by
  rw [← FunctionIndex.ids_context, FunctionIndex.context_ofFunction hix, ids_context]

/-- What the verifier still checks once the index is built and names are distinct: faults of
`P` in the bindings, of `Q` in the outputs and of `R` in what is returned. -/
theorem failsWith_of_checks (h : f.SingleAssignment) {P : VerifyError → Prop}
    (hbindings : ∀ e, e.IsTyping → P e)
    (houtputs : ∀ ix, FunctionIndex.ofFunction f = .ok ix →
      FailsWith P (f.regions.zipIdx.forM fun (r, region) => r.outputs.forM (ix.checkOutput region)))
    (hreturns : ∀ id ∈ f.ret.values, id ∉ f.exposed → P (.returnNotOutput id)) :
    FailsWith P f.verify := by
  obtain ⟨ix, hix⟩ := h.exists_index
  have hnames : firstRepeated? [] f.valueNames = none :=
    firstRepeated?_eq_none_iff.mpr ⟨h.names_nodup, by simp⟩
  have hchecks : FailsWith P (f.bindings.forM ix.checkBinding) := by
    refine .forM fun b hb => (FunctionIndex.failsWith_checkBinding fun id hid => ?_).mono hbindings
    rw [ids_index hix]
    exact h.sequenced.mem_of_mem_values hb hid
  rw [verify, hix, hnames]
  refine hchecks.bind fun _ _ => (houtputs ix hix).bind fun _ _ => ?_
  split
  · next id hfind =>
    refine .of_error (hreturns id (List.mem_of_find?_eq_some hfind) ?_)
    simpa using List.find?_some hfind
  · exact .of_ok ()

/-- **Single assignment** leaves the verifier faults of types and of exposure. -/
theorem failsWith_verify (h : f.SingleAssignment) :
    FailsWith (fun e => e.IsTyping ∨ e.IsExposure) f.verify := by
  refine h.failsWith_of_checks (fun e he => .inl he) (fun ix _ => ?_) fun id _ _ => ?_
  · refine .forM fun (r, region) _ => .forM fun id _ => ?_
    exact (ix.failsWith_checkOutput region id).mono fun e he => .inr he
  · exact .inr (.returnNotOutput id)

/-- **With regions that expose their own values** and all that is returned, single assignment
leaves faults of types. -/
theorem failsWith_typing (h : f.SingleAssignment)
    (houtputs : ∀ r ∈ f.regions, ∀ id ∈ r.outputs,
      id ∈ f.paramIds ∨ id ∈ r.bindings.map Binding.id)
    (hreturns : ∀ id ∈ f.ret.values, id ∈ f.exposed) :
    FailsWith VerifyError.IsTyping f.verify := by
  refine h.failsWith_of_checks (fun e he => he) (fun ix hix => ?_) fun id hid hno => ?_
  · have hn : ix.ids.Nodup := ids_index hix ▸ h.sequenced.nodup h.params_nodup
    rw [(outputs_checked_iff hix hn).mpr houtputs]
    exact .of_ok ()
  · exact absurd (hreturns id hid) hno

end SingleAssignment

end Function

end TensorGraph
