/-
# TensorGraph.Proofs.CallTyping -- when a call has a type

For each operator the condition on the operands under which a call has a type, and the
type. Every statement is an equivalence, so that it serves both to take a typed call apart
and to type a new one.
-/
import TensorGraph.Proofs.Outcome
import TensorGraph.Typing.Call

namespace TensorGraph

/-! ## Operands -/

/-- The operands of a typed call are tensors. -/
theorem operandSpecs_eq_ok_iff {op : Operation} {index : Nat} {tys : List ValueType}
    {specs : List TensorSpec} :
    operandSpecs op index tys = .ok specs ↔ tys = specs.map .tensor := by
  induction tys generalizing index specs with
  | nil =>
    rw [operandSpecs, eq_comm (a := []), List.map_eq_nil_iff]
    exact ⟨fun h => (Except.ok.inj h).symm, fun h => congrArg _ h.symm⟩
  | cons ty rest ih =>
    cases ty with
    | tuple elements =>
      rw [operandSpecs]
      cases specs with
      | nil => simp
      | cons spec specs => simp
    | tensor spec =>
      rw [operandSpecs]
      constructor
      · intro h
        split at h
        · next specs' hs =>
          cases h
          rw [List.map_cons, ih.mp hs]
        · simp at h
      · intro h
        cases specs with
        | nil => simp at h
        | cons spec' specs =>
          obtain ⟨hs, hr⟩ := List.cons.inj h
          cases hs
          rw [ih.mpr hr]

namespace Operation

variable {op : Operation} {specs : List TensorSpec} {out : TensorSpec}

theorem single_eq_ok_iff {x : TensorSpec} : op.single specs = .ok x ↔ specs = [x] := by
  constructor
  · intro h
    unfold single at h
    split at h
    · cases h
      rfl
    · simp at h
  · rintro rfl
    rfl

theorem pair_eq_ok_iff {x y : TensorSpec} :
    op.pair specs = .ok (x, y) ↔ specs = [x, y] ∧ x.dtype = y.dtype := by
  constructor
  · intro h
    unfold pair at h
    split at h
    · split at h
      · next hd =>
        cases h
        exact ⟨rfl, hd⟩
      · simp at h
    · simp at h
  · rintro ⟨rfl, hd⟩
    exact if_pos hd

theorem declaredSpec_eq_ok_iff {declared : Option ValueType} :
    op.declaredSpec specs declared = .ok out ↔ specs = [] ∧ declared = some (.tensor out) := by
  cases specs with
  | cons spec specs =>
    refine iff_of_false (fun h => ?_) (by simp)
    unfold declaredSpec at h
    split at h <;> simp_all
  | nil =>
    cases declared with
    | none => simp [declaredSpec]
    | some ty =>
      cases ty with
      | tuple elements => simp [declaredSpec, ValueType.spec?]
      | tensor spec =>
        constructor
        · intro h
          cases h
          exact ⟨rfl, rfl⟩
        · rintro ⟨_, h⟩
          cases h
          rfl

/-! ## Operators -/

theorem broadcastSpec_eq_ok_iff :
    op.broadcastSpec specs = .ok out ↔
      ∃ x y, specs = [x, y] ∧ x.dtype = y.dtype ∧ out.dtype = x.dtype ∧
        x.shape.broadcast? y.shape = some out.shape := by
  rw [broadcastSpec, bind_eq_ok_iff]
  constructor
  · rintro ⟨⟨x, y⟩, hp, h⟩
    obtain ⟨hs, hd⟩ := pair_eq_ok_iff.mp hp
    dsimp only at h
    split at h
    · next shape hb =>
      cases h
      exact ⟨x, y, hs, hd, rfl, hb⟩
    · simp at h
  · rintro ⟨x, y, hs, hd, ho, hb⟩
    obtain ⟨dtype, shape⟩ := out
    cases ho
    refine ⟨(x, y), pair_eq_ok_iff.mpr ⟨hs, hd⟩, ?_⟩
    dsimp only
    rw [hb]
    rfl

theorem matmulSpec_eq_ok_iff :
    matmulSpec specs = .ok out ↔
      ∃ x y m k n, specs = [x, y] ∧ x.dtype = y.dtype ∧ x.shape.dims = [m, k] ∧
        y.shape.dims = [k, n] ∧ out = ⟨x.dtype, ⟨[m, n]⟩⟩ := by
  rw [matmulSpec, bind_eq_ok_iff]
  constructor
  · rintro ⟨⟨x, y⟩, hp, h⟩
    obtain ⟨hs, hd⟩ := pair_eq_ok_iff.mp hp
    dsimp only at h
    split at h
    · next m k k' n hx hy =>
      split at h
      · next hk =>
        cases h
        exact ⟨x, y, m, k, n, hs, hd, hx, hk ▸ hy, rfl⟩
      · simp at h
    · simp at h
  · rintro ⟨x, y, m, k, n, hs, hd, hx, hy, rfl⟩
    refine ⟨(x, y), pair_eq_ok_iff.mpr ⟨hs, hd⟩, ?_⟩
    dsimp only
    rw [hx, hy]
    exact if_pos rfl

theorem transposeSpec_eq_ok_iff {perm : List Nat} :
    transposeSpec perm specs = .ok out ↔
      ∃ x, specs = [x] ∧ IsPermutation perm x.shape.rank ∧
        out = ⟨x.dtype, ⟨permuted x.shape.dims perm⟩⟩ := by
  rw [transposeSpec, bind_eq_ok_iff]
  refine exists_congr fun x => ?_
  rw [single_eq_ok_iff]
  refine and_congr_right fun _ => ?_
  by_cases hp : IsPermutation perm x.shape.rank
  · rw [if_pos hp]
    exact ⟨fun h => ⟨hp, (Except.ok.inj h).symm⟩, fun h => congrArg _ h.2.symm⟩
  · rw [if_neg hp]
    simp [hp]

theorem reshapeSpec_eq_ok_iff {dims : List Nat} :
    reshapeSpec dims specs = .ok out ↔
      ∃ x, specs = [x] ∧ Shape.elementCount ⟨dims⟩ = x.elementCount ∧
        out = ⟨x.dtype, ⟨dims⟩⟩ := by
  rw [reshapeSpec, bind_eq_ok_iff]
  refine exists_congr fun x => ?_
  rw [single_eq_ok_iff]
  refine and_congr_right fun _ => ?_
  by_cases hc : Shape.elementCount ⟨dims⟩ = x.elementCount
  · rw [if_pos hc]
    exact ⟨fun h => ⟨hc, (Except.ok.inj h).symm⟩, fun h => congrArg _ h.2.symm⟩
  · rw [if_neg hc]
    simp [hc]

theorem sumSpec_eq_ok_iff {axes : Option (List Nat)} {keepdims : Bool} :
    sumSpec axes keepdims specs = .ok out ↔
      ∃ x, specs = [x] ∧
        ((axes.getD []).Nodup ∧ ∀ axis ∈ axes.getD [], axis < x.shape.rank) ∧
        out = ⟨x.dtype, ⟨reducedDims axes keepdims x.shape.dims⟩⟩ := by
  rw [sumSpec, bind_eq_ok_iff]
  refine exists_congr fun x => ?_
  rw [single_eq_ok_iff]
  refine and_congr_right fun _ => ?_
  by_cases hc : (axes.getD []).Nodup ∧ ∀ axis ∈ axes.getD [], axis < x.shape.rank
  · rw [if_pos hc]
    exact ⟨fun h => ⟨hc, (Except.ok.inj h).symm⟩, fun h => congrArg _ h.2.symm⟩
  · rw [if_neg hc]
    simp [hc]

theorem softmaxSpec_eq_ok_iff {axis : Nat} :
    softmaxSpec axis specs = .ok out ↔ specs = [out] ∧ axis < out.shape.rank := by
  rw [softmaxSpec, bind_eq_ok_iff]
  constructor
  · rintro ⟨x, hx, h⟩
    by_cases ha : axis < x.shape.rank
    · rw [if_pos ha] at h
      cases h
      exact ⟨single_eq_ok_iff.mp hx, ha⟩
    · rw [if_neg ha] at h
      simp at h
  · rintro ⟨hs, ha⟩
    exact ⟨out, single_eq_ok_iff.mpr hs, if_pos ha⟩

theorem crossEntropySpec_eq_ok_iff :
    crossEntropySpec specs = .ok out ↔
      ∃ x y, specs = [x, y] ∧ x.dtype = y.dtype ∧ x.shape = y.shape ∧ x.shape.rank ≠ 0 ∧
        out = .scalar x.dtype := by
  rw [crossEntropySpec, bind_eq_ok_iff]
  constructor
  · rintro ⟨⟨x, y⟩, hp, h⟩
    obtain ⟨hs, hd⟩ := pair_eq_ok_iff.mp hp
    dsimp only at h
    split at h
    · simp at h
    · next he =>
      split at h
      · simp at h
      · next hr =>
        cases h
        exact ⟨x, y, hs, hd, not_not.mp he, hr, rfl⟩
  · rintro ⟨x, y, hs, hd, he, hr, rfl⟩
    refine ⟨(x, y), pair_eq_ok_iff.mpr ⟨hs, hd⟩, ?_⟩
    show (if x.shape ≠ y.shape then _ else if x.shape.rank = 0 then _ else _) = _
    rw [if_neg (not_not.mpr he), if_neg hr]
    rfl

theorem collapseSpec_eq_ok_iff :
    collapseSpec specs = .ok out ↔
      ∃ x, specs = [x, out] ∧ x.dtype = out.dtype ∧
        x.shape.broadcast? out.shape = some x.shape := by
  rw [collapseSpec, bind_eq_ok_iff]
  constructor
  · rintro ⟨⟨x, y⟩, hp, h⟩
    obtain ⟨hs, hd⟩ := pair_eq_ok_iff.mp hp
    dsimp only at h
    split at h
    · simp at h
    · next widened hw =>
      split at h
      · next he =>
        cases h
        exact ⟨x, hs, hd, he ▸ hw⟩
      · simp at h
  · rintro ⟨x, hs, hd, hb⟩
    refine ⟨(x, out), pair_eq_ok_iff.mpr ⟨hs, hd⟩, ?_⟩
    dsimp only
    rw [hb]
    exact if_pos rfl

/-! ## Calls -/

/-- Whether an operator is opaque. -/
def isCustom : Operation → Bool
  | customCall _ => true
  | _ => false

/-- **The type of a call** that is not opaque is the spec that its operands decide. -/
theorem resultType_eq_ok_iff {tys : List ValueType} {declared : Option ValueType}
    {ty : ValueType} (hop : op.isCustom = false) :
    op.resultType tys declared = .ok ty ↔
      ∃ specs spec, tys = specs.map .tensor ∧ op.resultSpec specs declared = .ok spec ∧
        ty = .tensor spec := by
  have hunfold : op.resultType tys declared = (operandSpecs op 0 tys >>= fun specs =>
      (op.resultSpec specs declared).map .tensor) := by
    rw [resultType]
    cases operandSpecs op 0 tys with
    | error e => rfl
    | ok specs =>
      cases op with
      | customCall target => cases hop
      | _ => rfl
  rw [hunfold, bind_eq_ok_iff]
  refine exists_congr fun specs => ?_
  rw [operandSpecs_eq_ok_iff, map_eq_ok_iff]
  constructor
  · rintro ⟨hs, spec, hr, rfl⟩
    exact ⟨spec, hs, hr, rfl⟩
  · rintro ⟨spec, hs, hr, rfl⟩
    exact ⟨hs, spec, hr, rfl⟩

end Operation

end TensorGraph
