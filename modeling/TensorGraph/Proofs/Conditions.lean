/-
# TensorGraph.Proofs.Conditions -- when a loss fits behind a backbone

The checks before a composition, one after the other, and what each of them accepts. Together
they accept exactly a backbone and a loss that fit (`Appendable`): both are verified functions of
one region, the backbone returns a value or a flat tuple of values, the requested number of them
have the types of the first parameters of the loss, and the loss returns a scalar. What is left of
the transformation is the verification of its result (`Module.appendLoss_eq_ok_iff`).
-/
import TensorGraph.Transform.AppendLoss
import TensorGraph.Proofs.WellFormed

namespace TensorGraph

namespace Function

/-- **`Returns`** -- a function returns these values: alone or next to each other in a tuple. -/
def Returns (f : Function) (outputs : List ValueId) : Prop :=
  (∃ id, f.ret = .value id ∧ outputs = [id]) ∨ f.ret = .tuple (outputs.map .value)

/-! ## One check after the other -/

section Checks

variable {f backbone loss : Function} {outputs : List ValueId} {count : Nat}

theorem verifyPart_eq_ok_iff :
    f.verifyPart = .ok () ↔ f.regions.length = 1 ∧ f.verify = .ok () := by
  rw [verifyPart]
  split
  · next h =>
    rw [mapError_eq_ok_iff]
    exact (and_iff_right h).symm
  · next h => simp [h]

theorem flatValue_eq_ok_iff {element : ReturnExpr} {id : ValueId} :
    f.flatValue element = .ok id ↔ element = .value id := by
  cases element <;> simp [flatValue]

/-- **Flat returns** are recognised. -/
theorem flatReturn_eq_ok_iff : f.flatReturn = .ok outputs ↔ f.Returns outputs := by
  rw [flatReturn, Returns]
  cases f.ret with
  | value id => simp [eq_comm]
  | tuple elements =>
    have hall : List.Forall₂ (fun element id => f.flatValue element = .ok id) elements outputs ↔
        elements = outputs.map .value := by
      rw [← List.forall₂_eq_eq_eq, List.forall₂_map_right_iff]
      simp only [flatValue_eq_ok_iff]
    simp [mapM_eq_ok_iff, hall]

theorem checkCounts_eq_ok_iff {available : Nat} :
    checkCounts backbone loss available count = .ok () ↔
      1 ≤ count ∧ count ≤ available ∧ count ≤ loss.params.length := by
  rw [checkCounts]
  split
  · simp only [reduceCtorEq, false_iff]
    omega
  · split
    · simp only [reduceCtorEq, false_iff]
      omega
    · simp only [true_iff]
      omega

theorem checkPrediction_eq_ok_iff {index : Nat} {output : ValueId} {p : Param} :
    backbone.checkPrediction index output p = .ok () ↔ backbone.typeOf? output = some p.ty := by
  rw [checkPrediction]
  split
  · next h => simp [h]
  · next h => simp [h]

/-- **Predictions are accepted** when they have the types of the parameters in their places. -/
theorem checkPredictions_eq_ok_iff (ho : count ≤ outputs.length)
    (hp : count ≤ loss.params.length) :
    (((outputs.zip loss.params).take count).zipIdx.forM fun ((output, p), index) =>
        backbone.checkPrediction index output p) = .ok () ↔
      (outputs.take count).map backbone.typeOf? =
        (loss.params.take count).map (some ∘ Param.ty) := by
  have hlen : (outputs.take count).length = (loss.params.take count).length := by
    rw [List.length_take_of_le ho, List.length_take_of_le hp]
  have hzip : (outputs.zip loss.params).take count =
      (outputs.take count).zip (loss.params.take count) := List.take_zipWith
  rw [forM_eq_ok_iff, hzip, ← List.forall₂_eq_eq_eq, List.forall₂_map_left_iff,
    List.forall₂_map_right_iff, List.forall₂_iff_zip, and_iff_right hlen]
  constructor
  · intro h output p hm
    obtain ⟨index, hi⟩ := List.getElem?_of_mem hm
    refine checkPrediction_eq_ok_iff.mp (h ((output, p), index) ?_)
    exact List.mem_zipIdx_iff_getElem?.mpr hi
  · rintro h ⟨⟨output, p⟩, index⟩ hm
    have hi := List.mem_zipIdx_iff_getElem?.mp hm
    exact checkPrediction_eq_ok_iff.mpr (h (List.mem_of_getElem? hi))

theorem lossTarget_eq_ok_iff {target : ValueId} :
    loss.lossTarget = .ok target ↔ loss.ret = .value target ∧
      ∃ spec, loss.typeOf? target = some (.tensor spec) ∧ spec.shape.rank = 0 := by
  have hscalar : ∀ spec : TensorSpec, spec.isScalar = true ↔ spec.shape.rank = 0 := fun spec =>
    List.isEmpty_iff_length_eq_zero
  rw [lossTarget]
  cases loss.ret with
  | tuple elements => simp
  | value id =>
    dsimp only
    split
    · next spec htype =>
      split
      · next hs =>
        constructor
        · rintro ⟨⟩
          exact ⟨rfl, spec, htype, (hscalar spec).mp hs⟩
        · rintro ⟨⟨⟩, _⟩
          rfl
      · next hs =>
        simp only [reduceCtorEq, false_iff]
        rintro ⟨⟨⟩, spec', htype', hrank⟩
        rw [htype] at htype'
        cases htype'
        exact hs ((hscalar spec).mpr hrank)
    · next hother =>
      simp only [reduceCtorEq, false_iff]
      rintro ⟨⟨⟩, spec, htype, _⟩
      exact hother spec htype

end Checks

end Function

/-! ## All checks -/

/-- **`Appendable`** -- a loss fits behind a backbone that returns `outputs`, the first `count` of
which are predictions; `target` is what the loss returns. -/
structure Appendable (backbone loss : Function) (outputs : List ValueId) (count : Nat)
    (target : ValueId) : Prop where
  /-- The backbone has one region. -/
  backbone_region : backbone.regions.length = 1
  /-- The backbone is verified. -/
  backbone_verified : backbone.verify = .ok ()
  /-- The loss has one region. -/
  loss_region : loss.regions.length = 1
  /-- The loss is verified. -/
  loss_verified : loss.verify = .ok ()
  /-- The backbone returns a value or a flat tuple. -/
  returns : backbone.Returns outputs
  /-- There is a prediction. -/
  positive : 1 ≤ count
  /-- There are enough values for the predictions. -/
  available : count ≤ outputs.length
  /-- There are enough parameters for the predictions. -/
  taken : count ≤ loss.params.length
  /-- Predictions have the types of the parameters. -/
  typed : (outputs.take count).map backbone.typeOf? =
    (loss.params.take count).map (some ∘ Param.ty)
  /-- The loss returns its target. -/
  loss_returns : loss.ret = .value target
  /-- The target is a scalar. -/
  scalar : ∃ spec, loss.typeOf? target = some (.tensor spec) ∧ spec.shape.rank = 0

/-- The name of a composition: the one that is asked for, or the one by default. -/
def lossName (backboneName : String) (newName : Option String) : String :=
  newName.getD (defaultLossName backboneName)

namespace Module

variable {m : Module} {backboneName : String} {loss : Function} {count : Nat}
  {newName : Option String} {c : Function}

/-- **A loss is appended** exactly when it fits behind the backbone and the result is verified. -/
theorem appendLoss_eq_ok_iff :
    m.appendLoss backboneName loss count newName = .ok c ↔
      ∃ backbone outputs target, m.get? backboneName = some backbone ∧
        Appendable backbone loss outputs count target ∧ c.verify = .ok () ∧
          c = spliceLoss backbone loss outputs count target (lossName backboneName newName) := by
  rw [appendLoss]
  cases hget : m.get? backboneName with
  | none => simp
  | some backbone =>
    dsimp only
    constructor
    · intro h
      obtain ⟨⟨⟩, hbackbone, h⟩ := bind_eq_ok_iff.mp h
      obtain ⟨⟨⟩, hloss, h⟩ := bind_eq_ok_iff.mp h
      obtain ⟨outputs, houtputs, h⟩ := bind_eq_ok_iff.mp h
      obtain ⟨⟨⟩, hcounts, h⟩ := bind_eq_ok_iff.mp h
      obtain ⟨⟨⟩, htypes, h⟩ := bind_eq_ok_iff.mp h
      obtain ⟨target, htarget, h⟩ := bind_eq_ok_iff.mp h
      obtain ⟨⟨⟩, hverify, h⟩ := bind_eq_ok_iff.mp h
      obtain ⟨hbackboneRegion, hbackboneVerified⟩ := Function.verifyPart_eq_ok_iff.mp hbackbone
      obtain ⟨hlossRegion, hlossVerified⟩ := Function.verifyPart_eq_ok_iff.mp hloss
      obtain ⟨hpositive, havailable, htaken⟩ := Function.checkCounts_eq_ok_iff.mp hcounts
      obtain ⟨hret, hscalar⟩ := Function.lossTarget_eq_ok_iff.mp htarget
      obtain rfl := Except.ok.inj h
      refine ⟨backbone, outputs, target, rfl, ?_, mapError_eq_ok_iff.mp hverify, rfl⟩
      exact ⟨hbackboneRegion, hbackboneVerified, hlossRegion, hlossVerified,
        Function.flatReturn_eq_ok_iff.mp houtputs, hpositive, havailable, htaken,
        (Function.checkPredictions_eq_ok_iff havailable htaken).mp htypes, hret, hscalar⟩
    · rintro ⟨_, outputs, target, ⟨⟩, h, hverify, rfl⟩
      have htypes := (Function.checkPredictions_eq_ok_iff h.available h.taken).mpr h.typed
      refine bind_eq_ok_iff.mpr ⟨(), Function.verifyPart_eq_ok_iff.mpr
        ⟨h.backbone_region, h.backbone_verified⟩, ?_⟩
      refine bind_eq_ok_iff.mpr ⟨(), Function.verifyPart_eq_ok_iff.mpr
        ⟨h.loss_region, h.loss_verified⟩, ?_⟩
      refine bind_eq_ok_iff.mpr ⟨outputs, Function.flatReturn_eq_ok_iff.mpr h.returns, ?_⟩
      refine bind_eq_ok_iff.mpr ⟨(), Function.checkCounts_eq_ok_iff.mpr
        ⟨h.positive, h.available, h.taken⟩, ?_⟩
      refine bind_eq_ok_iff.mpr ⟨(), htypes, ?_⟩
      refine bind_eq_ok_iff.mpr ⟨target, Function.lossTarget_eq_ok_iff.mpr
        ⟨h.loss_returns, h.scalar⟩, ?_⟩
      exact bind_eq_ok_iff.mpr ⟨(), mapError_eq_ok_iff.mpr hverify, rfl⟩

end Module

end TensorGraph
