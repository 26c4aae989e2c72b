/-
# TensorGraph.Proofs.Swept -- sweeps that succeed

Whether a sweep succeeds depends on the rules it needs; what it leaves behind when it does, does
not. Calls may be opaque here, and a custom call may find the rule of an operator by its target:
a visit that succeeds has settled an adjoint and contributed to operands of the binding
(`SweepContext.exists_of_pass`), each contribution typed as its operand and built from the
adjoint, the result and the operands alone. So the state goes on fitting, its builder has been
appended to, and what is pending is plain, with tensors of types that a machine holds if it holds
the function (`SweepContext.Swept`). For a gradient that was made, this gives the sweep and the
bound gradients of which it consists (`Function.exists_of_differentiate`).
-/
import TensorGraph.Proofs.Closure
import TensorGraph.Proofs.Visits

namespace TensorGraph

namespace SweepContext

variable {c : SweepContext} {s s' : SweepState}

/-! ## What a sweep emits -/

/-- **`IsConstant`** -- a literal of the function that is differentiated. -/
def IsConstant (c : SweepContext) (l : Literal) : Prop :=
  ∃ b ∈ c.function.bindings, l ∈ b.expr.constants

/-- **`IsHint`** -- a name for what is emitted: that of intermediate values, or that of the
adjoint of a value. -/
def IsHint (c : SweepContext) (hint : String) : Prop :=
  hint = c.temp ∨ ∃ name ∈ c.function.valueNames, hint = c.adjointName name

/-- **`IsSized`** -- a type that a machine holds if it holds the function. -/
def IsSized (c : SweepContext) (ty : ValueType) : Prop := c.function.Storable → ty.Storable

/-- **`Emits`** -- an expression that the sweep may emit, under a hint and with a type. -/
def Emits (c : SweepContext) (hint : String) (e : Expr) (ty : ValueType) : Prop :=
  c.IsHint hint ∧ e.IsEmitted c.IsConstant ∧ c.IsSized ty

/-- **`Swept`** -- a state that a sweep has come to: it fits, bindings were appended, and what is
pending is plain. -/
structure Swept (c : SweepContext) (s : SweepState) : Prop where
  /-- The state fits. -/
  fits : c.Fits s
  /-- Bindings were appended. -/
  appends : c.start.Appends c.Emits s.builder
  /-- Pending adjoints are plain. -/
  plain : ∀ id a, s.adjoint? id = some a → a.IsPlain c.IsConstant c.IsSized

theorem isHint_temp (c : SweepContext) : c.IsHint c.temp := .inl rfl

theorem isHint_adjointName {name : String} (h : name ∈ c.function.valueNames) :
    c.IsHint (c.adjointName name) := .inr ⟨name, h, rfl⟩

theorem emits_of_hint {hint : String} (h : c.IsHint hint) :
    Emit.Admits c.Emits c.IsConstant c.IsSized hint := fun _ _ he hs => ⟨h, he, hs⟩

theorem stable_isSized (c : SweepContext) : ValueType.Stable c.IsSized :=
  ValueType.stable_storable.imp _

/-- The types of a function are sized. -/
theorem isSized_of_types (hc : c.Grounded) {id : ValueId} {ty : ValueType}
    (h : c.types id = some ty) : c.IsSized ty := by
  intro hf
  have hparams : ∀ p ∈ c.function.params, p.ty.Storable := fun p hp => (hf.param hp).2.2
  exact hc.wellFormed.forall_types hparams (fun b hb => (hf.binding hb).2.2.2) h

/-- The types that the operands of a call have are sized. -/
theorem isSized_of_operand (hc : c.Grounded) {b : Binding} (hb : b ∈ c.function.bindings)
    {op : Operation} {xs : List Operand} (he : b.expr = .call op xs) {x : Operand} (hx : x ∈ xs)
    {ty : ValueType} (h : x.type? c.types = some ty) : c.IsSized ty := by
  cases x with
  | value id => exact isSized_of_types hc h
  | tupleElement tuple index =>
    obtain ⟨elements, htuple, helement⟩ := Operand.type?_tupleElement h
    exact c.stable_isSized.component (isSized_of_types hc htuple) ty (List.mem_of_getElem? helement)
  | literal constant =>
    cases h
    intro hf
    have hexpr := (hf.binding hb).2.2.1
    rw [he] at hexpr
    exact (hexpr.2.2 _ hx).1

theorem name_mem_of_binding {f : Function} {b : Binding} (hb : b ∈ f.bindings) :
    b.name ∈ f.valueNames := List.mem_append_right _ (List.mem_map_of_mem hb)

theorem name_mem_of_param {f : Function} {p : Param} (hp : p ∈ f.params) :
    p.name ∈ f.valueNames := List.mem_append_left _ (List.mem_map_of_mem hp)

theorem emit_eq_ok_iff {α : Type} {step : Emit α} {r : α × SweepState} :
    c.emit s step = .ok r ↔
      ∃ x later, step.run s.builder = some (x, later) ∧ r = (x, { s with builder := later }) := by
  rw [emit]
  constructor
  · intro h
    split at h
    · next x later hrun =>
      cases h
      exact ⟨x, later, hrun, rfl⟩
    · cases h
  · rintro ⟨x, later, hrun, rfl⟩
    rw [hrun]

/-! ## Contributions that were made -/

/-- **Contributing** to an operand keeps a closed property of what is pending. -/
theorem Adds.closed {P : Adjoint → Prop} (hP : Adjoint.Closed c.IsSized P) (hc : c.Grounded)
    {x : Operand} {a : Adjoint} (h : c.Adds s x a s')
    (hs : ∀ id b, s.adjoint? id = some b → P b) (ha : P a) :
    ∀ id b, s'.adjoint? id = some b → P b := by
  rw [Adds] at h
  split at h
  · exact h ▸ hs
  · next key place hplace =>
    obtain ⟨ty, hkey, ⟨_, rfl⟩ | ⟨sum, hsum, rfl⟩⟩ := h
    · exact hs
    · have hcurrent : P (s.current key ty) := by
        rw [SweepState.current]
        cases hk : s.adjoint? key with
        | none => exact hP.zerosOf c.stable_isSized ty (isSized_of_types hc hkey)
        | some existing => exact hs key existing hk
      have hput : P sum := by
        cases place with
        | nil => exact hP.add _ a hsum hcurrent ha
        | cons index place => exact hP.addAt hsum hcurrent ha
      intro id b hb
      rw [SweepState.adjoint?_put] at hb
      split at hb
      · exact Option.some.inj hb ▸ hput
      · exact hs id b hb

/-- Suitable contributions keep a closed property of what is pending. -/
theorem Fits.closed_accumulateAll {P : Adjoint → Prop} (hP : Adjoint.Closed c.IsSized P)
    (hc : c.Grounded) (hs : c.Fits s) {cs : List (Operand × Adjoint)}
    (hsuit : c.Suitable s.builder.context.typeOf? cs) (h : c.accumulateAll s cs = .ok s')
    (hpending : ∀ id b, s.adjoint? id = some b → P b) (hcs : ∀ entry ∈ cs, P entry.2) :
    ∀ id b, s'.adjoint? id = some b → P b := by
  induction cs generalizing s with
  | nil =>
    cases h
    exact hpending
  | cons entry cs ih =>
    obtain ⟨mid, hmid, hrest⟩ := foldlM_cons_eq_ok_iff.mp h
    obtain ⟨⟨hx, ha⟩, hsuit⟩ := List.forall_mem_cons.mp hsuit
    obtain ⟨hentry, hcs⟩ := List.forall_mem_cons.mp hcs
    -- suitable contributions succeed, so the state that was reached is the one that fits
    obtain ⟨mid', hmid', hfits, hbuilder, hadds⟩ := hs.exists_accumulate hc hx ha
    rw [hmid] at hmid'
    cases hmid'
    exact ih hfits (hbuilder ▸ hsuit) hrest (hadds.closed hP hc hpending hentry) hcs

mutual

theorem routes_closed {P : Adjoint → Prop} (hP : Adjoint.Closed c.IsSized P) (field : TupleField)
    (a : Adjoint) (ha : P a) : ∀ entry ∈ routes field a, P entry.2 := by
  cases field with
  | operand x =>
    intro entry hm
    rw [routes] at hm
    cases List.mem_singleton.mp hm
    exact ha
  | tuple fields =>
    cases a with
    | leaf x spec => exact fun _ hm => absurd hm List.not_mem_nil
    | call op args spec => exact fun _ hm => absurd hm List.not_mem_nil
    | zeros spec => exact fun _ hm => absurd hm List.not_mem_nil
    | tuple components =>
      rw [routes]
      exact routesAll_closed hP fields components (hP.tuple.mp ha)

theorem routesAll_closed {P : Adjoint → Prop} (hP : Adjoint.Closed c.IsSized P)
    (fields : List TupleField) (as : List Adjoint) (ha : ∀ a ∈ as, P a) :
    ∀ entry ∈ routesAll fields as, P entry.2 := by
  cases fields with
  | nil =>
    rw [routesAll_nil]
    exact fun _ hm => absurd hm List.not_mem_nil
  | cons field fields =>
    cases as with
    | nil => exact fun _ hm => absurd hm List.not_mem_nil
    | cons a as =>
      obtain ⟨ha, has⟩ := List.forall_mem_cons.mp ha
      intro entry hm
      rw [routesAll] at hm
      rcases List.mem_append.mp hm with hm | hm
      · exact routes_closed hP field a ha entry hm
      · exact routesAll_closed hP fields as has entry hm

end

/-! ## Calls -/

/-- **A fitted partial** has the spec of its operand, and is the partial or a collapse of it. -/
theorem spec?_of_fitPartial {op : Operation} {arg a fitted : Adjoint}
    (h : c.fitPartial op arg a = .ok fitted) :
    fitted.spec? = arg.spec? ∧ (fitted = a ∨ a.collapseSumLike arg = .ok fitted) := by
  -- the check of the spec comes last, whether or not the partial was collapsed
  have keep : ∀ {found : Adjoint}, (if found.spec? = arg.spec? then .ok found
      else .error (c.ruleFailed op (.partialType found.type arg.type))) = Except.ok fitted →
        found.spec? = arg.spec? ∧ found = fitted := by
    intro found h
    split at h
    · next hspec => exact ⟨hspec, Except.ok.inj h⟩
    · cases h
  rw [fitPartial] at h
  by_cases hcollapse : (op.broadcasts && a.spec? != arg.spec?) = true
  · rw [if_pos hcollapse] at h
    obtain ⟨found, hfound, h⟩ := bind_eq_ok_iff.mp h
    obtain ⟨hspec, rfl⟩ := keep h
    exact ⟨hspec, .inr (mapError_eq_ok_iff.mp hfound)⟩
  · rw [if_neg hcollapse] at h
    obtain ⟨hspec, rfl⟩ := keep h
    exact ⟨hspec, .inl rfl⟩

/-- A fitted partial has what the partial and the operand have. -/
theorem fitPartial_closed {P : Adjoint → Prop} (hP : Adjoint.Closed c.IsSized P) {op : Operation}
    {arg a fitted : Adjoint} (h : c.fitPartial op arg a = .ok fitted) (ha : P a) (harg : P arg) :
    P fitted := by
  obtain ⟨_, rfl | hcollapse⟩ := spec?_of_fitPartial h
  · exact ha
  · exact hP.apply_two hcollapse trivial ha harg

/-- **Spreading partials** that succeeds contributes fitted partials to operands. -/
theorem exists_of_spread {op : Operation} {entries : List (Operand × Adjoint × Option Adjoint)}
    (h : c.spread op s entries = .ok s') :
    ∃ cs, c.accumulateAll s cs = .ok s' ∧ ∀ x fitted, (x, fitted) ∈ cs →
      ∃ arg p, (x, arg, some p) ∈ entries ∧ c.fitPartial op arg p = .ok fitted := by
  induction entries generalizing s with
  | nil => exact ⟨[], h, fun x fitted hm => absurd hm List.not_mem_nil⟩
  | cons entry entries ih =>
    obtain ⟨x, arg, p?⟩ := entry
    cases p? with
    | none =>
      obtain ⟨cs, hcs, hall⟩ := ih h
      refine ⟨cs, hcs, fun y fitted hm => ?_⟩
      obtain ⟨arg', p, hmem, hfit⟩ := hall y fitted hm
      exact ⟨arg', p, List.mem_cons_of_mem _ hmem, hfit⟩
    | some p =>
      obtain ⟨fitted, hfit, h⟩ := bind_eq_ok_iff.mp h
      obtain ⟨mid, hmid, h⟩ := bind_eq_ok_iff.mp h
      obtain ⟨cs, hcs, hall⟩ := ih h
      refine ⟨(x, fitted) :: cs, foldlM_cons_eq_ok_iff.mpr ⟨mid, hmid, hcs⟩, fun y found hm => ?_⟩
      rcases List.mem_cons.mp hm with hm | hm
      · cases hm
        exact ⟨arg, p, List.mem_cons_self, hfit⟩
      · obtain ⟨arg', p', hmem, hfit'⟩ := hall y found hm
        exact ⟨arg', p', List.mem_cons_of_mem _ hmem, hfit'⟩

theorem mem_zip_of_mem_zip_zip {α β γ : Type} {xs : List α} {ys : List β} {zs : List γ} {x : α}
    {y : β} {z : γ} (h : (x, y, z) ∈ xs.zip (ys.zip zs)) : (x, y) ∈ xs.zip ys := by
  obtain ⟨i, hi⟩ := List.mem_iff_getElem?.mp h
  obtain ⟨hx, hyz⟩ := List.getElem?_zip_eq_some.mp hi
  obtain ⟨hy, _⟩ := List.getElem?_zip_eq_some.mp hyz
  exact List.mem_iff_getElem?.mpr ⟨i, List.getElem?_zip_eq_some.mpr ⟨hx, hy⟩⟩

/-- The leaf of an operand reads a tensor of its spec. -/
theorem exists_of_operandLeaf (hc : c.Grounded) {x : Operand} {a : Adjoint}
    (h : c.operandLeaf x = .ok a) :
    ∃ spec, a = .leaf x spec ∧ x.type? c.types = some (.tensor spec) := by
  rw [operandLeaf] at h
  split at h
  · next spec htype =>
    cases h
    refine ⟨spec, rfl, ?_⟩
    rw [← hc.index]
    cases x with
    | value id => exact htype
    | tupleElement tuple index => exact htype
    | literal constant => exact htype
  · cases h

/-- **Contributions of a visit**: made one after the other, typed as their operands and plain. -/
def Made (c : SweepContext) (s : SweepState) (cs : List (Operand × Adjoint)) (s' : SweepState) :
    Prop :=
  c.accumulateAll s cs = .ok s' ∧ c.Suitable s.builder.context.typeOf? cs ∧
    ∀ entry ∈ cs, entry.2.IsPlain c.IsConstant c.IsSized

/-- **A visit of a call** applies the rule of its operator to leaves that stand for the operands
and spreads the partials. -/
theorem exists_rule_of_visitCall {b : Binding} {op : Operation} {xs : List Operand} {a : Adjoint}
    (h : c.visitCall s b op xs a = .ok s') :
    ∃ out rule args ps, b.ty = .tensor out ∧ c.rules.find? op.name = some rule ∧
      List.Forall₂ (fun x arg => c.operandLeaf x = .ok arg) xs args ∧
      rule ⟨op, args, .leaf (.value b.id) out, out⟩ a = .ok ps ∧
      c.spread op s (xs.zip (args.zip ps)) = .ok s' := by
  rw [visitCall] at h
  split at h
  · cases h
  · next out hty =>
    split at h
    · cases h
    · next rule hrule =>
      obtain ⟨args, hargs, h⟩ := bind_eq_ok_iff.mp h
      obtain ⟨ps, hps, h⟩ := bind_eq_ok_iff.mp h
      split at h
      · exact ⟨out, rule, args, ps, hty, hrule, mapM_eq_ok_iff.mp hargs,
          mapError_eq_ok_iff.mp hps, h⟩
      · cases h

/-- **Visiting a call** that succeeds contributes to its operands. -/
theorem exists_of_visitCall (hc : c.Grounded) (hs : c.Fits s) {b : Binding}
    (hb : b ∈ c.function.bindings) {op : Operation} {xs : List Operand}
    (he : b.expr = .call op xs) {a : Adjoint} (ha : a.Typed s.builder.context.typeOf?)
    (hplain : a.IsPlain c.IsConstant c.IsSized) (h : c.visitCall s b op xs a = .ok s') :
    ∃ cs, c.Made s cs s' := by
  obtain ⟨out, rule, args, ps, hty, hrule, hleaves, hps, h⟩ := exists_rule_of_visitCall h
  rw [hc.rules] at hrule
  -- both properties pass through the rule and the fitting
  have hP := (Adjoint.closed_typed c.IsSized s.builder.context.typeOf?).and
    (Adjoint.closed_isPlain c.stable_isSized c.IsConstant)
  have hleaf : ∀ {x arg}, x ∈ xs → c.operandLeaf x = .ok arg →
      arg.Typed s.builder.context.typeOf? ∧ arg.IsPlain c.IsConstant c.IsSized := by
    intro x arg hx hleaf
    obtain ⟨spec, rfl, htype⟩ := exists_of_operandLeaf hc hleaf
    refine ⟨hs.type? htype, fun l hl => ⟨b, hb, ?_⟩, isSized_of_operand hc hb he hx htype⟩
    rw [he]
    exact List.mem_filterMap.mpr ⟨x, hx, hl⟩
  have hsite : ∀ arg ∈ args,
      arg.Typed s.builder.context.typeOf? ∧ arg.IsPlain c.IsConstant c.IsSized := by
    intro arg harg
    obtain ⟨x, hx, hxa⟩ := forall₂_exists_of_mem hleaves.flip harg
    exact hleaf hx hxa
  have hresult : (Adjoint.leaf (.value b.id) out).Typed s.builder.context.typeOf? ∧
      (Adjoint.leaf (.value b.id) out).IsPlain c.IsConstant c.IsSized := by
    have hid : c.types b.id = some (.tensor out) := hty ▸ (hc.wellFormed.binding_spec hb).1
    exact ⟨hs.typeOf?_of_eq_some hid, Adjoint.isPlain_value (isSized_of_types hc hid)⟩
  have hpartials := GradientRule.keeps_of_find? hP c.stable_isSized
    (fun _ _ ha hspec => ha.2.sized_of_spec? hspec) hrule _ _ _ hps ⟨ha, hplain⟩ hresult hsite
  obtain ⟨cs, hcs, hall⟩ := exists_of_spread h
  have hentry : ∀ x fitted, (x, fitted) ∈ cs → x.type? c.types = some fitted.type ∧
      fitted.Typed s.builder.context.typeOf? ∧ fitted.IsPlain c.IsConstant c.IsSized := by
    intro x fitted hm
    obtain ⟨arg, p, hmem, hfit⟩ := hall x fitted hm
    obtain ⟨hx, hp⟩ := List.of_mem_zip hmem
    have hp := (List.of_mem_zip hp).2
    have hxa : (x, arg) ∈ xs.zip args := mem_zip_of_mem_zip_zip hmem
    have hxleaf := (List.forall₂_iff_zip.mp hleaves).2 hxa
    have hfitted := fitPartial_closed hP hfit (hpartials p hp) (hleaf hx hxleaf)
    obtain ⟨spec, rfl, htype⟩ := exists_of_operandLeaf hc hxleaf
    rw [Adjoint.type_of_spec? (spec?_of_fitPartial hfit).1]
    exact ⟨htype, hfitted⟩
  exact ⟨cs, hcs, fun entry hm => ⟨(hentry _ _ hm).1, (hentry _ _ hm).2.1⟩,
    fun entry hm => (hentry _ _ hm).2.2⟩

/-- **Passing on** that succeeds contributes to the operands of the binding. -/
theorem exists_of_pass (hc : c.Grounded) (hs : c.Fits s) {b : Binding}
    (hb : b ∈ c.function.bindings) {a : Adjoint} (ha : a.Typed s.builder.context.typeOf?)
    (hty : a.type = b.ty) (hplain : a.IsPlain c.IsConstant c.IsSized) (h : c.pass s b a = .ok s') :
    ∃ cs, c.Made s cs s' := by
  obtain ⟨_, htype⟩ := hc.wellFormed.binding_spec hb
  -- a projection and a second name pass the adjoint on as it is
  have reading : ∀ {x : Operand}, x.type? c.types = some a.type → c.accumulate s x a = .ok s' →
      ∃ cs, c.Made s cs s' := by
    intro x hx hacc
    obtain ⟨heq, hsuit, _⟩ := pass_reading (c := c) (s := s) hx ha
    refine ⟨[(x, a)], heq ▸ hacc, hsuit, fun entry hm => ?_⟩
    cases List.mem_singleton.mp hm
    exact hplain
  rw [pass] at h
  cases he : b.expr with
  | call op xs =>
    rw [he] at h
    exact exists_of_visitCall hc hs hb he ha hplain h
  | tuple fields =>
    rw [he] at h htype
    have hfield : (TupleField.tuple fields).type? c.types = some a.type :=
      TupleField.type?_tuple_eq_some_iff.mpr (hty ▸ htype)
    refine ⟨_, (routeField_eq _ a s hfield) ▸ h, suitable_routes _ a hfield ha, ?_⟩
    exact routes_closed (Adjoint.closed_isPlain c.stable_isSized _) _ a hplain
  | tupleGet source index =>
    rw [he] at h htype
    have hx : (Operand.tupleElement source index).type? c.types = some a.type := hty ▸ htype
    exact reading hx h
  | «alias» x =>
    rw [he] at h htype
    have hx : x.type? c.types = some a.type := hty ▸ htype
    exact reading hx h

/-! ## The sweep -/

theorem settle_appends {b : Binding} (hb : b ∈ c.function.bindings) {pending a : Adjoint}
    (hplain : pending.IsPlain c.IsConstant c.IsSized) (h : c.settle s b pending = .ok (a, s')) :
    s.builder.Appends c.Emits s'.builder ∧ a.IsPlain c.IsConstant c.IsSized := by
  rw [settle] at h
  split at h
  · obtain ⟨x, later, hrun, he⟩ := emit_eq_ok_iff.mp h
    cases he
    exact Emit.appends_settle (emits_of_hint c.isHint_temp)
      (emits_of_hint (isHint_adjointName (name_mem_of_binding hb))) pending hplain hrun
  · cases h
    exact ⟨.refl, hplain⟩

/-- **A visit that succeeds** leads from a swept state to a swept state. -/
theorem Swept.of_visit (hc : c.Grounded) (hs : c.Swept s) {b : Binding}
    (hb : b ∈ c.function.bindings) (h : c.visit s b = .ok s') : c.Swept s' := by
  cases hp : s.adjoint? b.id with
  | none =>
    rw [visit, hp] at h
    cases h
    exact hs
  | some pending =>
    rw [visit_eq hp] at h
    obtain ⟨⟨a, mid⟩, hsettle, hpass⟩ := bind_eq_ok_iff.mp h
    have hid := (hc.wellFormed.binding_spec hb).1
    obtain ⟨a', later, heq, hsettled⟩ := hs.fits.exists_settle hid hp
    rw [hsettle] at heq
    cases heq
    obtain ⟨happ, haplain⟩ := settle_appends hb (hs.plain b.id pending hp) hsettle
    have hdrop := hs.fits.drop b.id hsettled.advances
    have hty : a.type = b.ty := hsettled.type.trans
      (Option.some.inj ((hs.fits.pending b.id pending hp).2.1.symm.trans hid))
    obtain ⟨cs, hcs, hsuit, hplains⟩ := exists_of_pass hc hdrop hb hsettled.typed hty haplain hpass
    obtain ⟨s'', hs'', hfits, hbuilder, _⟩ := hdrop.exists_accumulateAll hc hsuit
    rw [hcs] at hs''
    cases hs''
    have hP := Adjoint.closed_isPlain c.stable_isSized c.IsConstant
    refine ⟨hfits, ?_, hdrop.closed_accumulateAll hP hc hsuit hcs ?_ hplains⟩
    · rw [hbuilder]
      exact hs.appends.trans happ
    · intro id found hf
      have hf' : (s.drop b.id).adjoint? id = some found := hf
      rw [SweepState.adjoint?_drop] at hf'
      split at hf'
      · cases hf'
      · exact hs.plain id found hf'

/-- Visits that succeed lead from a swept state to a swept state. -/
theorem Swept.of_visits (hc : c.Grounded) (hs : c.Swept s) {bs : List Binding}
    (hbs : ∀ b ∈ bs, b ∈ c.function.bindings) (h : bs.foldlM c.visit s = .ok s') : c.Swept s' := by
  induction bs generalizing s with
  | nil =>
    cases h
    exact hs
  | cons b bs ih =>
    obtain ⟨mid, hvisit, hrest⟩ := foldlM_cons_eq_ok_iff.mp h
    obtain ⟨hb, hbs⟩ := List.forall_mem_cons.mp hbs
    exact ih (hs.of_visit hc hb hvisit) hbs hrest

/-- **A sweep that succeeds** leads to a swept state. -/
theorem Swept.of_run (hc : c.Grounded) (hs : c.Swept s) (h : c.run s = .ok s') : c.Swept s' :=
  hs.of_visits hc (fun _ hb => List.mem_reverse.mp hb) h

theorem swept_seed (hc : c.Grounded) {target : ValueId} {spec : TensorSpec}
    (h : c.types target = some (.tensor spec)) : c.Swept (c.seed target spec) where
  fits := fits_seed hc h
  appends := .refl
  plain := by
    intro id a ha
    rw [adjoint?_seed] at ha
    split at ha
    · cases ha
      exact ⟨rfl, trivial, isSized_of_types hc h⟩
    · cases ha

/-- **Binding the gradient** of a parameter: it is bound already, or what is pending for it is
bound now. -/
theorem exists_of_bindGradients {id : ValueId} {ids grads : List ValueId}
    {bound : List (ValueId × ValueId)} {b : Builder}
    (h : c.bindGradients bound { s with builder := b } (id :: ids) = .ok (grads, s')) :
    (∃ existing rest, bound.lookup id = some existing ∧
      c.bindGradients bound { s with builder := b } ids = .ok (rest, s')) ∨
    ∃ p grad later rest, bound.lookup id = none ∧ c.function.param? id = some p ∧
      (Emit.value c.temp (c.adjointName p.name) p.ty (s.current p.id p.ty)).run b =
        some (grad, later) ∧
      c.bindGradients ((id, grad) :: bound) { s with builder := later } ids = .ok (rest, s') := by
  rw [bindGradients] at h
  split at h
  · next existing hexisting =>
    obtain ⟨⟨rest, last⟩, hrest, h⟩ := bind_eq_ok_iff.mp h
    cases h
    exact .inl ⟨existing, rest, hexisting, hrest⟩
  · next hnone =>
    split at h
    · cases h
    · next p hp =>
      obtain ⟨⟨grad, mid⟩, hgrad, h⟩ := bind_eq_ok_iff.mp h
      obtain ⟨⟨rest, last⟩, hrest, h⟩ := bind_eq_ok_iff.mp h
      cases h
      obtain ⟨x, later, hrun, he⟩ := emit_eq_ok_iff.mp hgrad
      cases he
      exact .inr ⟨p, grad, later, rest, hnone, hp, hrun, hrest⟩

/-- **Binding gradients** appends bindings. -/
theorem Swept.appends_bindGradients (hc : c.Grounded) (hs : c.Swept s) {ids grads : List ValueId}
    {bound : List (ValueId × ValueId)} {b : Builder}
    (h : c.bindGradients bound { s with builder := b } ids = .ok (grads, s')) :
    b.Appends c.Emits s'.builder := by
  induction ids generalizing bound b grads with
  | nil =>
    cases h
    exact .refl
  | cons id ids ih =>
    obtain ⟨_, rest, _, hrest⟩ | ⟨p, grad, later, rest, _, hp, hrun, hrest⟩ :=
      exists_of_bindGradients h
    · exact ih hrest
    · have hp := List.mem_of_find?_eq_some hp
      have hsized : c.IsSized p.ty := isSized_of_types hc (hs.fits.types_param hp)
      have hplain : (s.current p.id p.ty).IsPlain c.IsConstant c.IsSized := by
        rw [SweepState.current]
        cases ha : s.adjoint? p.id with
        | none =>
          have hP := Adjoint.closed_isPlain c.stable_isSized c.IsConstant
          exact hP.zerosOf c.stable_isSized p.ty hsized
        | some a => exact hs.plain p.id a ha
      have hhint := isHint_adjointName (name_mem_of_param hp)
      have happ := Emit.appends_value (emits_of_hint c.isHint_temp) (emits_of_hint hhint) _ hplain
        (fun _ he => ⟨hhint, he, hsized⟩) hrun
      exact happ.trans (ih hrest)

end SweepContext

/-! ## Gradients that were made -/

namespace Function

variable {f g : Function} {rules : RuleTable} {config : GradientConfig}
  {request : Option (List ValueId)}

/-- **A gradient was made** of a verified function of one region that returns a scalar, for a
request of its parameters. -/
theorem spec_of_differentiate (h : f.differentiate rules config request = .ok g) :
    f.verify = .ok () ∧ f.regions.length = 1 ∧
      (∃ target spec, f.ret = .value target ∧ f.typeOf? target = some (.tensor spec) ∧
        spec.isScalar = true) ∧
      ∀ id ∈ request.getD f.paramIds, id ∈ f.paramIds := by
  rw [differentiate] at h
  obtain ⟨⟨target, spec⟩, htarget, h⟩ := bind_eq_ok_iff.mp h
  obtain ⟨requested, hrequested, _⟩ := bind_eq_ok_iff.mp h
  obtain ⟨hone, hv, hscalar⟩ := gradientTarget_eq_ok_iff.mp htarget
  exact ⟨hv, hone, ⟨target, spec, hscalar⟩, (requestedParams_eq_ok_iff.mp hrequested).1⟩

/-- **`SweepsTo`** -- differentiation has visited these last bindings of a function without a
failure, and its sweep has come to a state. -/
def SweepsTo (f : Function) (rules : RuleTable) (config : GradientConfig) (c : SweepContext)
    (after : List Binding) (s : SweepState) : Prop :=
  ∃ target spec index, f.ret = .value target ∧ f.typeOf? target = some (.tensor spec) ∧
    FunctionIndex.ofFunction f = .ok index ∧ c = f.sweep index rules config ∧
      after.reverse.foldlM c.visit (c.seed target spec) = .ok s

/-- **The sweep of a verified function** comes to swept states. -/
theorem SweepsTo.swept {c : SweepContext} {after : List Binding} {s : SweepState}
    (hv : f.verify = .ok ()) (hafter : ∀ b ∈ after, b ∈ f.bindings)
    (h : f.SweepsTo .builtinOnly config c after s) :
    c.function = f ∧ c.Grounded ∧ c.Swept s := by
  obtain ⟨target, spec, index, hret, htype, hindex, rfl, hrun⟩ := h
  obtain ⟨index', hindex', htypes⟩ := exists_index hv
  cases hindex.symm.trans hindex'
  have hc : (f.sweep index .builtinOnly config).Grounded :=
    ⟨verify_eq_ok_iff.mp hv, htypes, rfl⟩
  have htarget : (f.sweep index .builtinOnly config).types target = some (.tensor spec) := by
    rw [← htype, typeOf?_eq_context]
    rfl
  exact ⟨rfl, hc, (SweepContext.swept_seed hc htarget).of_visits hc
    (fun b hb => hafter b (List.mem_reverse.mp hb)) hrun⟩

/-- **A gradient that was made** is what a whole sweep leaves with gradients bound behind it. -/
theorem sweepsTo_of_differentiate (h : f.differentiate rules config request = .ok g) :
    ∃ c target s grads s', f.ret = .value target ∧ f.SweepsTo rules config c f.bindings s ∧
      c.bindGradients [] s (request.getD f.paramIds) = .ok (grads, s') ∧
        g = f.gradient target grads s'.builder := by
  obtain ⟨hv, hone, ⟨target, spec, hret, htype, hscalar⟩, hrequest⟩ := spec_of_differentiate h
  obtain ⟨index, hindex, _⟩ := exists_index hv
  rw [differentiate_eq hindex hv hone hret htype hscalar rules config hrequest] at h
  obtain ⟨s, hrun, h⟩ := bind_eq_ok_iff.mp h
  obtain ⟨⟨grads, s'⟩, hbind, h⟩ := bind_eq_ok_iff.mp h
  obtain ⟨_, _, h⟩ := bind_eq_ok_iff.mp h
  exact ⟨_, target, s, grads, s', hret, ⟨target, spec, index, hret, htype, hindex, rfl, hrun⟩,
    hbind, (Except.ok.inj h).symm⟩

/-- **`Yields`** -- a sweep of a function has come to a state, and bindings for gradients of
parameters behind it make the gradient function. -/
structure Yields (f : Function) (c : SweepContext) (target : ValueId) (spec : TensorSpec)
    (s : SweepState) (ids grads : List ValueId) (later : Builder) : Prop where
  /-- The sweep is that of the function. -/
  function : c.function = f
  /-- It has the index of the function and built-in rules. -/
  grounded : c.Grounded
  /-- The function returns the target. -/
  ret : f.ret = .value target
  /-- The target is a tensor. -/
  type : c.types target = some (.tensor spec)
  /-- The sweep has come to the state. -/
  swept : c.Swept s
  /-- Gradients were bound. -/
  appends : s.builder.Appends c.Emits later
  /-- Gradients were bound to typed expressions. -/
  advances : s.builder.Advances later
  /-- Each gradient holds what is pending for its parameter. -/
  holds : List.Forall₂ (c.Holds s later) ids grads
  /-- They can be computed where what is pending for the parameters has values. -/
  runs : s.builder.Runs later (c.Evaluates s)

/-- **A gradient that was made** consists of a sweep and of bound gradients; from the same state
of the sweep every other request of parameters yields a gradient too. -/
theorem exists_of_differentiate (h : f.differentiate .builtinOnly config request = .ok g) :
    ∃ c target spec s, (c.suffix = config.suffix ∧ c.temp = config.temp) ∧
      (∃ grads later, f.Yields c target spec s (request.getD f.paramIds) grads later ∧
        g = f.gradient target grads later) ∧
      ∀ ids, (∀ id ∈ ids, id ∈ f.paramIds) → ∃ grads later,
        f.Yields c target spec s ids grads later ∧
          f.differentiate .builtinOnly config (some ids) = .ok (f.gradient target grads later) := by
  obtain ⟨hv, hone, ⟨target, spec, hret, htype, hscalar⟩, hrequest⟩ := spec_of_differentiate h
  obtain ⟨index, hindex, htypes⟩ := exists_index hv
  have hc : (f.sweep index .builtinOnly config).Grounded :=
    ⟨verify_eq_ok_iff.mp hv, htypes, rfl⟩
  have hequation := @differentiate_eq f target spec index hindex hv hone hret htype hscalar
    .builtinOnly config
  rw [hequation hrequest] at h
  obtain ⟨s, hrun, h⟩ := bind_eq_ok_iff.mp h
  have htarget : (f.sweep index .builtinOnly config).types target = some (.tensor spec) := by
    rw [← htype, typeOf?_eq_context]
    rfl
  have hswept := (SweepContext.swept_seed hc htarget).of_run hc hrun
  -- the sweep does not depend on the request, so what follows it is done for any
  have hyields : ∀ ids, (∀ id ∈ ids, id ∈ f.paramIds) → ∃ grads later,
      f.Yields (f.sweep index .builtinOnly config) target spec s ids grads later ∧
        f.finishGradient (f.sweep index .builtinOnly config) config target ids s =
          .ok (f.gradient target grads later) := by
    intro ids hids
    obtain ⟨grads, later, hrun', hlater, hgrads, hready⟩ := hswept.fits.exists_bindGradients hc hids
      hswept.fits.advances.sound.advances_refl
      fun id x (h : List.lookup id [] = some x) => by simp at h
    refine ⟨grads, later, ⟨rfl, hc, hret, htarget, hswept, hswept.appends_bindGradients hc hrun',
      hlater, hgrads, fun α ar custom env h => hready α ar custom env env h
        (s.builder.leads_refl env)⟩, ?_⟩
    exact hswept.fits.finish_eq hc config hret hrun' hlater hgrads
  refine ⟨f.sweep index .builtinOnly config, target, spec, s, ⟨rfl, rfl⟩, ?_, fun ids hids => ?_⟩
  · obtain ⟨grads, later, hyield, hfinish⟩ := hyields _ hrequest
    rw [hfinish] at h
    exact ⟨grads, later, hyield, (Except.ok.inj h).symm⟩
  · obtain ⟨grads, later, hyield, hfinish⟩ := hyields ids hids
    refine ⟨grads, later, hyield, ?_⟩
    rw [hequation (show ∀ id ∈ (some ids).getD f.paramIds, id ∈ f.paramIds from hids), hrun]
    exact hfinish

end Function

end TensorGraph
