/-
# TensorGraph.Proofs.Visits -- the steps of the sweep

A visit of a binding whose value has a pending adjoint settles the adjoint and contributes to
the operands of the binding, each with the type of the operand. A settled adjoint denotes
what the pending one denoted. After the sweep the gradients of parameters are bound one after
the other; each goes on holding what the pending adjoint of its parameter denotes.
-/
import TensorGraph.Proofs.Sweep
import TensorGraph.Transform.Differentiate

namespace TensorGraph

theorem Function.id_of_param? {f : Function} {id : ValueId} {p : Param}
    (h : f.param? id = some p) : p.id = id := by
  have hid := List.find?_some h
  exact eq_of_beq hid

/-- A parameter that is found has its type in the context. -/
theorem Function.WellFormed.typeOf?_param {f : Function} (h : f.WellFormed) {id : ValueId}
    {p : Param} (hp : f.param? id = some p) : f.context.typeOf? id = some p.ty := by
  refine (Context.typeOf?_eq_some_iff h.nodup).mpr ?_
  refine List.mem_append_left _ (List.mem_map.mpr ⟨p, List.mem_of_find?_eq_some hp, ?_⟩)
  rw [Param.entry, id_of_param? hp]

theorem Function.exists_param {f : Function} {id : ValueId} (h : id ∈ f.paramIds) :
    ∃ p, f.param? id = some p := by
  refine Option.isSome_iff_exists.mp (List.find?_isSome.mpr ?_)
  obtain ⟨p, hp, rfl⟩ := List.mem_map.mp h
  exact ⟨p, hp, beq_self_eq_true _⟩

/-- A binding has its type in the context, and its expression has it too. -/
theorem Function.WellFormed.binding_spec {f : Function} (h : f.WellFormed) {b : Binding}
    (hb : b ∈ f.bindings) :
    f.context.typeOf? b.id = some b.ty ∧ b.expr.HasType f.context.typeOf? b.ty := by
  constructor
  · refine (Context.typeOf?_eq_some_iff h.nodup).mpr ?_
    exact List.mem_append_right _ (List.mem_map_of_mem hb)
  · exact (Context.accepts_iff.mp h.accepts).2 b hb

namespace SweepContext

variable {c : SweepContext} {s : SweepState}

/-! ## Settling -/

/-- **`Settled`** -- an adjoint that a later builder holds in place of a pending one. -/
structure Settled (pending a : Adjoint) (b later : Builder) : Prop where
  /-- Bindings were appended. -/
  advances : b.Advances later
  /-- The adjoint is typed. -/
  typed : a.Typed later.context.typeOf?
  /-- The type is the same. -/
  type : a.type = pending.type
  /-- The same places are reached. -/
  reaches : ∀ place, a.Reaches place ↔ pending.Reaches place
  /-- What was bound runs where the pending adjoint has a value. -/
  runs : b.Runs later pending.HasValue
  /-- The value is the same. -/
  eval : ∀ (α : Type) (ar : Arithmetic α) (custom : CustomKernels α) (env env' : Env α),
    b.Leads ar custom later env env' → a.eval ar custom env' = pending.eval ar custom env

/-- What a visit does first: it settles a tensor and takes a tuple as it is. -/
def settle (c : SweepContext) (s : SweepState) (b : Binding) (pending : Adjoint) :
    Except TransformError (Adjoint × SweepState) :=
  match b.ty with
  | .tensor _ => c.emit s (Emit.settle c.temp (c.adjointName b.name) pending)
  | .tuple _ => pure (pending, s)

theorem Fits.exists_settle (hs : c.Fits s) {b : Binding} (hid : c.types b.id = some b.ty)
    {pending : Adjoint} (hp : s.adjoint? b.id = some pending) :
    ∃ a later, c.settle (s.drop b.id) b pending =
        .ok (a, { s.drop b.id with builder := later }) ∧ Settled pending a s.builder later := by
  obtain ⟨ht, hty, hz⟩ := hs.pending b.id pending hp
  have htype : b.ty = pending.type := Option.some.inj (hid.symm.trans hty)
  rw [settle, htype]
  cases hpt : pending.type with
  | tuple tys =>
    refine ⟨pending, s.builder, rfl, hs.advances.sound.advances_refl, ht, rfl,
      fun _ => Iff.rfl, s.builder.runs_refl _, ?_⟩
    intro α ar custom env env' hl
    rw [hl.eq_of_refl]
  | tensor spec =>
    obtain ⟨x, later, hrun, hadv, hx, hready, heval⟩ := Emit.settle_spec c.temp
      (c.adjointName b.name) pending hs.advances.sound ht hpt
    refine ⟨.leaf x spec, later, ?_, hadv, hx, hpt.symm, fun place => ?_, hready, heval⟩
    · show c.emit (s.drop b.id) _ = _
      rw [emit, SweepState.builder_drop, hrun]
    · rw [Adjoint.reaches_of_type hpt]
      exact ⟨fun h => ⟨h, hz⟩, And.left⟩

/-! ## Passing on -/

/-- What a visit does then: it passes the settled adjoint on. -/
def pass (c : SweepContext) (s : SweepState) (b : Binding) (a : Adjoint) :
    Except TransformError SweepState :=
  match b.expr with
  | .call op operands => c.visitCall s b op operands a
  | .tuple fields => c.routeField s (.tuple fields) a
  | .tupleGet tuple index => c.accumulate s (.tupleElement tuple index) a
  | .alias x => c.accumulate s x a

theorem visit_eq {b : Binding} {pending : Adjoint} (hp : s.adjoint? b.id = some pending) :
    c.visit s b = c.settle (s.drop b.id) b pending >>= fun r => c.pass r.2 b r.1 := by
  rw [visit, hp, settle]
  cases b.ty with
  | tensor spec => rfl
  | tuple tys => rfl

/-- **`Contributes`** -- what a binding contributes to its operands when the adjoint of its
value is settled. -/
def Contributes (c : SweepContext) (b : Binding) (a : Adjoint) (cs : List (Operand × Adjoint)) :
    Prop :=
  match b.expr with
  | .call op xs => ∃ specs out, Operand.HaveTypes c.types xs (specs.map .tensor) ∧
    op.isCustom = false ∧ op.resultSpec specs (some (.tensor out)) = .ok out ∧
      b.ty = .tensor out ∧ cs = callContributions op xs specs b.id out a
  | .tuple fields => cs = routes (.tuple fields) a
  | .tupleGet tuple index => cs = [(.tupleElement tuple index, a)]
  | .alias x => cs = [(x, a)]

theorem accumulateAll_singleton (c : SweepContext) (s : SweepState) (x : Operand) (a : Adjoint) :
    c.accumulateAll s [(x, a)] = c.accumulate s x a := by
  show c.accumulate s x a >>= Except.ok = _
  cases c.accumulate s x a with
  | ok s' => rfl
  | error e => rfl

/-- A binding that reads an operand contributes to it. -/
theorem pass_reading {context : TypeMap} {x : Operand} {a : Adjoint}
    (hx : x.type? c.types = some a.type) (ha : a.Typed context) :
    c.accumulate s x a = c.accumulateAll s [(x, a)] ∧ c.Suitable context [(x, a)] ∧
      ∀ y rest, (∃ p, (y, p) ∈ [(x, a)] ∧ p.Reaches rest) ↔
        ∃ place, a.Reaches place ∧ y = x ∧ rest = place := by
  refine ⟨(accumulateAll_singleton c s x a).symm, fun entry hm => ?_, fun y rest => ?_⟩
  · cases List.mem_singleton.mp hm
    exact ⟨hx, ha⟩
  · constructor
    · rintro ⟨p, hm, hr⟩
      cases List.mem_singleton.mp hm
      exact ⟨rest, hr, rfl, rfl⟩
    · rintro ⟨place, hr, rfl, rfl⟩
      exact ⟨a, List.mem_singleton.mpr rfl, hr⟩

/-- **Passing on** a settled adjoint is contributing to the operands of the binding. -/
theorem Fits.exists_contributions (hc : c.Regular) (hs : c.Fits s) {b : Binding}
    (hb : b ∈ c.function.bindings) (hsoft : ∀ axis xs, b.expr ≠ .call (.softmax axis) xs)
    {a : Adjoint} (ha : a.Typed s.builder.context.typeOf?) (hty : a.type = b.ty)
    (hz : a.isZero = false) :
    ∃ cs, c.Contributes b a cs ∧ c.pass s b a = c.accumulateAll s cs ∧
      c.Suitable s.builder.context.typeOf? cs ∧
      ∀ x rest, (∃ p, (x, p) ∈ cs ∧ p.Reaches rest) ↔
        ∃ place, a.Reaches place ∧ b.expr.Passes place x rest := by
  obtain ⟨hid, htype⟩ := hc.wellFormed.binding_spec hb
  have hcalls := hc.calls b hb
  unfold Contributes pass
  cases he : b.expr with
  | call op xs =>
    rw [he] at htype
    obtain ⟨tys, hx, hr⟩ := htype
    have hop := hcalls op xs he
    obtain ⟨specs, out, rfl, hspec, hout⟩ := (Operation.resultType_eq_ok_iff hop).mp hr
    rw [hout] at hspec
    obtain ⟨hvisit, hsuit, hreach⟩ := hs.visitCall_spec hc hop
      (fun axis h => hsoft axis xs (he.trans (by rw [h]))) hout hid hx hspec
      ⟨ha, hty.trans hout⟩ hz
    refine ⟨_, ⟨specs, out, hx, hop, hspec, hout, rfl⟩, hvisit, hsuit, fun x rest => ?_⟩
    rw [hreach]
    constructor
    · rintro ⟨hrest, hi⟩
      exact ⟨[], (Adjoint.reaches_of_type (hty.trans hout)).mpr ⟨rfl, hz⟩, rfl, hrest, hi⟩
    · rintro ⟨place, _, _, hrest, hi⟩
      exact ⟨hrest, hi⟩
  | tuple fields =>
    rw [he] at htype
    have hfield : (TupleField.tuple fields).type? c.types = some a.type :=
      TupleField.type?_tuple_eq_some_iff.mpr (hty ▸ htype)
    exact ⟨_, rfl, routeField_eq _ a s hfield, suitable_routes _ a hfield ha,
      exists_routes_iff _ a hfield⟩
  | tupleGet source index =>
    rw [he] at htype
    have hx : (Operand.tupleElement source index).type? c.types = some a.type := hty ▸ htype
    exact ⟨_, rfl, pass_reading hx ha⟩
  | «alias» x =>
    rw [he] at htype
    have hx : x.type? c.types = some a.type := hty ▸ htype
    exact ⟨_, rfl, pass_reading hx ha⟩

/-- **A visit** of a binding whose value has a pending adjoint: the adjoint is settled, and
what the binding contributes is added to what else is pending. -/
theorem Fits.exists_visit (hc : c.Regular) (hs : c.Fits s) {b : Binding}
    (hb : b ∈ c.function.bindings) (hsoft : ∀ axis xs, b.expr ≠ .call (.softmax axis) xs)
    {pending : Adjoint} (hp : s.adjoint? b.id = some pending) :
    ∃ a later cs s', Settled pending a s.builder later ∧ c.Contributes b a cs ∧
      c.Suitable later.context.typeOf? cs ∧
      c.accumulateAll { s.drop b.id with builder := later } cs = .ok s' ∧
      c.visit s b = .ok s' ∧ c.Fits s' ∧ s'.builder = later ∧
      ∀ id place, s'.Reaches id place ↔ (id ≠ b.id ∧ s.Reaches id place) ∨
        ∃ there x rest front, pending.Reaches there ∧ b.expr.Passes there x rest ∧
          x.place? = some (id, front) ∧ place = front ++ rest := by
  obtain ⟨hid, _⟩ := hc.wellFormed.binding_spec hb
  obtain ⟨_, hpt, hz⟩ := hs.pending b.id pending hp
  obtain ⟨a, later, hsettle, hsettled⟩ := hs.exists_settle hid hp
  have hdrop := hs.drop b.id hsettled.advances
  have hty : a.type = b.ty := hsettled.type.trans (Option.some.inj (hpt.symm.trans hid))
  have haz : a.isZero = false := by
    obtain ⟨place, hr⟩ := Adjoint.isZero_eq_false_iff.mp hz
    exact Adjoint.isZero_eq_false_iff.mpr ⟨place, (hsettled.reaches place).mpr hr⟩
  obtain ⟨cs, hcontributes, hpass, hsuit, hpasses⟩ :=
    hdrop.exists_contributions hc hb hsoft hsettled.typed hty haz
  obtain ⟨s', hs', hfits, hbuilder, hreach⟩ := hdrop.exists_accumulateAll hc hsuit
  refine ⟨a, later, cs, s', hsettled, hcontributes, hsuit, hs', ?_, hfits, hbuilder, ?_⟩
  · rw [visit_eq hp, hsettle, ok_bind, hpass, hs']
  · intro id place
    rw [hreach]
    refine or_congr SweepState.reaches_drop ⟨?_, ?_⟩
    · rintro ⟨x, p, front, rest, hm, hplace, he, hr⟩
      obtain ⟨there, hthere, hpass⟩ := (hpasses x rest).mp ⟨p, hm, hr⟩
      exact ⟨there, x, rest, front, (hsettled.reaches there).mp hthere, hpass, hplace, he⟩
    · rintro ⟨there, x, rest, front, hthere, hpass, hplace, he⟩
      obtain ⟨p, hm, hr⟩ :=
        (hpasses x rest).mpr ⟨there, (hsettled.reaches there).mpr hthere, hpass⟩
      exact ⟨x, p, front, rest, hm, hplace, he, hr⟩

/-- **A visit of a call without a rule** whose value has a pending adjoint fails. -/
theorem Fits.visit_ruleless (hs : c.Fits s) {b : Binding} (hid : c.types b.id = some b.ty)
    {op : Operation} {xs : List Operand} (he : b.expr = .call op xs) {out : TensorSpec}
    (hout : b.ty = .tensor out) (hrule : c.rules.find? op.name = none) {pending : Adjoint}
    (hp : s.adjoint? b.id = some pending) :
    c.visit s b = .error (.missingRule c.function.name op.name) := by
  obtain ⟨a, later, hsettle, _⟩ := hs.exists_settle hid hp
  rw [visit_eq hp, hsettle, ok_bind, pass, he]
  show c.visitCall _ b op xs a = _
  simp only [visitCall, hout, hrule]

/-- **A visit of a softmax** whose value has a pending adjoint fails: there is no rule. -/
theorem Fits.visit_softmax (hc : c.Regular) (hs : c.Fits s) {b : Binding}
    (hb : b ∈ c.function.bindings) {axis : Nat} {xs : List Operand}
    (he : b.expr = .call (.softmax axis) xs) {pending : Adjoint}
    (hp : s.adjoint? b.id = some pending) :
    c.visit s b = .error (.missingRule c.function.name (Operation.softmax axis).name) := by
  obtain ⟨hid, htype⟩ := hc.wellFormed.binding_spec hb
  rw [he] at htype
  obtain ⟨tys, _, hr⟩ := htype
  obtain ⟨specs, out, _, _, hout⟩ := (Operation.resultType_eq_ok_iff rfl).mp hr
  have hrule : c.rules.find? (Operation.softmax axis).name = none := by
    rw [hc.rules]
    rfl
  exact hs.visit_ruleless hid he hout hrule hp

/-! ## Binding gradients -/

/-- **`Evaluates`** -- what is pending for each parameter, or zeros, has a value of its type. -/
def Evaluates (c : SweepContext) (s : SweepState) {α : Type} (ar : Arithmetic α)
    (custom : CustomKernels α) (env : Env α) : Prop :=
  ∀ p ∈ c.function.params,
    ∃ v, (s.current p.id p.ty).eval ar custom env = .ok v ∧ v.hasType p.ty = true

/-- **`Holds`** -- in a later builder, a value holds what was pending for a parameter. -/
def Holds (c : SweepContext) (s : SweepState) (later : Builder) (id grad : ValueId) : Prop :=
  ∃ p, c.function.param? id = some p ∧ later.context.typeOf? grad = some p.ty ∧
    ∀ (α : Type) (ar : Arithmetic α) (custom : CustomKernels α) (env env' : Env α),
      s.builder.Leads ar custom later env env' →
        env'.lookup grad = (s.current id p.ty).eval ar custom env

theorem Holds.mono {b later : Builder} (hb : s.builder.Advances b) (hlater : b.Advances later)
    {id grad : ValueId} (h : c.Holds s b id grad) : c.Holds s later id grad := by
  obtain ⟨p, hp, hty, heval⟩ := h
  refine ⟨p, hp, hlater.grows.typeOf?_of_eq_some hty, ?_⟩
  intro α ar custom env env' hl
  obtain ⟨mid, h₁, h₂⟩ := hl.split hb.grows hlater.grows
  rw [h₂.lookup_eq hlater hty, heval α ar custom env mid h₁]

/-- **Gradients are bound** one after the other, and each holds what is pending. -/
theorem Fits.exists_bindGradients (hc : c.Grounded) (hs : c.Fits s) {ids : List ValueId}
    (hids : ∀ id ∈ ids, id ∈ c.function.paramIds) {b : Builder} (hb : s.builder.Advances b)
    {bound : List (ValueId × ValueId)}
    (hbound : ∀ id grad, bound.lookup id = some grad → c.Holds s b id grad) :
    ∃ grads later, c.bindGradients bound { s with builder := b } ids =
        .ok (grads, { s with builder := later }) ∧ b.Advances later ∧
      List.Forall₂ (c.Holds s later) ids grads ∧
      ∀ (α : Type) (ar : Arithmetic α) (custom : CustomKernels α) (env mid : Env α),
        c.Evaluates s ar custom env → s.builder.Leads ar custom b env mid →
          ∃ env', b.Leads ar custom later mid env' := by
  induction ids generalizing b bound with
  | nil =>
    exact ⟨[], b, rfl, hb.sound.advances_refl, .nil, fun _ _ _ _ mid _ _ => ⟨mid, b.leads_refl mid⟩⟩
  | cons id ids ih =>
    obtain ⟨hid, hids⟩ := List.forall_mem_cons.mp hids
    cases hlookup : bound.lookup id with
    | some grad =>
      obtain ⟨grads, later, hrun, hlater, hholds, hready⟩ := ih hids hb hbound
      refine ⟨grad :: grads, later, ?_, hlater, ?_, hready⟩
      · rw [bindGradients, hlookup, hrun]
        rfl
      · exact .cons ((hbound id grad hlookup).mono hb hlater) hholds
    | none =>
      obtain ⟨p, hp⟩ := Function.exists_param hid
      have hpid := Function.id_of_param? hp
      have htype : c.types p.id = some p.ty := hpid ▸ hc.wellFormed.typeOf?_param hp
      obtain ⟨ht, hty⟩ := hs.current_spec htype
      obtain ⟨grad, mid, hemit, hmid, hgrad, hvalue, heval⟩ := Emit.value_spec c.temp
        (c.adjointName p.name) (s.current p.id p.ty) hb.sound (hb.typed ht)
      rw [hty] at hemit hgrad
      have hhold : c.Holds s mid id grad := by
        refine ⟨p, hp, hgrad, ?_⟩
        intro α ar custom env env' hl
        obtain ⟨env₁, h₁, h₂⟩ := hl.split hb.grows hmid.grows
        rw [heval α ar custom env₁ env' h₂, h₁.eval_eq hb ht, hpid]
      have hbound' : ∀ other g, List.lookup other ((id, grad) :: bound) = some g →
          c.Holds s mid other g := by
        intro other g hg
        rw [List.lookup_cons] at hg
        by_cases ho : other = id
        · rw [beq_iff_eq.mpr ho] at hg
          cases hg
          exact ho ▸ hhold
        · rw [beq_false_of_ne ho] at hg
          exact (hbound other g hg).mono hb hmid
      obtain ⟨grads, later, hrun, hlater, hholds, hready⟩ := ih hids (hb.trans hmid) hbound'
      refine ⟨grad :: grads, later, ?_, hmid.trans hlater, ?_, ?_⟩
      · have hstep : c.emit { s with builder := b } (Emit.value c.temp (c.adjointName p.name) p.ty
            (gradient { s with builder := b } p)) = .ok (grad, { s with builder := mid }) := by
          have hgradient : gradient { s with builder := b } p = s.current p.id p.ty := rfl
          rw [emit, hgradient, hemit]
        simp only [bindGradients, hlookup, hp]
        show (c.emit _ _ >>= _) = _
        rw [hstep, ok_bind]
        show (c.bindGradients ((id, grad) :: bound) _ ids >>= _) = _
        rw [hrun]
        rfl
      · exact .cons (hhold.mono (hb.trans hmid) hlater) hholds
      · intro α ar custom env env₁ hevaluates hl₁
        obtain ⟨v, hv, hvt⟩ := hevaluates p (List.mem_of_find?_eq_some hp)
        rw [← hl₁.eval_eq hb ht] at hv
        obtain ⟨env₂, hl₂⟩ := hvalue α ar custom env₁ ⟨v, hv, hty.symm ▸ hvt⟩
        obtain ⟨env₃, hl₃⟩ := hready α ar custom env env₂ hevaluates (hl₁.trans hl₂)
        exact ⟨env₃, hl₂.trans hl₃⟩

/-! ## The function around the sweep -/

/-- **`seed`** -- the state before the sweep: the adjoint of the scalar is one. -/
def seed (c : SweepContext) (target : ValueId) (spec : TensorSpec) : SweepState :=
  ⟨c.start, [(target, .ones spec)]⟩

theorem adjoint?_seed (c : SweepContext) (target : ValueId) (spec : TensorSpec) (id : ValueId) :
    (c.seed target spec).adjoint? id = if id = target then some (.ones spec) else none := by
  rw [SweepState.adjoint?, seed, List.lookup_cons]
  by_cases h : id = target
  · rw [if_pos h, beq_iff_eq.mpr h]
  · rw [if_neg h, beq_false_of_ne h, List.lookup_nil]

theorem fits_seed (hc : c.Grounded) {target : ValueId} {spec : TensorSpec}
    (h : c.types target = some (.tensor spec)) : c.Fits (c.seed target spec) where
  advances := (Builder.sound_ofFunction _ hc.wellFormed).advances_refl
  pending := by
    intro id a ha
    rw [adjoint?_seed] at ha
    split at ha
    · next he =>
      cases ha
      exact ⟨Adjoint.typed_ones _ spec, he ▸ h, rfl⟩
    · simp at ha

end SweepContext

namespace Function

/-- **`gradient`** -- the function that a builder makes when gradients are bound: it returns
the scalar and the gradients. -/
def gradient (f : Function) (target : ValueId) (grads : List ValueId) (b : Builder) : Function :=
  b.finish (f.regions.flatMap Region.outputs ++ newOutputs (f.regions.flatMap Region.outputs) grads)
    (.tuple [.value target, .tuple (grads.map .value)])

/-- **`finishGradient`** -- what is left of differentiation behind its sweep: gradients are bound,
and the result is checked. -/
def finishGradient (f : Function) (c : SweepContext) (config : GradientConfig) (target : ValueId)
    (ids : List ValueId) (s : SweepState) : Except TransformError Function :=
  c.bindGradients [] s ids >>= fun r =>
    (if config.verifyOutput then
        (f.gradient target r.1 r.2.builder).verify.mapError
          (.illFormed (f.gradient target r.1 r.2.builder).name)
      else .ok ()) >>= fun _ => .ok (f.gradient target r.1 r.2.builder)

/-- The sweep that differentiates a function. -/
def sweep (f : Function) (index : FunctionIndex) (rules : RuleTable) (config : GradientConfig) :
    SweepContext :=
  ⟨f, index, rules, config.suffix, config.temp⟩

variable {f : Function} {target : ValueId} {spec : TensorSpec}

/-- A function of a scalar type returns a value. -/
theorem exists_target (h : f.returnType? = some (.tensor spec)) :
    ∃ target, f.ret = .value target ∧ f.typeOf? target = some (.tensor spec) := by
  rw [returnType?] at h
  cases hret : f.ret with
  | value id =>
    rw [hret] at h
    exact ⟨id, rfl, h⟩
  | tuple elements =>
    rw [hret, ReturnExpr.type?] at h
    cases htys : ReturnExpr.typeList? f.typeOf? elements with
    | none =>
      rw [htys] at h
      simp at h
    | some tys =>
      rw [htys] at h
      simp at h

theorem verifySource_eq_ok_iff : f.verifySource = .ok () ↔ f.verify = .ok () := by
  rw [verifySource]
  cases hv : f.verify with
  | ok => exact iff_of_true rfl rfl
  | error fault => cases fault <;> exact iff_of_false nofun nofun

/-- **The target** is the value that the function returns, and a scalar. -/
theorem scalarTarget_eq_ok_iff :
    f.scalarTarget = .ok (target, spec) ↔
      f.ret = .value target ∧ f.typeOf? target = some (.tensor spec) ∧ spec.isScalar = true := by
  constructor
  · intro h
    rw [scalarTarget] at h
    split at h
    · next hret =>
      split at h
      · next htype =>
        split at h
        · next hscalar =>
          cases h
          exact ⟨hret, htype, hscalar⟩
        · cases h
      · cases h
    · cases h
  · rintro ⟨hret, htype, hscalar⟩
    simp only [scalarTarget, hret, htype, hscalar, if_true]

/-- **A gradient is taken** of a verified function of one region that returns a scalar. -/
theorem gradientTarget_eq_ok_iff :
    f.gradientTarget = .ok (target, spec) ↔
      f.regions.length = 1 ∧ f.verify = .ok () ∧ f.ret = .value target ∧
        f.typeOf? target = some (.tensor spec) ∧ spec.isScalar = true := by
  rw [gradientTarget]
  by_cases hone : f.regions.length = 1
  · rw [if_pos hone, bind_eq_ok_iff, and_iff_right hone, ← verifySource_eq_ok_iff,
      ← scalarTarget_eq_ok_iff]
    exact ⟨fun ⟨_, hv, h⟩ => ⟨hv, h⟩, fun ⟨hv, h⟩ => ⟨(), hv, h⟩⟩
  · rw [if_neg hone]
    exact iff_of_false nofun fun h => hone h.1

/-- **Requests** are answered when they are for parameters. -/
theorem requestedParams_eq_ok_iff {request : Option (List ValueId)} {ids : List ValueId} :
    f.requestedParams request = .ok ids ↔
      (∀ id ∈ request.getD f.paramIds, id ∈ f.paramIds) ∧ ids = request.getD f.paramIds := by
  cases request with
  | none =>
    rw [requestedParams, Option.getD_none, and_iff_right fun _ hid => hid, Except.ok.injEq, eq_comm]
  | some requested =>
    have hparam : ∀ id, (f.param? id).isNone = false ↔ id ∈ f.paramIds := by
      intro id
      refine ⟨fun h => ?_, fun h => ?_⟩
      · obtain ⟨p, hp⟩ := Option.isSome_iff_exists.mp (Option.isNone_eq_false_iff.mp h)
        rw [← id_of_param? hp]
        exact List.mem_map_of_mem (List.mem_of_find?_eq_some hp)
      · obtain ⟨p, hp⟩ := exists_param h
        rw [hp]
        rfl
    rw [requestedParams, Option.getD_some]
    cases hfind : requested.find? fun id => (f.param? id).isNone with
    | none =>
      have hnone := List.find?_eq_none.mp hfind
      have hall : ∀ id ∈ requested, id ∈ f.paramIds := fun id hid =>
        (hparam id).mp (Bool.eq_false_iff.mpr (hnone id hid))
      rw [and_iff_right hall, Except.ok.injEq, eq_comm]
    | some id =>
      refine iff_of_false nofun fun h => ?_
      have hid := (hparam id).mpr (h.1 id (List.mem_of_find?_eq_some hfind))
      have hunknown : (f.param? id).isNone = true := by simpa using List.find?_some hfind
      exact Bool.false_ne_true (hid.symm.trans hunknown)

/-- **Differentiating** a verified function of one region that returns a scalar is seeding,
sweeping and binding gradients. -/
theorem differentiate_eq {index : FunctionIndex} (hindex : FunctionIndex.ofFunction f = .ok index)
    (hv : f.verify = .ok ()) (hone : f.regions.length = 1) (hret : f.ret = .value target)
    (htype : f.typeOf? target = some (.tensor spec)) (hscalar : spec.isScalar = true)
    (rules : RuleTable) (config : GradientConfig) {request : Option (List ValueId)}
    (hrequest : ∀ id ∈ request.getD f.paramIds, id ∈ f.paramIds) :
    f.differentiate rules config request =
      ((f.sweep index rules config).run ((f.sweep index rules config).seed target spec) >>=
        f.finishGradient (f.sweep index rules config) config target (request.getD f.paramIds)) := by
  rw [differentiate, gradientTarget_eq_ok_iff.mpr ⟨hone, hv, hret, htype, hscalar⟩]
  show (f.requestedParams request >>= _) = _
  rw [requestedParams_eq_ok_iff.mpr ⟨hrequest, rfl⟩]
  show ((FunctionIndex.ofFunction f).mapError _ >>= _) = _
  rw [hindex]
  show ((f.sweep index rules config).run _ >>= _) = _
  refine congrArg _ (funext fun swept => ?_)
  refine congrArg _ (funext fun r => ?_)
  cases config.verifyOutput with
  | true => rfl
  | false => rfl

/-- A verified function has an index, which has the types of the function. -/
theorem exists_index (hv : f.verify = .ok ()) :
    ∃ index, FunctionIndex.ofFunction f = .ok index ∧ index.typeOf? = f.context.typeOf? := by
  have hw := verify_eq_ok_iff.mp hv
  obtain ⟨index, hindex⟩ := FunctionIndex.exists_ofFunction hw.params_nodup
    (f.ids_paramContext ▸ (Context.accepts_iff.mp hw.accepts).1)
  refine ⟨index, hindex, ?_⟩
  rw [FunctionIndex.typeOf?_eq, FunctionIndex.context_ofFunction hindex]

/-- A verified function of one region that returns a scalar has an index with which it is
differentiated. -/
theorem exists_differentiate_eq (hv : f.verify = .ok ()) (hone : f.regions.length = 1)
    (hret : f.ret = .value target) (htype : f.typeOf? target = some (.tensor spec))
    (hscalar : spec.isScalar = true) (rules : RuleTable) (config : GradientConfig)
    {request : Option (List ValueId)}
    (hrequest : ∀ id ∈ request.getD f.paramIds, id ∈ f.paramIds) :
    ∃ index, index.typeOf? = f.context.typeOf? ∧
      f.differentiate rules config request =
        ((f.sweep index rules config).run ((f.sweep index rules config).seed target spec) >>=
          f.finishGradient (f.sweep index rules config) config target
            (request.getD f.paramIds)) := by
  obtain ⟨index, hindex, htypes⟩ := exists_index hv
  exact ⟨index, htypes, differentiate_eq hindex hv hone hret htype hscalar rules config hrequest⟩

/-- **A gradient function runs** as the function does, then as the bindings that were appended
do, and returns the scalar and the gradients. -/
theorem gradient_run_eq_ok_iff {α : Type} {ar : Arithmetic α} {custom : CustomKernels α}
    {grads : List ValueId} {later : Builder} {name : String} {inputs : List (Value α)}
    {w : Value α} (hgrows : (Builder.ofFunction name f).Grows later) :
    (f.gradient target grads later).run ar custom inputs = .ok w ↔
      f.params.length = inputs.length ∧ ∃ start final final' y gs,
        Env.empty.pushInputs (f.params.zip inputs) = .ok start ∧
          f.bindings.foldlM (Env.step ar custom) start = .ok final ∧
            (Builder.ofFunction name f).Leads ar custom later final final' ∧
              final'.lookup target = .ok y ∧
                List.Forall₂ (fun grad v => final'.lookup grad = .ok v) grads gs ∧
                  w = .tuple [y, .tuple gs] := by
  have hparams : (f.gradient target grads later).params = f.params := by
    show later.params = f.params
    rw [hgrows.params, Builder.params_ofFunction]
  have hbindings : (f.gradient target grads later).bindings = later.bindings := by
    rw [gradient, Builder.bindings_finish]
  have hcollect : ∀ env : Env α, env.collect (f.gradient target grads later).ret = .ok w ↔
      ∃ y gs, env.lookup target = .ok y ∧
        List.Forall₂ (fun grad v => env.lookup grad = .ok v) grads gs ∧
          w = .tuple [y, .tuple gs] := by
    intro env
    show (env.collectAll [.value target, .tuple (grads.map .value)]).map Value.tuple = _ ↔ _
    rw [Env.collectAll_eq_mapM, map_eq_ok_iff]
    constructor
    · rintro ⟨vs, hvs, rfl⟩
      obtain ⟨y, rest, hy, hrest, rfl⟩ := mapM_cons_eq_ok_iff.mp hvs
      obtain ⟨v, last, hv, hlast, rfl⟩ := mapM_cons_eq_ok_iff.mp hrest
      cases hlast
      obtain ⟨gs, hgs, rfl⟩ := map_eq_ok_iff.mp hv
      exact ⟨y, gs, hy, Env.collectAll_map_value_eq_ok_iff.mp hgs, rfl⟩
    · rintro ⟨y, gs, hy, hgs, rfl⟩
      have hv : env.collect (.tuple (grads.map .value)) = .ok (.tuple gs) :=
        map_eq_ok_iff.mpr ⟨gs, Env.collectAll_map_value_eq_ok_iff.mpr hgs, rfl⟩
      exact ⟨_, mapM_cons_eq_ok_iff.mpr ⟨y, _, hy,
        mapM_cons_eq_ok_iff.mpr ⟨_, _, hv, rfl, rfl⟩, rfl⟩, rfl⟩
  rw [run_eq_ok_iff, hparams, hbindings]
  refine and_congr_right fun _ => ?_
  constructor
  · rintro ⟨start, final', hstart, hrun, hret⟩
    obtain ⟨new, hnew⟩ := hgrows.bindings
    rw [hnew, Builder.bindings_ofFunction] at hrun
    obtain ⟨final, hfinal, hnewrun⟩ := foldlM_append_eq_ok_iff.mp hrun
    obtain ⟨y, gs, hy, hgs, hw⟩ := (hcollect final').mp hret
    exact ⟨start, final, final', y, gs, hstart, hfinal, ⟨new, hnew, hnewrun⟩, hy, hgs, hw⟩
  · rintro ⟨start, final, final', y, gs, hstart, hfinal, ⟨new, hnew, hnewrun⟩, hy, hgs, hw⟩
    refine ⟨start, final', hstart, ?_, (hcollect final').mpr ⟨y, gs, hy, hgs, hw⟩⟩
    rw [hnew, Builder.bindings_ofFunction]
    exact foldlM_append_eq_ok_iff.mpr ⟨final, hfinal, hnewrun⟩

theorem mem_newOutputs {present ids : List ValueId} {id : ValueId} :
    id ∈ newOutputs present ids ↔ id ∈ ids ∧ id ∉ present := by
  induction ids generalizing present with
  | nil => exact ⟨fun h => absurd h List.not_mem_nil, fun h => absurd h.1 List.not_mem_nil⟩
  | cons other ids ih =>
    rw [newOutputs]
    split
    · next h =>
      rw [List.contains_iff_mem] at h
      rw [ih, List.mem_cons]
      refine and_congr_left fun hid => ⟨.inr, fun hm => hm.resolve_left ?_⟩
      rintro rfl
      exact hid h
    · next h =>
      rw [List.contains_iff_mem] at h
      rw [List.mem_cons, ih, List.mem_cons, List.mem_append, List.mem_singleton]
      by_cases he : id = other
      · subst he
        exact ⟨fun _ => ⟨.inl rfl, h⟩, fun _ => .inl rfl⟩
      · simp only [he, false_or, or_false]

end Function

namespace SweepContext

variable {c : SweepContext} {s : SweepState}

/-- **The gradient** that is made of a swept state is well-formed. -/
theorem Fits.verify_gradient (hc : c.Grounded) (hs : c.Fits s) {target : ValueId}
    (hret : c.function.ret = .value target) {ids grads : List ValueId} {later : Builder}
    (hlater : s.builder.Advances later) (hgrads : List.Forall₂ (c.Holds s later) ids grads) :
    (c.function.gradient target grads later).verify = .ok () := by
  have hadv := hs.advances.trans hlater
  have hgrad : ∀ grad ∈ grads, grad ∈ later.context.ids := by
    intro grad hg
    obtain ⟨id, _, p, _, hty, _⟩ := forall₂_exists_of_mem hgrads.flip hg
    exact Context.isSome_typeOf?.mp (Option.isSome_of_mem hty)
  have hparams : later.params = c.function.params := by
    rw [hadv.grows.params, start, Builder.params_ofFunction]
  refine Function.verify_eq_ok_iff.mpr (hadv.sound.finish ?_ ?_)
  · intro id hid
    rcases List.mem_append.mp hid with hid | hid
    · have hsource := hc.wellFormed.mem_context (List.mem_append_right _ hid)
      rw [← context_start] at hsource
      exact hadv.grows.mem_ids hsource
    · exact hgrad id (Function.mem_newOutputs.mp hid).1
  · intro id hid
    have hvalues : (ReturnExpr.tuple [.value target, .tuple (grads.map .value)]).values =
        target :: grads := by
      show [target] ++ (ReturnExpr.valuesList (grads.map .value) ++ []) = _
      rw [ReturnExpr.valuesList_map_value, List.append_nil]
      rfl
    rw [hvalues] at hid
    rw [hparams, ← List.append_assoc]
    rcases List.mem_cons.mp hid with rfl | hid
    · refine List.mem_append_left _ (hc.wellFormed.returns id ?_)
      rw [hret]
      exact List.mem_singleton.mpr rfl
    · by_cases hout : id ∈ c.function.regions.flatMap Region.outputs
      · exact List.mem_append_left _ (List.mem_append_right _ hout)
      · exact List.mem_append_right _ (Function.mem_newOutputs.mpr ⟨hid, hout⟩)

/-- What is held for parameters has the types of the parameters. -/
theorem exists_typeList?_of_holds (hc : c.Grounded) {ids grads : List ValueId} {later : Builder}
    (hgrads : List.Forall₂ (c.Holds s later) ids grads) :
    ∃ tys, ReturnExpr.typeList? later.context.typeOf? (grads.map .value) = some tys ∧
      List.Forall₂ (fun id ty => c.types id = some ty) ids tys := by
  induction hgrads with
  | nil => exact ⟨[], rfl, .nil⟩
  | @cons id grad ids grads h _ ih =>
    obtain ⟨p, hp, hty, _⟩ := h
    obtain ⟨tys, htys, hids⟩ := ih
    refine ⟨p.ty :: tys, ?_, .cons (hc.wellFormed.typeOf?_param hp) hids⟩
    rw [List.map_cons, ReturnExpr.typeList?, ReturnExpr.type?, hty, htys]

/-- **The gradient returns** the scalar, and for each requested parameter a value of its type. -/
theorem Fits.exists_returnType (hc : c.Grounded) (hs : c.Fits s) {target : ValueId}
    {spec : TensorSpec} (htype : c.types target = some (.tensor spec)) {ids grads : List ValueId}
    {later : Builder} (hlater : s.builder.Advances later)
    (hgrads : List.Forall₂ (c.Holds s later) ids grads) :
    ∃ tys, (c.function.gradient target grads later).returnType? =
        some (.tuple [.tensor spec, .tuple tys]) ∧
      List.Forall₂ (fun id ty => c.types id = some ty) ids tys := by
  have htypeOf : (c.function.gradient target grads later).typeOf? = later.context.typeOf? := by
    rw [Function.typeOf?_eq_context, Function.context, Function.gradient,
      Builder.bindings_finish]
    rfl
  have htarget : later.context.typeOf? target = some (.tensor spec) :=
    hlater.grows.typeOf?_of_eq_some (hs.typeOf?_of_eq_some htype)
  obtain ⟨tys, htys, hids⟩ := exists_typeList?_of_holds hc hgrads
  refine ⟨tys, ?_, hids⟩
  rw [Function.returnType?, htypeOf]
  show (ReturnExpr.tuple [.value target, .tuple (grads.map .value)]).type? _ = _
  simp only [ReturnExpr.type?, ReturnExpr.typeList?, htarget, htys, Option.map_some]

/-- Bound gradients are checked and make the gradient function. -/
theorem Fits.finish_eq (hc : c.Grounded) (hs : c.Fits s) (config : GradientConfig)
    {target : ValueId} (hret : c.function.ret = .value target) {ids grads : List ValueId}
    {later : Builder}
    (hrun : c.bindGradients [] s ids = .ok (grads, { s with builder := later }))
    (hlater : s.builder.Advances later) (hgrads : List.Forall₂ (c.Holds s later) ids grads) :
    c.function.finishGradient c config target ids s =
      .ok (c.function.gradient target grads later) := by
  have hverify := hs.verify_gradient hc hret hlater hgrads
  rw [Function.finishGradient, hrun, ok_bind]
  show (if config.verifyOutput then (c.function.gradient target grads later).verify.mapError _
    else .ok ()) >>= _ = _
  rw [hverify]
  cases config.verifyOutput with
  | true => rfl
  | false => rfl

/-- **A sweep that succeeds** leads to a gradient, in which what the sweep left pending is held
for each requested parameter. -/
theorem Fits.exists_gradient (hc : c.Grounded) (hs : c.Fits s) (config : GradientConfig)
    {target : ValueId} (hret : c.function.ret = .value target) {ids : List ValueId}
    (hids : ∀ id ∈ ids, id ∈ c.function.paramIds) :
    ∃ grads later, s.builder.Advances later ∧ List.Forall₂ (c.Holds s later) ids grads ∧
      s.builder.Runs later (c.Evaluates s) ∧
      c.function.finishGradient c config target ids s =
        .ok (c.function.gradient target grads later) := by
  obtain ⟨grads, later, hrun, hlater, hgrads, hready⟩ := hs.exists_bindGradients hc hids
    hs.advances.sound.advances_refl fun id x (h : List.lookup id [] = some x) => by simp at h
  refine ⟨grads, later, hlater, hgrads,
    fun α ar custom env h => hready α ar custom env env h (s.builder.leads_refl env), ?_⟩
  exact hs.finish_eq hc config hret hrun hlater hgrads

end SweepContext

end TensorGraph
