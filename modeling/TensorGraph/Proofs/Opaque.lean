/-
# TensorGraph.Proofs.Opaque -- what becomes of opaque operators

The table of rules goes by names, and the name of a custom call is its target. Differentiation
says that a rule is missing only where the table has none (`Function.rule_missing`), and a sweep
that comes to a custom call whose value has a pending adjoint fails for want of a rule exactly if
no operator with a built-in rule is spelled like the target (`Function.differentiate_customCall`).
A target that is spelled so is not opaque to the sweep: it finds the rule of that operator.
-/
import TensorGraph.Proofs.Swept

namespace TensorGraph

/-- **There is a built-in rule** for the names in the table and for no other. -/
theorem RuleTable.find?_builtinOnly_eq_none_iff {name : String} :
    RuleTable.builtinOnly.find? name = none ↔ name ∉ GradientRule.builtin.map Prod.fst := by
  rw [find?_builtinOnly, List.lookup_eq_none_iff, List.mem_map]
  constructor
  · rintro h ⟨entry, hentry, rfl⟩
    exact absurd (h entry hentry) (by simp)
  · intro h entry hentry
    exact bne_iff_ne.mpr fun he => h ⟨entry, hentry, he.symm⟩

namespace SweepContext

variable {c : SweepContext} {α β : Type}

/-! ## Where a rule is missed -/

/-- **`Candid`** -- a computation that fails for want of a rule names an operator for which the
table has none. -/
def Candid (c : SweepContext) (x : Except TransformError α) : Prop :=
  ∀ name op, x = .error (.missingRule name op) →
    name = c.function.name ∧ c.rules.find? op = none

theorem candid_ok (c : SweepContext) (a : α) : c.Candid (.ok a : Except TransformError α) := by
  intro name op h
  cases h

/-- Failures of another kind are candid. -/
theorem candid_error (c : SweepContext) {e : TransformError}
    (he : ∀ name op, e ≠ .missingRule name op) : c.Candid (.error e : Except TransformError α) :=
  fun name op h => absurd (Except.error.inj h) (he name op)

theorem candid_misfit (c : SweepContext) (fault : Misfit) :
    c.Candid (.error (c.misfit fault) : Except TransformError α) :=
  c.candid_error (by simp [misfit])

theorem candid_ruleFailed (c : SweepContext) (op : Operation) (failure : RuleFailure) :
    c.Candid (.error (c.ruleFailed op failure) : Except TransformError α) :=
  c.candid_error (by simp [ruleFailed])

/-- Chains of candid computations are candid. -/
theorem Candid.bind {x : Except TransformError α} {f : α → Except TransformError β}
    (hx : c.Candid x) (hf : ∀ a, c.Candid (f a)) : c.Candid (x >>= f) := by
  intro name op h
  cases x with
  | ok a => exact hf a name op h
  | error e =>
    cases h
    exact hx name op rfl

theorem Candid.mapError {ε : Type} {x : Except ε α} {g : ε → TransformError}
    (hg : ∀ e, c.Candid (.error (g e) : Except TransformError α)) : c.Candid (x.mapError g) := by
  cases x with
  | ok a => exact c.candid_ok a
  | error e => exact hg e

theorem Candid.foldlM {f : β → α → Except TransformError β} (hf : ∀ b a, c.Candid (f b a))
    (as : List α) (b : β) : c.Candid (as.foldlM f b) := by
  induction as generalizing b with
  | nil => exact c.candid_ok b
  | cons a as ih =>
    rw [List.foldlM_cons]
    exact (hf b a).bind ih

theorem Candid.mapM {f : α → Except TransformError β} (hf : ∀ a, c.Candid (f a))
    (as : List α) : c.Candid (as.mapM f) := by
  induction as with
  | nil => exact c.candid_ok []
  | cons a as ih =>
    rw [List.mapM_cons]
    exact (hf a).bind fun b => ih.bind fun bs => c.candid_ok (b :: bs)

theorem candid_emit (c : SweepContext) (s : SweepState) (step : Emit α) :
    c.Candid (c.emit s step) := by
  rw [emit]
  split
  · exact c.candid_ok _
  · exact c.candid_misfit _

theorem candid_accumulate (c : SweepContext) (s : SweepState) (x : Operand) (a : Adjoint) :
    c.Candid (c.accumulate s x a) := by
  cases x with
  | literal constant => exact c.candid_ok s
  | value id =>
    rw [accumulate, accumulateValue]
    split
    · exact c.candid_ok _
    · split
      · exact c.candid_ok _
      · exact c.candid_misfit _
  | tupleElement tuple index =>
    rw [accumulate, accumulateElement]
    simp only [pure_eq_ok, ok_bind]
    split
    · split
      · exact c.candid_ok _
      · exact c.candid_misfit _
    · split
      · exact c.candid_ok s
      · split
        · split
          · exact c.candid_ok _
          · exact c.candid_misfit _
        · exact c.candid_misfit _

mutual

theorem candid_routeField (c : SweepContext) (s : SweepState) (field : TupleField) (a : Adjoint) :
    c.Candid (c.routeField s field a) := by
  cases field with
  | operand x =>
    rw [routeField]
    exact c.candid_accumulate s x a
  | tuple fields =>
    cases a with
    | tuple components =>
      rw [routeField]
      split
      · exact candid_routeFields c s fields components
      · exact c.candid_misfit _
    | leaf x spec => exact c.candid_misfit _
    | call op args spec => exact c.candid_misfit _
    | zeros spec => exact c.candid_misfit _

theorem candid_routeFields (c : SweepContext) (s : SweepState) (fields : List TupleField)
    (as : List Adjoint) : c.Candid (c.routeFields s fields as) := by
  cases fields with
  | nil =>
    rw [routeFields]
    · exact c.candid_ok s
    · simp
  | cons field fields =>
    cases as with
    | nil => exact c.candid_ok s
    | cons a as =>
      rw [routeFields]
      exact (candid_routeField c s field a).bind fun s' => candid_routeFields c s' fields as

end

theorem candid_fitPartial (c : SweepContext) (op : Operation) (arg a : Adjoint) :
    c.Candid (c.fitPartial op arg a) := by
  have hcheck : ∀ fitted : Adjoint, c.Candid (if fitted.spec? = arg.spec? then pure fitted
      else throw (c.ruleFailed op (.partialType fitted.type arg.type)) :
        Except TransformError Adjoint) := by
    intro fitted
    split
    · exact c.candid_ok fitted
    · exact c.candid_ruleFailed _ _
  rw [fitPartial]
  split
  · exact (Candid.mapError fun e => c.candid_misfit _).bind hcheck
  · exact hcheck a

theorem candid_spread (c : SweepContext) (op : Operation) (s : SweepState)
    (entries : List (Operand × Adjoint × Option Adjoint)) : c.Candid (c.spread op s entries) := by
  induction entries generalizing s with
  | nil => exact c.candid_ok s
  | cons entry entries ih =>
    obtain ⟨x, arg, partial?⟩ := entry
    cases partial? with
    | none => exact ih s
    | some a =>
      exact (c.candid_fitPartial op arg a).bind fun fitted =>
        (c.candid_accumulate s x fitted).bind ih

/-- **A call** is where a rule can be missed. -/
theorem candid_visitCall (c : SweepContext) (s : SweepState) (b : Binding) (op : Operation)
    (xs : List Operand) (a : Adjoint) : c.Candid (c.visitCall s b op xs a) := by
  rw [visitCall]
  split
  · exact c.candid_ruleFailed _ _
  · split
    · next hnone =>
      rintro name op' ⟨⟩
      exact ⟨rfl, hnone⟩
    · refine Candid.bind (Candid.mapM (fun x => ?_) xs) fun args => ?_
      · rw [operandLeaf]
        split
        · exact c.candid_ok _
        · exact c.candid_misfit _
      · refine Candid.bind (Candid.mapError fun e => c.candid_ruleFailed _ _) fun ps => ?_
        split
        · exact c.candid_spread op s _
        · exact c.candid_ruleFailed _ _

theorem candid_visit (c : SweepContext) (s : SweepState) (b : Binding) :
    c.Candid (c.visit s b) := by
  cases hp : s.adjoint? b.id with
  | none =>
    rw [visit, hp]
    exact c.candid_ok s
  | some pending =>
    rw [visit_eq hp]
    refine Candid.bind ?_ fun r => ?_
    · rw [settle]
      split
      · exact c.candid_emit _ _
      · exact c.candid_ok _
    · rw [pass]
      split
      · exact c.candid_visitCall _ _ _ _ _
      · exact c.candid_routeField _ _ _
      · exact c.candid_accumulate _ _ _
      · exact c.candid_accumulate _ _ _

theorem candid_run (c : SweepContext) (s : SweepState) : c.Candid (c.run s) :=
  Candid.foldlM c.candid_visit _ s

theorem candid_bindGradients (c : SweepContext) (bound : List (ValueId × ValueId)) (s : SweepState)
    (ids : List ValueId) : c.Candid (c.bindGradients bound s ids) := by
  induction ids generalizing bound s with
  | nil => exact c.candid_ok _
  | cons id ids ih =>
    rw [bindGradients]
    split
    · exact (ih bound s).bind fun r => c.candid_ok _
    · split
      · exact c.candid_error (by simp)
      · exact (c.candid_emit s _).bind fun r => (ih _ r.2).bind fun r' => c.candid_ok _

end SweepContext

namespace Function

variable {f : Function} {rules : RuleTable} {config : GradientConfig}
  {request : Option (List ValueId)}

theorem candid_gradientTarget (c : SweepContext) (f : Function) : c.Candid f.gradientTarget := by
  rw [gradientTarget]
  split
  · refine SweepContext.Candid.bind ?_ fun _ => ?_
    · rw [verifySource]
      split
      · exact c.candid_ok ()
      · exact c.candid_error (by simp)
      · exact c.candid_error (by simp)
    · rw [scalarTarget]
      split
      · split
        · split
          · exact c.candid_ok _
          · exact c.candid_error (by simp)
        · exact c.candid_error (by simp)
      · exact c.candid_error (by simp)
  · exact c.candid_error (by simp)

theorem candid_requestedParams (c : SweepContext) (f : Function)
    (request : Option (List ValueId)) : c.Candid (f.requestedParams request) := by
  cases request with
  | none => exact c.candid_ok f.paramIds
  | some ids =>
    rw [requestedParams]
    split
    · exact c.candid_error (by simp)
    · exact c.candid_ok ids

/-- **Differentiation says that a rule is missing** only where the table has none, and about the
function that is differentiated. -/
theorem rule_missing {name op : String}
    (h : f.differentiate rules config request = .error (.missingRule name op)) :
    name = f.name ∧ rules.find? op = none := by
  -- how errors are judged depends on the function and the rules, not on the index
  let c := f.sweep ⟨[]⟩ rules config
  refine (candid_gradientTarget c f).bind (fun r => ?_) name op h
  refine (candid_requestedParams c f request).bind fun requested => ?_
  refine SweepContext.Candid.bind (SweepContext.Candid.mapError fun _ => c.candid_error (by simp))
    fun index => ?_
  have hrun := (f.sweep index rules config).candid_run
  have hgrads := (f.sweep index rules config).candid_bindGradients
  refine SweepContext.Candid.bind (hrun _) fun swept => ?_
  refine SweepContext.Candid.bind (hgrads [] swept requested) fun bound => ?_
  show c.Candid (if config.verifyOutput then _ else _)
  split
  · exact SweepContext.Candid.bind (SweepContext.Candid.mapError fun _ => c.candid_error (by simp))
      fun _ => c.candid_ok _
  · exact c.candid_ok _

/-- **`SweepReaches`** -- the sweep comes to a binding with an adjoint for its value: the bindings
behind it have been visited without a failure, and they left something pending. -/
def SweepReaches (f : Function) (rules : RuleTable) (config : GradientConfig) (b : Binding) :
    Prop :=
  ∃ before after c s, f.bindings = before ++ b :: after ∧ f.SweepsTo rules config c after s ∧
    (s.adjoint? b.id).isSome

/-- **Custom calls are opaque up to their spelling.** Where the sweep of a verified function of
one region that returns a scalar comes to a custom call that makes a tensor, and finds an adjoint
pending, a missing rule for the target is reported exactly if no built-in rule goes by it. -/
theorem differentiate_customCall {spec : TensorSpec} (hv : f.verify = .ok ())
    (hone : f.regions.length = 1) (hreturn : f.returnType? = some (.tensor spec))
    (hscalar : spec.isScalar = true) (hrequest : ∀ id ∈ request.getD f.paramIds, id ∈ f.paramIds)
    {b : Binding} {target : String} {xs : List Operand} {out : TensorSpec}
    (he : b.expr = .call (.customCall target) xs) (hout : b.ty = .tensor out)
    (hb : f.SweepReaches .builtinOnly config b) :
    f.differentiate .builtinOnly config request = .error (.missingRule f.name target) ↔
      target ∉ GradientRule.builtin.map Prod.fst := by
  rw [← RuleTable.find?_builtinOnly_eq_none_iff]
  refine ⟨fun h => (rule_missing h).2, fun hnone => ?_⟩
  obtain ⟨before, after, c, s, hf, hsweep, hsome⟩ := hb
  have hmem : ∀ b' ∈ b :: after, b' ∈ f.bindings := fun b' hb' =>
    hf ▸ List.mem_append_right before hb'
  -- the visits that were made succeeded, so the pending adjoint can be settled
  obtain ⟨hfunction, hc, hs⟩ := hsweep.swept hv fun b' hb' => hmem b' (List.mem_cons_of_mem b hb')
  obtain ⟨pending, hpending⟩ := Option.isSome_iff_exists.mp hsome
  have hid := (hc.wellFormed.binding_spec (hfunction ▸ hmem b List.mem_cons_self)).1
  have hvisit := hs.fits.visit_ruleless hid he hout (hc.rules ▸ hnone) hpending
  obtain ⟨result, spec', index, hret, htype, hindex, rfl, hrun⟩ := hsweep
  have hspec : spec' = spec := by
    rw [returnType?, hret] at hreturn
    cases htype.symm.trans hreturn
    rfl
  subst hspec
  rw [differentiate_eq hindex hv hone hret htype hscalar .builtinOnly config hrequest,
    SweepContext.run,
    show (f.sweep index .builtinOnly config).function.bindings = f.bindings from rfl, hf,
    List.reverse_append, List.reverse_cons, List.append_assoc, List.foldlM_append, hrun, ok_bind,
    List.singleton_append, List.foldlM_cons, hvisit]
  rfl

/-- A scalar function that returns what a custom call makes of its parameter. -/
def opaqueCall (target : String) : Function where
  name := "f"
  params := [⟨⟨0⟩, "x", .tensor ⟨.f32, ⟨[]⟩⟩⟩]
  regions :=
    [⟨[⟨⟨1⟩, "y", .call (.customCall target) [.value ⟨0⟩], .tensor ⟨.f32, ⟨[]⟩⟩⟩], [⟨1⟩]⟩]
  ret := .value ⟨1⟩

/-- Its sweep starts at the call, with ones pending. -/
theorem sweepReaches_opaqueCall (target : String) :
    (opaqueCall target).SweepReaches .builtinOnly .standard
      ⟨⟨1⟩, "y", .call (.customCall target) [.value ⟨0⟩], .tensor ⟨.f32, ⟨[]⟩⟩⟩ :=
  ⟨[], [], _, _, rfl, ⟨⟨1⟩, ⟨.f32, ⟨[]⟩⟩, _, rfl, rfl, rfl, rfl, rfl⟩, rfl⟩

theorem opaqueCall_double_it_fails :
    (opaqueCall "double_it").differentiate .builtinOnly .standard none =
      .error (.missingRule "f" "double_it") :=
  (differentiate_customCall rfl rfl rfl rfl (by decide) rfl rfl
    (sweepReaches_opaqueCall "double_it")).mpr (by decide)

/-- **A target that is spelled like an operator is not opaque**: the call is verified and its
adjoint is pending when the sweep comes to it, but the gradient is that of an exponential. -/
theorem opaqueCall_exp_differentiates :
    ((opaqueCall "exp").verify = .ok () ∧ (opaqueCall "exp").regions.length = 1 ∧
      (opaqueCall "exp").returnType? = some (.tensor ⟨.f32, ⟨[]⟩⟩)) ∧
    (∃ b ∈ (opaqueCall "exp").bindings, b.expr = .call (.customCall "exp") [.value ⟨0⟩] ∧
      b.ty = .tensor ⟨.f32, ⟨[]⟩⟩ ∧ (opaqueCall "exp").SweepReaches .builtinOnly .standard b) ∧
    ∃ g, (opaqueCall "exp").differentiate .builtinOnly .standard none = .ok g ∧
      g.bindings.map Binding.expr = [.call (.customCall "exp") [.value ⟨0⟩], .call .ones [],
        .call .multiply [.value ⟨2⟩, .value ⟨1⟩]] ∧
      g.ret = .tuple [.value ⟨1⟩, .tuple [.value ⟨3⟩]] := by
  refine ⟨⟨rfl, rfl, rfl⟩, ⟨_, List.mem_singleton.mpr rfl, rfl, rfl, sweepReaches_opaqueCall "exp"⟩,
    _, rfl, ?_, rfl⟩
  rfl

end Function

end TensorGraph
