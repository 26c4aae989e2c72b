/-
# TensorGraph.Proofs.Conservation -- a gradient function extends its function

A gradient that was made keeps the parameters and the bindings of its function and appends to
them (`Function.Extends`): the new bindings have larger identities, free names, and read what
stands before them. What they apply are transparent operators and the only literals that they
read are those of the function. So wherever the function runs on complete tensors the gradient
function runs too, and returns first what the function returns
(`Function.differentiate_extends`). Calls of the function may be opaque, as long as what they
return is complete; they are run once, on the same operands.
-/
import TensorGraph.Proofs.Completeness
import TensorGraph.Proofs.Gradients
import TensorGraph.Proofs.Swept

namespace TensorGraph

variable {α : Type}

namespace Function

variable {f g : Function} {c : SweepContext} {target : ValueId} {spec : TensorSpec}
  {s : SweepState} {ids grads : List ValueId} {later : Builder}

/-- **`Extends`** -- a function of one region that keeps the parameters, bindings and outputs of
another and has new bindings and outputs behind them. -/
structure Extends (f g : Function) (new : List Binding) (extra : List ValueId) : Prop where
  /-- Parameters are the same. -/
  params : g.params = f.params
  /-- There is one region, with new bindings and outputs behind those that were there. -/
  regions : g.regions = [⟨f.bindings ++ new, f.regions.flatMap Region.outputs ++ extra⟩]
  /-- New identities are larger than the old ones. -/
  above : ∀ b ∈ new, ∀ id ∈ f.context.ids, id.index < b.id.index
  /-- New names are free. -/
  names_free : ∀ b ∈ new, b.name ∉ f.valueNames
  /-- New names differ. -/
  names_nodup : (new.map Binding.name).Nodup
  /-- New bindings read values of the function and of new bindings before them. -/
  reads : ∀ before b after, new = before ++ b :: after → ∀ id ∈ b.expr.values,
    id ∈ f.context.ids ∨ id ∈ before.map Binding.id

namespace Yields

theorem advances_start (h : f.Yields c target spec s ids grads later) : c.start.Advances later :=
  h.swept.fits.advances.trans h.advances

theorem params (h : f.Yields c target spec s ids grads later) : later.params = f.params := by
  rw [h.advances_start.grows.params, SweepContext.start, Builder.params_ofFunction, h.function]

/-- The bindings of a gradient function that are new. -/
theorem exists_new (h : f.Yields c target spec s ids grads later) :
    ∃ new, Builder.New c.Emits c.start later new ∧ later.bindings = f.bindings ++ new ∧
      f.context.Accepts new ∧ later.context = f.context ++ new.map Binding.entry := by
  obtain ⟨_, _, new, hnew⟩ := (h.swept.appends.trans h.appends).exists_new
  have hbindings : later.bindings = f.bindings ++ new := by
    rw [hnew.bindings, SweepContext.start, Builder.bindings_ofFunction, h.function]
  have haccepts := h.advances_start.sound.accepts
  rw [h.params, hbindings, Context.accepts_append] at haccepts
  refine ⟨new, hnew, hbindings, haccepts.2, ?_⟩
  rw [Builder.context, h.params, hbindings, List.map_append, ← List.append_assoc]
  rfl

/-- **The gradient function extends the function.** -/
theorem exists_extends (h : f.Yields c target spec s ids grads later) :
    ∃ new, f.Extends (f.gradient target grads later) new
      (newOutputs (f.regions.flatMap Region.outputs) grads) := by
  obtain ⟨new, hnew, hbindings, haccepts, _⟩ := h.exists_new
  have hsound := Builder.sound_ofFunction (c.adjointName c.function.name) h.grounded.wellFormed
  have hstart : c.start.context = f.context := by
    rw [SweepContext.context_start, h.function]
  refine ⟨new, h.params, ?_, ?_, ?_, hnew.names_nodup, ?_⟩
  · show [(⟨later.bindings, _⟩ : Region)] = _
    rw [hbindings]
  · -- the new identities are the next numbers, and those of the function are smaller
    intro b hb id hid
    rw [← hstart] at hid
    have hlt : id.index < c.start.nextIndex := hsound.bounded id hid
    have hmem : b.id ∈ new.map Binding.id := List.mem_map_of_mem hb
    rw [hnew.ids] at hmem
    obtain ⟨k, hk, he⟩ := List.mem_map.mp hmem
    have hle := (List.mem_range'_1.mp hk).1
    rw [← he]
    exact Nat.lt_of_lt_of_le hlt hle
  · intro b hb hm
    have htaken : c.start.names.isTaken b.name = true := by
      refine hsound.taken b.name ?_
      rw [Builder.valueNames, Builder.params_ofFunction, Builder.bindings_ofFunction, h.function]
      exact hm
    rw [(hnew.fresh b hb).1] at htaken
    cases htaken
  · rintro before b after rfl id hid
    have hb := (Context.accepts_append.mp haccepts).2.2.1
    have hmem := Context.isSome_typeOf?.mp (hb.isSome id hid)
    rw [Context.ids_append, Context.ids_map_entry] at hmem
    exact List.mem_append.mp hmem

/-- Where the literals of the function are of floating types, new bindings are plain. -/
theorem isPlain_of_new (h : f.Yields c target spec s ids grads later) {new : List Binding}
    (hnew : Builder.New c.Emits c.start later new)
    (hliterals : ∀ b ∈ f.bindings, ∀ l ∈ b.expr.constants, l.IsFloat) :
    ∀ b ∈ new, b.expr.IsPlain := by
  intro b hb
  obtain ⟨hint, _, _, he, _⟩ := hnew.allowed b hb
  refine ⟨he.transparent, fun l hl => ?_⟩
  obtain ⟨b', hb', hl'⟩ := he.constants l hl
  exact hliterals b' (h.function ▸ hb') l hl'

/-- **Behind a run on complete tensors** the new bindings run. -/
theorem exists_leads (h : f.Yields c target spec s ids grads later) (ar : Arithmetic α)
    (custom : CustomKernels α) {env : Env α} (henv : env.Fits f.context)
    (hliterals : ∀ b ∈ f.bindings, ∀ l ∈ b.expr.constants, l.IsFloat) :
    ∃ env', c.start.Leads ar custom later env env' ∧ env'.Fits later.context := by
  obtain ⟨new, hnew, _, haccepts, hcontext⟩ := h.exists_new
  obtain ⟨env', hrun, hfits⟩ :=
    henv.exists_run ar custom haccepts (h.isPlain_of_new hnew hliterals)
  exact ⟨env', ⟨new, hnew.bindings, hrun⟩, hcontext ▸ hfits⟩

/-- The target has the same value before and behind the new bindings. -/
theorem lookup_target (h : f.Yields c target spec s ids grads later) {ar : Arithmetic α}
    {custom : CustomKernels α} {env env' : Env α} (hl : c.start.Leads ar custom later env env') :
    env'.lookup target = env.lookup target :=
  hl.lookup_eq h.advances_start (by rw [SweepContext.context_start]; exact h.type)

/-- **The gradient function runs** on complete tensors on which the function runs. -/
theorem exists_run (h : f.Yields c target spec s ids grads later) {ar : Arithmetic α}
    {custom : CustomKernels α} {inputs : List (Value α)} {v : Value α}
    (hcustom : custom.IsComplete) (hin : ∀ x ∈ inputs, x.IsComplete)
    (hrun : f.run ar custom inputs = .ok v) :
    ∃ gs, (f.gradient target grads later).run ar custom inputs = .ok (.tuple [v, .tuple gs]) := by
  obtain ⟨hlen, start, final, hstart, hfinal, hret⟩ := run_eq_ok_iff.mp hrun
  have hw : f.WellFormed := h.function ▸ h.grounded.wellFormed
  -- the run of the function leaves complete tensors, from which the new bindings go on
  have hfits := (hw.hasTypes_of_run hlen hstart hfinal).fits
    (isComplete_of_run hcustom hin hstart hfinal)
  obtain ⟨final', hl, hfits'⟩ := h.exists_leads ar custom hfits (isFloat_of_run hfinal)
  obtain ⟨gs, hgs⟩ : ∃ gs, List.Forall₂ (fun grad v => final'.lookup grad = .ok v) grads gs := by
    refine exists_forall₂ fun grad hg => ?_
    obtain ⟨id, _, p, _, hty, _⟩ := forall₂_exists_of_mem h.holds.flip hg
    obtain ⟨v, hv, _⟩ := hfits' grad p.ty hty
    exact ⟨v, hv⟩
  have hy : final'.lookup target = .ok v := by
    rw [h.lookup_target hl]
    rw [h.ret] at hret
    exact hret
  have hgrows : (Builder.ofFunction (c.adjointName c.function.name) f).Grows later :=
    h.function ▸ h.advances_start.grows
  exact ⟨gs, (gradient_run_eq_ok_iff hgrows).mpr
    ⟨hlen, start, final, final', v, gs, hstart, hfinal, h.function ▸ hl, hy, hgs, rfl⟩⟩

end Yields

/-- **Differentiation is conservative.** A gradient function has the parameters of its function
and one region, which begins with the bindings and outputs of the function; what is appended has
larger identities and free names and reads what stands before it. Where the function runs on
complete tensors, with opaque operators that return complete tensors, the gradient function runs
and returns first what the function returns. -/
theorem differentiate_extends {config : GradientConfig} {request : Option (List ValueId)}
    (h : f.differentiate .builtinOnly config request = .ok g) :
    ∃ new extra, f.Extends g new extra ∧
      ∀ (α : Type) (ar : Arithmetic α) (custom : CustomKernels α) (inputs : List (Value α))
        (v : Value α), custom.IsComplete → (∀ x ∈ inputs, x.IsComplete) →
          f.run ar custom inputs = .ok v →
            ∃ gs, g.run ar custom inputs = .ok (.tuple [v, .tuple gs]) := by
  obtain ⟨c, target, spec, s, _, ⟨grads, later, hyields, rfl⟩, _⟩ := exists_of_differentiate h
  obtain ⟨new, hextends⟩ := hyields.exists_extends
  exact ⟨new, _, hextends, fun α ar custom inputs v hcustom hin hrun =>
    hyields.exists_run hcustom hin hrun⟩

/-- A sum of squares whose summands have the name of an adjoint; beside it stands a probe, under
the name of intermediate values. -/
def probedSquares : Function where
  name := "probed_squares"
  params := [⟨⟨0⟩, "x", .tensor ⟨.f32, ⟨[2]⟩⟩⟩]
  regions :=
    [⟨[⟨⟨1⟩, "lv", .call (.customCall "probe") [.value ⟨0⟩], .tensor ⟨.f32, ⟨[1]⟩⟩⟩,
        ⟨⟨2⟩, "x_adjoint", .call .multiply [.value ⟨0⟩, .value ⟨0⟩], .tensor ⟨.f32, ⟨[2]⟩⟩⟩,
        ⟨⟨3⟩, "total", .call (.sum none false) [.value ⟨2⟩], .tensor ⟨.f32, ⟨[]⟩⟩⟩],
      [⟨3⟩]⟩]
  ret := .value ⟨3⟩

/-- A probe that counts its operands. -/
def countingProbe : CustomKernels ℚ := fun _ inputs output =>
  some (.ok (.filled output inputs.length))

theorem probedSquares_extends :
    ∃ g new extra v gs, probedSquares.differentiate .builtinOnly .standard none = .ok g ∧
      probedSquares.Extends g new extra ∧
      probedSquares.run (.exact plainReading) countingProbe
        [.tensor ⟨⟨.f32, ⟨[2]⟩⟩, #[3, 4]⟩] = .ok v ∧
      g.run (.exact plainReading) countingProbe [.tensor ⟨⟨.f32, ⟨[2]⟩⟩, #[3, 4]⟩] =
        .ok (.tuple [v, .tuple gs]) := by
  obtain ⟨g, hg⟩ : ∃ g, probedSquares.differentiate .builtinOnly .standard none = .ok g :=
    exists_eq_ok_of_isOk (by decide +kernel)
  obtain ⟨v, hv⟩ : ∃ v, probedSquares.run (.exact plainReading) countingProbe
      [.tensor ⟨⟨.f32, ⟨[2]⟩⟩, #[3, 4]⟩] = .ok v := exists_eq_ok_of_isOk (by decide +kernel)
  obtain ⟨new, extra, hextends, hrun⟩ := differentiate_extends hg
  have hcustom : countingProbe.IsComplete := by
    intro target inputs output t ht
    cases ht
    exact Tensor.size_filled _ _
  obtain ⟨gs, hgs⟩ := hrun ℚ (.exact plainReading) countingProbe _ v hcustom
    (fun x hx => by cases List.mem_singleton.mp hx; rfl) hv
  exact ⟨g, new, extra, v, gs, hg, hextends, hv, hgs⟩

end Function

end TensorGraph
