/-
# TensorGraph.Proofs.Requests -- a gradient does not depend on what else is requested

The sweep comes first and does not look at the request; the gradients are bound behind it, each
to what the sweep left pending for its parameter. Two gradient functions of one function
therefore compute the same values up to the end of the sweep, and what is pending has one value
there, whichever of them binds it (`Function.Yields.exists_pending`). A request of parameters in
any order, with repetitions or with none at all, gives the gradients that the request of all
parameters gives (`Function.differentiate_request`). That the gradients run where the function
runs takes complete tensors and, in machine words, types that fit them
(`Function.gradients_stop`).
-/
import TensorGraph.Proofs.Conservation
import TensorGraph.Proofs.WordRuns

namespace TensorGraph

variable {α : Type}

/-- What stands in the place of a key in a second list. -/
theorem exists_lookup_zip {κ β : Type} [BEq κ] [LawfulBEq κ] {R : κ → β → Prop} {ks : List κ}
    {vs : List β} (h : List.Forall₂ R ks vs) {k : κ} (hk : k ∈ ks) :
    ∃ v, (ks.zip vs).lookup k = some v ∧ R k v := by
  induction h with
  | nil => exact absurd hk List.not_mem_nil
  | @cons k' v ks vs hkv _ ih =>
    rw [List.zip_cons_cons, List.lookup_cons]
    by_cases he : k = k'
    · subst he
      exact ⟨v, by rw [beq_self_eq_true], hkv⟩
    · obtain ⟨w, hw, hkw⟩ := ih ((List.mem_cons.mp hk).resolve_left he)
      exact ⟨w, by rw [beq_false_of_ne he]; exact hw, hkw⟩

namespace SweepContext

variable {c : SweepContext} {s : SweepState} {ar : Arithmetic α} {custom : CustomKernels α}
  {env : Env α}

/-- **`Pends`** -- what is pending for a parameter has a value of the type of the parameter. -/
def Pends (c : SweepContext) (s : SweepState) (ar : Arithmetic α) (custom : CustomKernels α)
    (env : Env α) (id : ValueId) (v : Value α) : Prop :=
  ∃ p, c.function.param? id = some p ∧ (s.current id p.ty).eval ar custom env = .ok v ∧
    v.hasType p.ty = true

/-- Gradients of all parameters evaluate what is pending. -/
theorem evaluates_of_pends {vs : List (Value α)}
    (h : List.Forall₂ (c.Pends s ar custom env) c.function.paramIds vs) (hc : c.Grounded) :
    c.Evaluates s ar custom env := by
  intro p hp
  obtain ⟨v, _, q, hq, hv, hty⟩ := forall₂_exists_of_mem h (List.mem_map_of_mem hp)
  have htype : q.ty = p.ty := by
    refine Option.some.inj ((hc.wellFormed.typeOf?_param hq).symm.trans ?_)
    exact (Context.typeOf?_eq_some_iff hc.wellFormed.nodup).mpr
      (List.mem_append_left _ (List.mem_map_of_mem hp))
  exact ⟨v, htype ▸ hv, htype ▸ hty⟩

end SweepContext

namespace Function

variable {f g : Function} {c : SweepContext} {target : ValueId} {spec : TensorSpec}
  {s : SweepState} {ids ids' grads grads' : List ValueId} {later later' : Builder}
  {ar : Arithmetic α} {custom : CustomKernels α} {inputs : List (Value α)} {w : Value α}

/-- **A run of a gradient function**, taken apart at the end of the sweep: the gradients are the
values of what is pending there. -/
theorem Yields.exists_pending (h : f.Yields c target spec s ids grads later)
    (hrun : (f.gradient target grads later).run ar custom inputs = .ok w) :
    ∃ start final env y gs, f.params.length = inputs.length ∧
      Env.empty.pushInputs (f.params.zip inputs) = .ok start ∧
      f.bindings.foldlM (Env.step ar custom) start = .ok final ∧ final.lookup target = .ok y ∧
      c.start.Leads ar custom s.builder final env ∧
      List.Forall₂ (c.Pends s ar custom env) ids gs ∧ w = .tuple [y, .tuple gs] := by
  have hw : f.WellFormed := h.function ▸ h.grounded.wellFormed
  have hgrows : (Builder.ofFunction (c.adjointName c.function.name) f).Grows later :=
    h.function ▸ h.advances_start.grows
  obtain ⟨hlen, start, final, final', y, gs, hstart, hfinal, hl, hy, hgs, rfl⟩ :=
    (gradient_run_eq_ok_iff hgrows).mp hrun
  have hl : c.start.Leads ar custom later final final' := by
    rw [SweepContext.start, h.function]
    exact h.function ▸ hl
  obtain ⟨env, hsweep, hbind⟩ := hl.split h.swept.fits.advances.grows h.advances.grows
  rw [h.lookup_target hl] at hy
  -- bound values have the types that are declared
  have htypes : final'.HasTypes later.context := by
    obtain ⟨new, hnew, hbindings, haccepts, hcontext⟩ := h.exists_new
    obtain ⟨new', hnew', hrunnew⟩ := hl
    rw [hnew.bindings] at hnew'
    cases List.append_cancel_left hnew'
    rw [hcontext]
    exact (hw.hasTypes_of_run hlen hstart hfinal).run haccepts hrunnew
  refine ⟨start, final, env, y, gs, hlen, hstart, hfinal, hy, hsweep, ?_, rfl⟩
  refine forall₂_comp h.holds hgs fun id grad v hhold hlookup => ?_
  obtain ⟨p, hp, hty, heval⟩ := hhold
  refine ⟨p, hp, ?_, ?_⟩
  · rw [← heval α ar custom env final' hbind, hlookup]
  · obtain ⟨v', hv', ht⟩ := htypes grad p.ty hty
    rw [hlookup] at hv'
    cases hv'
    exact ht

/-- **From the end of the sweep on** another gradient function returns the values of what is
pending for its request. -/
theorem Yields.run_of_pending (h : f.Yields c target spec s ids grads later)
    {start final env : Env α} {y : Value α} {vs gs : List (Value α)}
    (hlen : f.params.length = inputs.length)
    (hstart : Env.empty.pushInputs (f.params.zip inputs) = .ok start)
    (hfinal : f.bindings.foldlM (Env.step ar custom) start = .ok final)
    (hy : final.lookup target = .ok y) (hl : c.start.Leads ar custom s.builder final env)
    (hall : List.Forall₂ (c.Pends s ar custom env) c.function.paramIds vs)
    (hgs : List.Forall₂ (c.Pends s ar custom env) ids gs) :
    (f.gradient target grads later).run ar custom inputs = .ok (.tuple [y, .tuple gs]) := by
  obtain ⟨env', hbind⟩ := h.runs α ar custom env (SweepContext.evaluates_of_pends hall h.grounded)
  have hl' := hl.trans hbind
  have hgrows : (Builder.ofFunction (c.adjointName c.function.name) f).Grows later :=
    h.function ▸ h.advances_start.grows
  refine (gradient_run_eq_ok_iff hgrows).mpr
    ⟨hlen, start, final, env', y, gs, hstart, hfinal, h.function ▸ hl', ?_, ?_, rfl⟩
  · rw [h.lookup_target hl', hy]
  · refine forall₂_comp h.holds.flip hgs fun grad id v hhold hpends => ?_
    obtain ⟨p, hp, _, heval⟩ := hhold
    obtain ⟨q, hq, hv, _⟩ := hpends
    cases hp.symm.trans hq
    rw [heval α ar custom env env' hbind, hv]

/-- **In words** a gradient function whose types and literals are in words returns what it
returns without bound, on complete tensors. -/
theorem Yields.run_words (h : f.Yields c target spec s ids grads later)
    (hw : (f.gradient target grads later).InWords) (hcustom : custom.IsComplete)
    (hin : ∀ x ∈ inputs, x.IsComplete) (sizes : Sizes) :
    Below ((f.gradient target grads later).run ar custom inputs)
      ((f.gradient target grads later).run ar custom inputs sizes) := by
  have hsound := h.advances_start.sound
  refine hw.run_words sizes ar hsound.params_nodup ?_ hcustom hin
  rw [gradient, Builder.bindings_finish]
  exact hsound.accepts

/-- **A requested gradient does not depend on what else is requested.** When all parameters of a
function have gradients, every list of parameters, in any order and with repetitions, has a
gradient function. On all inputs on which the former runs the latter runs too: both return what
the function returns, and the gradients of the latter are those that the former returns for the
requested parameters. On complete tensors both run wherever the function runs, and where the
types and literals of both are in words, they do so in all sizes alike. -/
theorem differentiate_request {config : GradientConfig}
    (h : f.differentiate .builtinOnly config none = .ok g) {ids : List ValueId}
    (hids : ∀ id ∈ ids, id ∈ f.paramIds) :
    ∃ g', f.differentiate .builtinOnly config (some ids) = .ok g' ∧
      ∀ (α : Type) (ar : Arithmetic α) (custom : CustomKernels α) (inputs : List (Value α)),
        (∀ w, g.run ar custom inputs = .ok w → ∃ y gs requested,
          f.run ar custom inputs = .ok y ∧ w = .tuple [y, .tuple gs] ∧
          gs.length = f.params.length ∧
          List.Forall₂ (fun id v => (f.paramIds.zip gs).lookup id = some v) ids requested ∧
          g'.run ar custom inputs = .ok (.tuple [y, .tuple requested])) ∧
        (custom.IsComplete → (∀ x ∈ inputs, x.IsComplete) →
          ∀ y, f.run ar custom inputs = .ok y → ∃ gs requested,
            gs.length = f.params.length ∧
            List.Forall₂ (fun id v => (f.paramIds.zip gs).lookup id = some v) ids requested ∧
            ∀ sizes, sizes = .exact ∨ g.InWords ∧ g'.InWords →
              g.run ar custom inputs sizes = .ok (.tuple [y, .tuple gs]) ∧
              g'.run ar custom inputs sizes = .ok (.tuple [y, .tuple requested])) := by
  obtain ⟨c, target, spec, s, _, ⟨grads, later, hall, rfl⟩, hothers⟩ := exists_of_differentiate h
  obtain ⟨grads', later', hyields, hg'⟩ := hothers ids hids
  have hparams : c.function.paramIds = f.paramIds := by rw [hall.function]
  have hboth : ∀ (α : Type) (ar : Arithmetic α) (custom : CustomKernels α)
      (inputs : List (Value α)) (w : Value α),
      (f.gradient target grads later).run ar custom inputs = .ok w → ∃ y gs requested,
        f.run ar custom inputs = .ok y ∧ w = .tuple [y, .tuple gs] ∧
        gs.length = f.params.length ∧
        List.Forall₂ (fun id v => (f.paramIds.zip gs).lookup id = some v) ids requested ∧
        (f.gradient target grads' later').run ar custom inputs =
          .ok (.tuple [y, .tuple requested]) := by
    intro α ar custom inputs w hrun
    obtain ⟨start, final, env, y, gs, hlen, hstart, hfinal, hy, hl, hpends, rfl⟩ :=
      hall.exists_pending hrun
    have hpends : List.Forall₂ (c.Pends s ar custom env) f.paramIds gs := hpends
    obtain ⟨requested, hrequested⟩ : ∃ requested, List.Forall₂ (fun id v =>
        (f.paramIds.zip gs).lookup id = some v ∧ c.Pends s ar custom env id v) ids requested :=
      exists_forall₂ fun id hid => exists_lookup_zip hpends (hids id hid)
    refine ⟨y, gs, requested, ?_, rfl, ?_, hrequested.imp fun _ _ h => h.1, ?_⟩
    · exact run_eq_ok_iff.mpr ⟨hlen, start, final, hstart, hfinal, by rw [hall.ret]; exact hy⟩
    · rw [← hpends.length_eq, paramIds, List.length_map]
    · exact hyields.run_of_pending hlen hstart hfinal hy hl (hparams ▸ hpends)
        (hrequested.imp fun _ _ h => h.2)
  refine ⟨_, hg', fun α ar custom inputs => ⟨hboth α ar custom inputs, ?_⟩⟩
  intro hcustom hin y hy
  obtain ⟨gs, hgs⟩ := hall.exists_run hcustom hin hy
  obtain ⟨y', gs', requested, hy', he, hlength, hrequested, hrun⟩ := hboth α ar custom inputs _ hgs
  obtain rfl := Except.ok.inj (hy.symm.trans hy')
  obtain rfl : gs = gs' := by simpa using he
  refine ⟨gs, requested, hlength, hrequested, ?_⟩
  rintro sizes (rfl | ⟨hw, hw'⟩)
  · exact ⟨hgs, hrun⟩
  · exact ⟨hall.run_words hw hcustom hin sizes _ hgs,
      hyields.run_words hw' hcustom hin sizes _ hrun⟩

/-- A row of weights against a row from a pair. -/
def weightedRow : Function where
  name := "weighted_row"
  params :=
    [⟨⟨0⟩, "weights", .tensor ⟨.f32, ⟨[2]⟩⟩⟩,
      ⟨⟨1⟩, "pair", .tuple [.tensor ⟨.f32, ⟨[2]⟩⟩, .tensor ⟨.f32, ⟨[1]⟩⟩]⟩]
  regions :=
    [⟨[⟨⟨2⟩, "terms", .call .multiply [.value ⟨0⟩, .tupleElement ⟨1⟩ 0],
          .tensor ⟨.f32, ⟨[2]⟩⟩⟩,
        ⟨⟨3⟩, "total", .call (.sum none false) [.value ⟨2⟩], .tensor ⟨.f32, ⟨[]⟩⟩⟩],
      [⟨3⟩]⟩]
  ret := .value ⟨3⟩

/-- Weights and a pair. -/
def weightedRowInputs : List (Value ℚ) :=
  [.tensor ⟨⟨.f32, ⟨[2]⟩⟩, #[3, 4]⟩,
    .tuple [.tensor ⟨⟨.f32, ⟨[2]⟩⟩, #[5, 6]⟩, .tensor ⟨⟨.f32, ⟨[1]⟩⟩, #[7]⟩]]

/-- The pair is requested twice, and the weights between. -/
theorem weightedRow_request :
    ∃ g g' y gs requested, weightedRow.differentiate .builtinOnly .standard none = .ok g ∧
      weightedRow.differentiate .builtinOnly .standard (some [⟨1⟩, ⟨0⟩, ⟨1⟩]) = .ok g' ∧
      List.Forall₂ (fun id v => (weightedRow.paramIds.zip gs).lookup id = some v)
        [⟨1⟩, ⟨0⟩, ⟨1⟩] requested ∧
      ∀ sizes,
        g.run (.exact plainReading) CustomKernels.none weightedRowInputs sizes =
          .ok (.tuple [y, .tuple gs]) ∧
        g'.run (.exact plainReading) CustomKernels.none weightedRowInputs sizes =
          .ok (.tuple [y, .tuple requested]) := by
  obtain ⟨g, hg⟩ : ∃ g, weightedRow.differentiate .builtinOnly .standard none = .ok g :=
    exists_eq_ok_of_isOk (by decide +kernel)
  obtain ⟨y, hy⟩ : ∃ y, weightedRow.run (.exact plainReading) CustomKernels.none
      weightedRowInputs = .ok y := exists_eq_ok_of_isOk (by decide +kernel)
  have hids : ∀ id ∈ [(⟨1⟩ : ValueId), ⟨0⟩, ⟨1⟩], id ∈ weightedRow.paramIds := by decide
  obtain ⟨g', hg', hruns⟩ := differentiate_request hg hids
  obtain ⟨_, hcomplete⟩ := hruns ℚ (.exact plainReading) CustomKernels.none weightedRowInputs
  have hinputs : ∀ x ∈ weightedRowInputs, x.IsComplete := by
    intro x hx
    rcases List.mem_pair.mp hx with rfl | rfl
    · rfl
    · exact ⟨rfl, rfl, trivial⟩
  obtain ⟨gs, requested, _, hrequested, hsizes⟩ :=
    hcomplete (fun _ _ _ _ h => by cases h) hinputs y hy
  have hwords : g.InWords ∧ g'.InWords := by
    constructor
    · exact of_toOption_all hg (by decide +kernel)
    · exact of_toOption_all hg' (by decide +kernel)
  exact ⟨g, g', y, gs, requested, hg, hg', hrequested, fun sizes => hsizes sizes (.inr hwords)⟩

/-- The cross entropy of logits and labels. -/
def plainLoss : Function where
  name := "plain_loss"
  params := [⟨⟨0⟩, "z", .tensor ⟨.f32, ⟨[2]⟩⟩⟩, ⟨⟨1⟩, "t", .tensor ⟨.f32, ⟨[2]⟩⟩⟩]
  regions :=
    [⟨[⟨⟨2⟩, "y", .call .softmaxCrossEntropy [.value ⟨0⟩, .value ⟨1⟩], .tensor (.scalar .f32)⟩],
      [⟨2⟩]⟩]
  ret := .value ⟨2⟩

/-- The sum of a tensor without elements, stretched along one more axis. -/
def stretchedSum : Function where
  name := "stretched_sum"
  params := [⟨⟨0⟩, "x", .tensor ⟨.f32, ⟨[0, 2 ^ 32, 2 ^ 32]⟩⟩⟩,
    ⟨⟨1⟩, "b", .tensor ⟨.f32, ⟨[1, 1, 1, 1]⟩⟩⟩]
  regions :=
    [⟨[⟨⟨2⟩, "y", .call .add [.value ⟨0⟩, .value ⟨1⟩],
          .tensor ⟨.f32, ⟨[1, 0, 2 ^ 32, 2 ^ 32]⟩⟩⟩,
        ⟨⟨3⟩, "s", .call (.sum none false) [.value ⟨2⟩], .tensor (.scalar .f32)⟩], [⟨3⟩]⟩]
  ret := .value ⟨3⟩

/-- The sum of a matrix product that adds nothing, with `2 ^ 64` elements. -/
def emptyProduct : Function where
  name := "empty_product"
  params := [⟨⟨0⟩, "x", .tensor ⟨.f32, ⟨[2, 0]⟩⟩⟩, ⟨⟨1⟩, "y", .tensor ⟨.f32, ⟨[0, 2 ^ 63]⟩⟩⟩]
  regions :=
    [⟨[⟨⟨2⟩, "m", .call .matmul [.value ⟨0⟩, .value ⟨1⟩], .tensor ⟨.f32, ⟨[2, 2 ^ 63]⟩⟩⟩,
        ⟨⟨3⟩, "s", .call (.sum none false) [.value ⟨2⟩], .tensor (.scalar .f32)⟩], [⟨3⟩]⟩]
  ret := .value ⟨3⟩

/-- A gradient function, asked for the gradient of the first parameter, that stops on inputs on
which the function runs. -/
def GradientStops (f : Function) (inputs : List (Value ℚ)) (sizes : Sizes) : Prop :=
  (f.differentiate .builtinOnly .standard none).isOk = true ∧
    (f.run (.exact plainReading) CustomKernels.none inputs sizes).isOk = true ∧
    (f.differentiate .builtinOnly .standard (some [⟨0⟩])).toOption.any (fun g =>
      !(g.run (.exact plainReading) CustomKernels.none inputs sizes).isOk) = true

/-- **A gradient does not run wherever the function runs.** A softmax checks the number of its
elements, which a cross entropy does not; a collapse forms strides, which a stretch to an empty
tensor does not; and with words that wrap around, `2 ^ 64` elements are none for a product that
adds nothing, and missing for the product with their adjoint. -/
theorem gradients_stop :
    GradientStops plainLoss
      [.tensor ⟨⟨.f32, ⟨[2]⟩⟩, #[1, 2, 3]⟩, .tensor ⟨⟨.f32, ⟨[2]⟩⟩, #[0, 1]⟩] .exact ∧
    GradientStops stretchedSum
      [.tensor ⟨⟨.f32, ⟨[0, 2 ^ 32, 2 ^ 32]⟩⟩, #[]⟩, .tensor ⟨⟨.f32, ⟨[1, 1, 1, 1]⟩⟩, #[0]⟩]
      .checked ∧
    GradientStops emptyProduct
      [.tensor ⟨⟨.f32, ⟨[2, 0]⟩⟩, #[]⟩, .tensor ⟨⟨.f32, ⟨[0, 2 ^ 63]⟩⟩, #[]⟩] .wrapping :=
  ⟨⟨by decide +kernel, by decide +kernel, by decide +kernel⟩,
    ⟨by decide +kernel, by decide +kernel, by decide +kernel⟩,
    ⟨by decide +kernel, by decide +kernel, by decide +kernel⟩⟩

end Function

end TensorGraph
