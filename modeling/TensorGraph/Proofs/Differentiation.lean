/-
# TensorGraph.Proofs.Differentiation -- liveness decides whether there is a gradient

After the bindings from some place on have been visited, the pending adjoint of a value
before that place reaches exactly what is returned or what the visited bindings demand of the
value (`SweepContext.Tracks`). A visit keeps this up, so that a value has a pending adjoint
when its turn comes exactly if a place of it is live. The sweep therefore fails at the last
live softmax, for which there is no rule, and succeeds if there is none; what it leaves
behind is a well-formed function that returns the scalar and the gradients
(`Function.differentiate_outcome`).
-/
import Mathlib.Data.List.Induction
import TensorGraph.Proofs.Visits
import TensorGraph.Transform.Differentiate

namespace TensorGraph

/-- **`IsLiveSoftmax`** -- a softmax whose value goes into what is returned. -/
def Function.IsLiveSoftmax (f : Function) (b : Binding) : Prop :=
  (∃ axis xs, b.expr = .call (.softmax axis) xs) ∧ f.Live b.id []

namespace SweepContext

variable {c : SweepContext} {s : SweepState} {before after : List Binding} {b : Binding}

/-! ## The sweep tracks liveness -/

/-- **`Tracks`** -- the bindings behind some place have been visited: the state fits, and the
pending adjoint of a value before that place reaches what is returned or what the visited
bindings demand. -/
structure Tracks (c : SweepContext) (after : List Binding) (s : SweepState) : Prop where
  /-- The state fits. -/
  fits : c.Fits s
  /-- What is reached is what is demanded. -/
  reaches : ∀ id, id ∉ after.map Binding.id → ∀ place,
    s.Reaches id place ↔ c.function.LiveFrom after id place

/-- When the turn of a binding comes, its adjoint reaches what is live. -/
theorem Tracks.reaches_iff_live (hc : c.Regular) (h : c.Tracks after s)
    (hf : c.function.bindings = before ++ b :: after) {place : List Nat} :
    s.Reaches b.id place ↔ c.function.Live b.id place := by
  have hnot : b.id ∉ after.map Binding.id := by
    have hnodup := hc.wellFormed.nodup
    rw [Function.ids_context, hf, List.map_append, List.map_cons] at hnodup
    have := (List.nodup_append.mp (List.nodup_append.mp hnodup).2.1).2.1
    exact (List.nodup_cons.mp this).1
  rw [h.reaches b.id hnot, hc.wellFormed.live_iff hf]

/-- **A visit keeps track**, unless it is that of a live softmax. -/
theorem Tracks.exists_visit (hc : c.Regular) (h : c.Tracks after s)
    (hf : c.function.bindings = before ++ b :: after) (hsoft : ¬c.function.IsLiveSoftmax b) :
    ∃ s', c.visit s b = .ok s' ∧ c.Tracks (b :: after) s' := by
  have hb : b ∈ c.function.bindings := by
    rw [hf]
    exact List.mem_append_right _ List.mem_cons_self
  cases hp : s.adjoint? b.id with
  | none =>
    -- nothing of the value is live, so the binding demands nothing
    have hdead : ∀ place, ¬c.function.Live b.id place := by
      intro place hlive
      obtain ⟨a, ha, _⟩ := (h.reaches_iff_live hc hf).mpr hlive
      rw [hp] at ha
      simp at ha
    refine ⟨s, by rw [visit, hp], h.fits, fun id hid place => ?_⟩
    rw [List.map_cons, List.mem_cons, not_or] at hid
    rw [h.reaches id hid.2, Function.liveFrom_cons]
    refine ⟨.inl, fun hl => hl.resolve_right ?_⟩
    rintro ⟨there, _, _, _, hlive, _⟩
    exact hdead there hlive
  | some pending =>
    obtain ⟨_, hpt, hz⟩ := h.fits.pending b.id pending hp
    have hlive : ∀ place, pending.Reaches place ↔ c.function.Live b.id place := by
      intro place
      rw [← h.reaches_iff_live hc hf]
      simp [SweepState.Reaches, hp]
    have hnot : ∀ axis xs, b.expr ≠ .call (.softmax axis) xs := by
      intro axis xs he
      obtain ⟨hid, htype⟩ := hc.wellFormed.binding_spec hb
      rw [he] at htype
      obtain ⟨tys, _, hr⟩ := htype
      obtain ⟨_, out, _, _, hout⟩ := (Operation.resultType_eq_ok_iff rfl).mp hr
      have hty : pending.type = .tensor out := by
        rw [← hout]
        exact Option.some.inj (hpt.symm.trans hid)
      have hreach : pending.Reaches [] := (Adjoint.reaches_of_type hty).mpr ⟨rfl, hz⟩
      exact hsoft ⟨⟨axis, xs, he⟩, (hlive []).mp hreach⟩
    obtain ⟨_, _, _, s', _, _, _, _, hvisit, hfits, _, hreach⟩ :=
      h.fits.exists_visit hc hb hnot hp
    refine ⟨s', hvisit, hfits, fun id hid place => ?_⟩
    rw [List.map_cons, List.mem_cons, not_or] at hid
    rw [hreach, Function.liveFrom_cons, ← h.reaches id hid.2]
    refine or_congr (and_iff_right hid.1) ?_
    simp only [hlive]
    exact Iff.rfl

/-- **A visit of a live softmax** fails. -/
theorem Tracks.visit_softmax (hc : c.Regular) (h : c.Tracks after s)
    (hf : c.function.bindings = before ++ b :: after) (hsoft : c.function.IsLiveSoftmax b) :
    c.visit s b = .error (.missingRule c.function.name "softmax") := by
  have hb : b ∈ c.function.bindings := by
    rw [hf]
    exact List.mem_append_right _ List.mem_cons_self
  obtain ⟨⟨axis, xs, he⟩, hlive⟩ := hsoft
  obtain ⟨pending, hp, _⟩ := (h.reaches_iff_live hc hf).mpr hlive
  exact h.fits.visit_softmax hc hb he hp

/-- **The sweep** over the bindings before some place: it succeeds if none of them is a live
softmax, and fails for want of a rule if one is. -/
theorem Tracks.run_spec (hc : c.Regular) (h : c.Tracks after s)
    (hf : c.function.bindings = before ++ after) :
    ((∀ b ∈ before, ¬c.function.IsLiveSoftmax b) →
      ∃ s', before.reverse.foldlM c.visit s = .ok s' ∧ c.Tracks (before ++ after) s') ∧
    ((∃ b ∈ before, c.function.IsLiveSoftmax b) →
      before.reverse.foldlM c.visit s = .error (.missingRule c.function.name "softmax")) := by
  induction before using List.reverseRecOn generalizing after s with
  | nil =>
    refine ⟨fun _ => ⟨s, rfl, h⟩, ?_⟩
    rintro ⟨b, hb, _⟩
    exact absurd hb List.not_mem_nil
  | append_singleton before b ih =>
    rw [List.append_assoc, List.singleton_append] at hf
    rw [List.reverse_append, List.reverse_singleton, List.singleton_append, List.foldlM_cons]
    by_cases hsoft : c.function.IsLiveSoftmax b
    · rw [h.visit_softmax hc hf hsoft, error_bind]
      refine ⟨fun hnone => ?_, fun _ => rfl⟩
      exact absurd hsoft (hnone b (List.mem_append_right _ (List.mem_singleton.mpr rfl)))
    · obtain ⟨mid, hmid, htracks⟩ := h.exists_visit hc hf hsoft
      obtain ⟨hok, herror⟩ := ih htracks hf
      rw [hmid, ok_bind]
      refine ⟨fun hnone => ?_, ?_⟩
      · obtain ⟨s', hs', ht⟩ := hok fun b' hb' => hnone b' (List.mem_append_left _ hb')
        refine ⟨s', hs', ?_⟩
        rw [List.append_assoc, List.singleton_append]
        exact ht
      · rintro ⟨b', hb', hlive⟩
        rcases List.mem_append.mp hb' with hb' | hb'
        · exact herror ⟨b', hb', hlive⟩
        · rw [List.mem_singleton.mp hb'] at hlive
          exact absurd hlive hsoft

/-- Before the sweep only what is returned is pending. -/
theorem tracks_seed (hc : c.Regular) {target : ValueId} {spec : TensorSpec}
    (hret : c.function.ret = .value target) (htype : c.types target = some (.tensor spec)) :
    c.Tracks [] (c.seed target spec) where
  fits := fits_seed hc htype
  reaches := by
    intro id _ place
    have hlive : c.function.LiveFrom [] id place ↔ id = target ∧ place = [] := by
      simp [Function.LiveFrom, hret, eq_comm]
    rw [hlive, SweepState.Reaches, adjoint?_seed]
    by_cases h : id = target
    · rw [if_pos h]
      constructor
      · rintro ⟨a, ha, hr⟩
        cases ha
        exact ⟨h, hr⟩
      · intro hp
        exact ⟨_, rfl, hp.2⟩
    · rw [if_neg h]
      simp [h]

end SweepContext

namespace Function

/-- **Liveness decides the outcome of differentiation.** A verified function of one region
that returns a scalar, without opaque operators, has a gradient with respect to any of its
parameters unless a softmax is live; then there is no rule for it. The gradient is
well-formed and returns the scalar and a value of the type of each requested parameter. -/
theorem differentiate_outcome {f : Function} {spec : TensorSpec} (hv : f.verify = .ok ())
    (hone : f.regions.length = 1)
    (hcalls : ∀ b ∈ f.bindings, ∀ op xs, b.expr = .call op xs → op.isCustom = false)
    (hreturn : f.returnType? = some (.tensor spec)) (hscalar : spec.isScalar = true)
    (config : GradientConfig) {request : Option (List ValueId)}
    (hrequest : ∀ id ∈ request.getD f.paramIds, id ∈ f.paramIds) :
    ((∃ b ∈ f.bindings, f.IsLiveSoftmax b) →
      f.differentiate .builtinOnly config request = .error (.missingRule f.name "softmax")) ∧
    ((∀ b ∈ f.bindings, ¬f.IsLiveSoftmax b) →
      ∃ g tys, f.differentiate .builtinOnly config request = .ok g ∧ g.verify = .ok () ∧
        g.returnType? = some (.tuple [.tensor spec, .tuple tys]) ∧
        List.Forall₂ (fun id ty => f.typeOf? id = some ty) (request.getD f.paramIds) tys) := by
  obtain ⟨target, hret, htype⟩ := exists_target hreturn
  obtain ⟨index, hindex, hdifferentiate⟩ :=
    exists_differentiate_eq hv hone hret htype hscalar .builtinOnly config hrequest
  have hc : (f.sweep index .builtinOnly config).Regular :=
    ⟨verify_eq_ok_iff.mp hv, hcalls, hindex, rfl⟩
  rw [typeOf?_eq_context] at htype ⊢
  obtain ⟨hok, herror⟩ := (SweepContext.tracks_seed hc hret htype).run_spec hc
    (List.append_nil f.bindings).symm
  rw [hdifferentiate]
  constructor
  · intro hlive
    rw [SweepContext.run, show (f.sweep index .builtinOnly config).function = f from rfl,
      herror hlive]
    rfl
  · intro hnone
    obtain ⟨swept, hrun, htracks⟩ := hok hnone
    obtain ⟨grads, later, hlater, hgrads, _, hfinish⟩ :=
      htracks.fits.exists_gradient hc config hret hrequest
    have hverify := htracks.fits.verify_gradient hc hret hlater hgrads
    obtain ⟨tys, hty, hids⟩ := htracks.fits.exists_returnType hc htype hlater hgrads
    refine ⟨_, tys, ?_, hverify, hty, hids⟩
    rw [SweepContext.run, show (f.sweep index .builtinOnly config).function = f from rfl, hrun]
    exact hfinish

/-- A softmax goes into a tuple of which only the other component is read. -/
def unreadSoftmax : Function where
  name := "unread_softmax"
  params := [⟨⟨0⟩, "x", .tensor ⟨.f32, ⟨[3]⟩⟩⟩]
  regions :=
    [⟨[⟨⟨1⟩, "p", .call (.softmax 0) [.value ⟨0⟩], .tensor ⟨.f32, ⟨[3]⟩⟩⟩,
        ⟨⟨2⟩, "pair", .tuple [.operand (.value ⟨1⟩), .operand (.value ⟨0⟩)],
          .tuple [.tensor ⟨.f32, ⟨[3]⟩⟩, .tensor ⟨.f32, ⟨[3]⟩⟩]⟩,
        ⟨⟨3⟩, "total", .call (.sum none false) [.tupleElement ⟨2⟩ 1], .tensor ⟨.f32, ⟨[]⟩⟩⟩],
      [⟨3⟩]⟩]
  ret := .value ⟨3⟩

/-- Its first component is not live: the sum reads the second. -/
theorem unreadSoftmax_not_live (place : List Nat) : ¬unreadSoftmax.Live ⟨2⟩ (0 :: place) := by
  intro h
  rw [live_iff_liveFrom] at h
  rcases h with ⟨hret, _⟩ | ⟨b, hb, there, x, rest, front, _, hpass, hx, he⟩
  · cases hret
  · have hread := Expr.mem_values_of_passes hpass (Operand.value?_of_place? hx)
    rcases List.mem_cons.mp hb with rfl | hb
    · cases List.mem_singleton.mp hread
    · rcases List.mem_cons.mp hb with rfl | hb
      · rcases List.mem_pair.mp hread with h | h
        · simp at h
        · simp at h
      · cases List.mem_singleton.mp hb
        obtain ⟨_, rfl, index, hi, _⟩ := hpass
        cases index with
        | zero =>
          cases hi
          cases hx
          simp at he
        | succ index => simp at hi

theorem unreadSoftmax_differentiates :
    ∃ g tys, unreadSoftmax.differentiate .builtinOnly .standard (some [⟨0⟩, ⟨0⟩]) = .ok g ∧
      g.verify = .ok () ∧
      g.returnType? = some (.tuple [.tensor ⟨.f32, ⟨[]⟩⟩, .tuple tys]) ∧
      List.Forall₂ (fun id ty => unreadSoftmax.typeOf? id = some ty) [⟨0⟩, ⟨0⟩] tys := by
  refine (differentiate_outcome rfl rfl ?_ rfl rfl .standard (by decide)).2 ?_
  · intro b hb op xs he
    rcases List.mem_cons.mp hb with rfl | hb
    · cases he
      rfl
    · rcases List.mem_pair.mp hb with rfl | rfl
      · simp at he
      · cases he
        rfl
  · rintro b hb ⟨⟨axis, xs, he⟩, hlive⟩
    rcases List.mem_cons.mp hb with rfl | hb
    · rw [live_iff_liveFrom] at hlive
      rcases hlive with ⟨hret, _⟩ | ⟨b, hb, there, x, rest, front, hlive, hpass, hx, _⟩
      · cases hret
      · have hread := Expr.mem_values_of_passes hpass (Operand.value?_of_place? hx)
        rcases List.mem_cons.mp hb with rfl | hb
        · cases List.mem_singleton.mp hread
        · rcases List.mem_pair.mp hb with rfl | rfl
          · rcases there with _ | ⟨_ | _ | index, place⟩
            · exact hpass
            · exact unreadSoftmax_not_live place hlive
            · obtain ⟨rfl, _⟩ := hpass
              cases hx
            · exact hpass
          · cases List.mem_singleton.mp hread
    · rcases List.mem_pair.mp hb with rfl | rfl
      · simp at he
      · simp at he

end Function

end TensorGraph
