/-
# TensorGraph.Proofs.Runs -- what a run consists of

A run that succeeds takes in its inputs, which have the types of the parameters, then steps
through the bindings, whose values have the types that they declare, and collects what is
returned. The lemmas here take a run apart into these parts, and say what an environment
holds once the inputs are in.
-/
import TensorGraph.Eval.Run
import TensorGraph.Proofs.Context

namespace TensorGraph

variable {α : Type} {ar : Arithmetic α} {custom : CustomKernels α}

namespace Env

variable {env env' : Env α}

theorem step_eq_ok_iff {b : Binding} :
    env.step ar custom b = .ok env' ↔
      ∃ v, env.expr ar custom b = .ok v ∧ v.hasType b.ty = true ∧ env' = env.push b.id v := by
  rw [Env.step, bind_eq_ok_iff]
  refine exists_congr fun v => and_congr_right fun _ => ?_
  by_cases ht : v.hasType b.ty = true
  · rw [if_pos ht]
    exact ⟨fun h => ⟨ht, (Except.ok.inj h).symm⟩, fun h => congrArg _ h.2.symm⟩
  · rw [if_neg ht]
    simp [ht]

/-- **Bindings leave** the values of other identities as they are. -/
theorem lookup_of_foldlM_step {bs : List Binding} (h : bs.foldlM (step ar custom) env = .ok env')
    {id : ValueId} (hid : id ∉ bs.map Binding.id) : env'.lookup id = env.lookup id := by
  induction bs generalizing env with
  | nil =>
    cases h
    rfl
  | cons b bs ih =>
    obtain ⟨mid, hstep, hrest⟩ := foldlM_cons_eq_ok_iff.mp h
    obtain ⟨v, _, _, rfl⟩ := step_eq_ok_iff.mp hstep
    rw [List.map_cons, List.mem_cons, not_or] at hid
    exact (ih hrest hid.2).trans (lookup_push_of_ne hid.1)

theorem tensorOperand_eq_ok_iff {x : Operand} {t : Tensor α} :
    env.tensorOperand ar x = .ok t ↔ env.operand ar x = .ok (.tensor t) := by
  rw [tensorOperand, bind_eq_ok_iff]
  constructor
  · rintro ⟨v, hv, h⟩
    cases v with
    | tensor t' =>
      cases h
      exact hv
    | tuple vs => simp at h
  · intro h
    exact ⟨_, h, rfl⟩

theorem tensorOperands_eq_ok_iff {xs : List Operand} {ts : List (Tensor α)} :
    xs.mapM (env.tensorOperand ar) = .ok ts ↔
      xs.mapM (env.operand ar) = .ok (ts.map Value.tensor) := by
  rw [mapM_eq_ok_iff, mapM_eq_ok_iff, List.forall₂_map_right_iff]
  constructor
  · exact fun h => h.imp fun x t => tensorOperand_eq_ok_iff.mp
  · exact fun h => h.imp fun x t => tensorOperand_eq_ok_iff.mpr

/-- **A call** applies its kernel to the tensors that its operands read. -/
theorem expr_call_eq_ok_iff {id : ValueId} {name : String} {op : Operation} {xs : List Operand}
    {spec : TensorSpec} {v : Value α} :
    env.expr ar custom ⟨id, name, .call op xs, .tensor spec⟩ = .ok v ↔
      ∃ ts t, xs.mapM (env.tensorOperand ar) = .ok ts ∧
        Kernel.run ar custom op ts spec = .ok t ∧ v = .tensor t := by
  show (xs.mapM (env.tensorOperand ar) >>= fun inputs =>
    (Kernel.run ar custom op inputs spec).mapError (EvalError.inBinding name) >>= fun t =>
      Except.ok (Value.tensor t)) = Except.ok v ↔ _
  rw [bind_eq_ok_iff]
  refine exists_congr fun ts => ?_
  rw [bind_eq_ok_iff]
  constructor
  · rintro ⟨hts, t, ht, hv⟩
    exact ⟨t, hts, mapError_eq_ok_iff.mp ht, (Except.ok.inj hv).symm⟩
  · rintro ⟨t, hts, ht, rfl⟩
    exact ⟨hts, t, mapError_eq_ok_iff.mpr ht, rfl⟩

/-- Values that are returned side by side. -/
theorem collectAll_map_value_eq_ok_iff {env : Env α} {ids : List ValueId}
    {vs : List (Value α)} :
    env.collectAll (ids.map .value) = .ok vs ↔
      List.Forall₂ (fun id v => env.lookup id = .ok v) ids vs := by
  rw [collectAll_eq_mapM, mapM_eq_ok_iff, List.forall₂_map_left_iff]
  rfl

/-! ## Inputs -/

/-- An environment with the inputs for parameters in it. -/
def pushAll (env : Env α) (inputs : List (Param × Value α)) : Env α :=
  inputs.foldl (fun env (p, v) => env.push p.id v) env

/-- **Inputs are taken in** exactly when they have the types of their parameters. -/
theorem pushInputs_eq_ok_iff {inputs : List (Param × Value α)} :
    env.pushInputs inputs = .ok env' ↔
      (∀ p v, (p, v) ∈ inputs → v.hasType p.ty = true) ∧ env' = env.pushAll inputs := by
  induction inputs generalizing env with
  | nil =>
    rw [pushInputs]
    exact ⟨fun h => ⟨fun _ _ hm => absurd hm List.not_mem_nil, (Except.ok.inj h).symm⟩,
      fun h => congrArg _ h.2.symm⟩
  | cons input rest ih =>
    obtain ⟨p, v⟩ := input
    rw [pushInputs]
    by_cases ht : v.hasType p.ty = true
    · rw [if_pos ht, ih]
      refine and_congr_left fun _ => ?_
      constructor
      · intro h q w hm
        rcases List.mem_cons.mp hm with hm | hm
        · cases hm
          exact ht
        · exact h q w hm
      · intro h q w hm
        exact h q w (List.mem_cons_of_mem _ hm)
    · rw [if_neg ht]
      refine iff_of_false (by simp) fun h => ?_
      exact ht (h.1 p v List.mem_cons_self)

theorem pushInputs_append_eq_ok_iff {inputs rest : List (Param × Value α)} :
    env.pushInputs (inputs ++ rest) = .ok env' ↔
      ∃ mid, env.pushInputs inputs = .ok mid ∧ mid.pushInputs rest = .ok env' := by
  induction inputs generalizing env with
  | nil =>
    constructor
    · intro h
      exact ⟨env, rfl, h⟩
    · rintro ⟨mid, hm, h⟩
      cases hm
      exact h
  | cons input inputs ih =>
    obtain ⟨p, v⟩ := input
    rw [List.cons_append, pushInputs, pushInputs]
    split
    · exact ih
    · simp

/-- Inputs leave the values of other identities as they are. -/
theorem lookup_pushAll_of_notMem {inputs : List (Param × Value α)} {id : ValueId}
    (h : id ∉ inputs.map fun input => input.1.id) :
    (env.pushAll inputs).lookup id = env.lookup id := by
  induction inputs generalizing env with
  | nil => rfl
  | cons input rest ih =>
    rw [List.map_cons, List.mem_cons, not_or] at h
    exact (ih h.2).trans (lookup_push_of_ne h.1)

/-- **Each input is found** under the identity of its parameter. -/
theorem lookup_pushAll {inputs : List (Param × Value α)}
    (hn : (inputs.map fun input => input.1.id).Nodup) {p : Param} {v : Value α}
    (h : (p, v) ∈ inputs) : (env.pushAll inputs).lookup p.id = .ok v := by
  induction inputs generalizing env with
  | nil => exact absurd h List.not_mem_nil
  | cons input rest ih =>
    obtain ⟨hid, hrest⟩ := List.nodup_cons.mp hn
    rcases List.mem_cons.mp h with rfl | h
    · exact (lookup_pushAll_of_notMem hid).trans (lookup_push_self env p.id v)
    · exact ih hrest h

end Env

/-! ## Whole runs -/

theorem map_id_zip {ps : List Param} {vs : List (Value α)} (h : ps.length ≤ vs.length) :
    (ps.zip vs).map (fun input => input.1.id) = ps.map Param.id := by
  conv_rhs => rw [← List.map_fst_zip h, List.map_map]
  rfl

/-- **A run** takes in the inputs, steps through the bindings and collects the result. -/
theorem Function.run_eq_ok_iff {f : Function} {inputs : List (Value α)} {v : Value α} :
    f.run ar custom inputs = .ok v ↔
      f.params.length = inputs.length ∧ ∃ start final,
        Env.empty.pushInputs (f.params.zip inputs) = .ok start ∧
          f.bindings.foldlM (Env.step ar custom) start = .ok final ∧
            final.collect f.ret = .ok v := by
  rw [Function.run]
  by_cases hn : f.params.length = inputs.length
  · rw [if_pos hn, bind_eq_ok_iff]
    constructor
    · rintro ⟨start, hs, h⟩
      obtain ⟨final, hf, hc⟩ := bind_eq_ok_iff.mp h
      exact ⟨hn, start, final, hs, hf, hc⟩
    · rintro ⟨_, start, final, hs, hf, hc⟩
      exact ⟨start, hs, bind_eq_ok_iff.mpr ⟨final, hf, hc⟩⟩
  · rw [if_neg hn]
    simp [hn]

end TensorGraph
