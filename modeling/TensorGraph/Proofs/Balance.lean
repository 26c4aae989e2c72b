/-
# TensorGraph.Proofs.Balance -- the sweep keeps what is pending in balance

Run a function in dual numbers: every value then has a tangent. What the adjoints that are
pending have against the tangents of their values, taken together, is the same before and
after a visit (`SweepContext.Balanced`). A visit takes the adjoint of the value of a binding
away and contributes to the operands of the binding; by what each rule was shown to do, the
operands together have against their tangents what the value had against its own.
-/
import Mathlib.Data.List.Induction
import TensorGraph.Proofs.Transposition
import TensorGraph.Proofs.Visits

namespace TensorGraph

/-! ## Values of bindings -/

namespace Env

variable {α : Type} {ar : Arithmetic α} {custom : CustomKernels α} {env env' : Env α}

end Env

/-! ## Tangents -/

section Tangents

variable {K : Type}

/-- **`Env.tangent`** -- the tangent of a value. -/
def Env.tangent (D : Env (K × K)) (id : ValueId) : Value K :=
  match D.lookup id with
  | .ok v => v.map Prod.snd
  | .error _ => .tuple []

theorem Env.tangent_eq {D : Env (K × K)} {id : ValueId} {v : Value (K × K)}
    (h : D.lookup id = .ok v) : D.tangent id = v.map Prod.snd := by
  rw [Env.tangent, h]

/-- What an operand reads lies in the value that it reads from. -/
theorem Env.lies_of_operand {ar : Arithmetic (K × K)} {D : Env (K × K)} {x : Operand} {id : ValueId}
    {place : List Nat} {d : Value (K × K)} (hplace : x.place? = some (id, place))
    (h : D.operand ar x = .ok d) : (D.tangent id).Lies place (d.map Prod.snd) := by
  cases x with
  | literal constant => cases hplace
  | value id' =>
    cases hplace
    exact (Env.tangent_eq h).symm
  | tupleElement tuple index =>
    cases hplace
    obtain ⟨whole, hw, hc⟩ := bind_eq_ok_iff.mp h
    rw [Env.tangent_eq hw]
    exact Value.component_map hc

variable [Field K]

/-- What is stored has no tangent. -/
theorem Value.inner_literal {r : Reading K} {constant : Literal} {T : Tensor (K × K)}
    (h : Tensor.ofLiteral (.dual r) constant = .ok T) (v : Value K) :
    v.inner (.tensor (T.map Prod.snd)) = 0 := by
  cases v with
  | tuple vs => rfl
  | tensor A =>
    rw [Tensor.ofLiteral_exact] at h
    split at h
    · obtain ⟨_, rfl⟩ := Tensor.ofData_eq_ok_iff.mp h
      refine List.sum_eq_zero fun x hx => ?_
      obtain ⟨i, hi, rfl⟩ := List.mem_iff_getElem.mp hx
      rw [List.getElem_zipWith]
      simp [Tensor.map, Arithmetic.dual]
    · simp at h

/-- Changing one term of a sum over distinct keys. -/
theorem sum_map_update {ids : List ValueId} {id : ValueId} {f g : ValueId → K} (hn : ids.Nodup)
    (hid : id ∈ ids) (h : ∀ other, other ≠ id → f other = g other) :
    (ids.map f).sum = (ids.map g).sum + (f id - g id) := by
  obtain ⟨front, back, rfl⟩ := List.append_of_mem hid
  have hother : ∀ other ∈ front ++ back, f other = g other := by
    intro other hm
    refine h other ?_
    rintro rfl
    exact (List.nodup_cons.mp (List.nodup_middle.mp hn)).1 hm
  have hfront : front.map f = front.map g := List.map_congr_left fun other hm =>
    hother other (List.mem_append_left _ hm)
  have hback : back.map f = back.map g := List.map_congr_left fun other hm =>
    hother other (List.mem_append_right _ hm)
  simp only [List.map_append, List.map_cons, List.sum_append, List.sum_cons, hfront, hback]
  ring

end Tangents

namespace SweepContext

variable {K : Type} [Field K]

/-- **`Linearizes`** -- the function that is differentiated has run in dual and in exact
numbers, with operators and literals for which that makes sense. -/
structure Linearizes (c : SweepContext) (r : Reading K) (custom : CustomKernels (K × K))
    (D : Env (K × K)) (E : Env K) : Prop where
  /-- All values are there. -/
  fits : D.Fits c.function.context
  /-- The exact values are the dual ones without their tangents. -/
  projects : D.Projects Prod.fst E
  /-- The values of bindings are those of their expressions. -/
  solves : ∀ b ∈ c.function.bindings,
    ∃ v, D.expr (.dual r) custom b = .ok v ∧ D.lookup b.id = .ok v
  /-- Operators are elementary. -/
  elementary : ∀ b ∈ c.function.bindings, ∀ op, b.expr.operation? = some op →
    op.isElementary = true
  /-- Literals are of floating types. -/
  plain : ∀ b ∈ c.function.bindings, b.expr.IsPlain

variable {c : SweepContext} {r : Reading K} {custom : CustomKernels K}
  {customD : CustomKernels (K × K)} {D : Env (K × K)} {E env : Env K} {s s' : SweepState}

/-- What is pending for a value, against the tangent of the value. -/
def against (r : Reading K) (custom : CustomKernels K) (env : Env K) (D : Env (K × K))
    (s : SweepState) (id : ValueId) : K :=
  match s.adjoint? id with
  | none => 0
  | some a =>
    match a.eval (.exact r) custom env with
    | .ok v => v.inner (D.tangent id)
    | .error _ => 0

theorem against_of_none {id : ValueId} (h : s.adjoint? id = none) :
    against r custom env D s id = 0 := by
  rw [against, h]

theorem against_current {id : ValueId} {ty : ValueType} {v : Value K}
    (h : (s.current id ty).Denotes r custom env v) :
    against r custom env D s id = v.inner (D.tangent id) := by
  rw [SweepState.current] at h
  rw [against]
  cases ha : s.adjoint? id with
  | none =>
    rw [ha] at h
    exact (h.inner_of_isZero (Adjoint.isZero_zerosOf ty) _).symm
  | some a =>
    rw [ha] at h
    have hv : a.eval (.exact r) custom env = .ok v := h.1
    dsimp only
    rw [hv]

/-- **`Balanced`** -- what was bound so far has run, every pending adjoint has a value, and
together they have a given value against the tangents. -/
structure Balanced (c : SweepContext) (r : Reading K) (custom : CustomKernels K)
    (D : Env (K × K)) (E : Env K) (s : SweepState) (env : Env K) (total : K) : Prop where
  /-- What was bound has run. -/
  leads : c.start.Leads (.exact r) custom s.builder E env
  /-- What is pending for a value has a value of its type. -/
  denotes : ∀ id ty, c.types id = some ty → ∃ v, (s.current id ty).Denotes r custom env v
  /-- What is pending, against the tangents. -/
  total : (c.function.context.ids.map (against r custom env D s)).sum = total

theorem mem_ids {id : ValueId} {ty : ValueType} (h : c.types id = some ty) :
    id ∈ c.function.context.ids := Context.isSome_typeOf?.mp (Option.isSome_of_mem h)

/-- **A contribution** counts against the tangent of the operand. -/
theorem Balanced.adds (hc : c.Regular) (hs : c.Fits s) (hD : D.Fits c.function.context)
    {total : K} (h : c.Balanced r custom D E s env total) {x : Operand} {a : Adjoint}
    (hadds : c.Adds s x a s') (hbuilder : s'.builder = s.builder)
    (hx : x.type? c.types = some a.type) {v : Value K} (ha : a.Denotes r custom env v)
    {d : Value (K × K)} (hd : D.operand (.dual r) x = .ok d) (hfits : d.Fits a.type) :
    c.Balanced r custom D E s' env (total + v.inner (d.map Prod.snd)) := by
  unfold Adds at hadds
  cases hplace : x.place? with
  | none =>
    rw [hplace] at hadds
    subst hadds
    cases x with
    | value id => cases hplace
    | tupleElement tuple index => cases hplace
    | literal constant =>
      obtain ⟨T, hT, rfl⟩ := map_eq_ok_iff.mp hd
      rw [Value.map, Value.inner_literal hT, add_zero]
      exact h
  | some read =>
    obtain ⟨id, place⟩ := read
    rw [hplace] at hadds
    obtain ⟨ty, hid, ⟨hzero, rfl⟩ | ⟨sum, hsum, rfl⟩⟩ := hadds
    · rw [ha.inner_of_isZero hzero, add_zero]
      exact h
    · obtain ⟨whole, hwhole, hwfits⟩ := hD id ty hid
      obtain ⟨v₀, hv₀⟩ := h.denotes id ty hid
      have hty := (hs.current_spec hid).2
      have htangent : (D.tangent id).Fits (s.current id ty).type := by
        rw [hty, Env.tangent_eq hwhole]
        exact hwfits.map Prod.snd whole
      obtain ⟨u, hu, hinner⟩ := Adjoint.Denotes.exists_addInto hsum hv₀ ha htangent
        (hfits.map Prod.snd d) (Env.lies_of_operand hplace hd)
      have hcurrent : ∀ ty, (s.put id sum).current id ty = sum := by
        intro ty
        rw [SweepState.current, SweepState.adjoint?_put, if_pos rfl]
        rfl
      have hkept : ∀ other, other ≠ id → (s.put id sum).adjoint? other = s.adjoint? other := by
        intro other ho
        rw [SweepState.adjoint?_put, if_neg ho]
      refine ⟨h.leads, fun other ty' hother => ?_, ?_⟩
      · by_cases ho : other = id
        · subst ho
          exact ⟨u, (hcurrent ty').symm ▸ hu⟩
        · rw [SweepState.current, hkept other ho]
          exact h.denotes other ty' hother
      · have hput : ((s.put id sum).current id ty).Denotes r custom env u :=
          (hcurrent ty).symm ▸ hu
        have hothers : ∀ other, other ≠ id →
            against r custom env D (s.put id sum) other = against r custom env D s other := by
          intro other ho
          rw [against, against, hkept other ho]
        rw [sum_map_update hc.wellFormed.nodup (mem_ids hid) hothers, h.total,
          against_current hput, against_current hv₀, hinner]
        ring

/-! ## Contributions -/

/-- **`PairAll`** -- contributions have values, and together they have a given value against
the tangents of the operands. -/
inductive PairAll (r : Reading K) (custom : CustomKernels K) (env : Env K) (D : Env (K × K)) :
    List (Operand × Adjoint) → K → Prop
  | nil : PairAll r custom env D [] 0
  | cons {x : Operand} {a : Adjoint} {cs : List (Operand × Adjoint)} {v : Value K}
      {d : Value (K × K)} {k : K} (head : a.Denotes r custom env v)
      (reads : D.operand (.dual r) x = .ok d) (fits : d.Fits a.type)
      (tail : PairAll r custom env D cs k) :
      PairAll r custom env D ((x, a) :: cs) (v.inner (d.map Prod.snd) + k)

theorem PairAll.append {cs ds : List (Operand × Adjoint)} {j k : K}
    (h : PairAll r custom env D cs j) (h' : PairAll r custom env D ds k) :
    PairAll r custom env D (cs ++ ds) (j + k) := by
  induction h with
  | nil => rwa [zero_add]
  | cons head reads fits tail ih =>
    rw [List.cons_append, add_assoc]
    exact .cons head reads fits ih

theorem pairAll_singleton {x : Operand} {a : Adjoint} {v : Value K} {d : Value (K × K)}
    (ha : a.Denotes r custom env v) (hx : D.operand (.dual r) x = .ok d) (hfits : d.Fits a.type) :
    PairAll r custom env D [(x, a)] (v.inner (d.map Prod.snd)) := by
  have h := PairAll.cons ha hx hfits .nil
  rwa [add_zero] at h

/-- **Contributions** one after the other count against the tangents of their operands. -/
theorem Balanced.accumulateAll (hc : c.Regular) (hs : c.Fits s) (hD : D.Fits c.function.context)
    {total k : K} (h : c.Balanced r custom D E s env total) {cs : List (Operand × Adjoint)}
    (hsuit : c.Suitable s.builder.context.typeOf? cs) (hcs : PairAll r custom env D cs k)
    (hrun : c.accumulateAll s cs = .ok s') : c.Balanced r custom D E s' env (total + k) := by
  induction hcs generalizing s total with
  | nil =>
    cases hrun
    rwa [add_zero]
  | @cons x a cs v d k head reads fits tail ih =>
    obtain ⟨hx, ha⟩ := hsuit (x, a) List.mem_cons_self
    obtain ⟨mid, hmid, hfits, hbuilder, hadds⟩ := hs.exists_accumulate hc hx ha
    obtain ⟨mid', hmid', hrest⟩ := foldlM_cons_eq_ok_iff.mp hrun
    cases Except.ok.inj (hmid.symm.trans hmid')
    have hrests : c.Suitable mid.builder.context.typeOf? cs := by
      rw [hbuilder]
      exact fun entry hm => hsuit entry (List.mem_cons_of_mem _ hm)
    rw [← add_assoc]
    exact ih hfits (h.adds hc hs hD hadds hbuilder hx head reads fits) hrests hrest

mutual

/-- **A tuple construction** hands the components of the adjoint on to the fields. -/
theorem pairAll_routes (field : TupleField) (a : Adjoint)
    (h : field.type? c.types = some a.type) {v : Value K} (ha : a.Denotes r custom env v)
    {d : Value (K × K)} (hd : D.field (.dual r) field = .ok d) (hfits : d.Fits a.type) :
    PairAll r custom env D (routes field a) (v.inner (d.map Prod.snd)) := by
  cases field with
  | operand x => exact pairAll_singleton ha hd hfits
  | tuple fields =>
    obtain ⟨tys, htys, htype⟩ := TupleField.type?_tuple_eq_some_iff.mp h
    obtain ⟨ds, hds, rfl⟩ := map_eq_ok_iff.mp hd
    obtain ⟨components, rfl, rfl⟩ := Adjoint.exists_of_type_tuple htype
    obtain ⟨vs, hvs, rfl⟩ := Adjoint.denotes_tuple_iff.mp ha
    exact pairAll_routesAll fields components htys hvs hds hfits

theorem pairAll_routesAll (fields : List TupleField) (as : List Adjoint)
    (h : TupleField.types? c.types fields = some (Adjoint.types as))
    {vs : List (Value K)} (ha : Adjoint.DenoteAll r custom env as vs) {ds : List (Value (K × K))}
    (hd : D.fields (.dual r) fields = .ok ds) (hfits : Value.FitAll ds (Adjoint.types as)) :
    PairAll r custom env D (routesAll fields as)
      (Value.innerAll vs (Value.mapAll Prod.snd ds)) := by
  cases fields with
  | nil =>
    cases hd
    rw [routesAll_nil]
    cases vs with
    | nil => exact .nil
    | cons v vs => exact .nil
  | cons field fields =>
    obtain ⟨a, as, rfl, hf, hrest⟩ := Adjoint.exists_cons_of_types? h
    obtain ⟨v, vs, hv, hvs, rfl⟩ := Adjoint.denoteAll_cons_iff.mp ha
    rw [Env.fields] at hd
    obtain ⟨d, hfield, hd⟩ := bind_eq_ok_iff.mp hd
    obtain ⟨ds', hfields, hd⟩ := bind_eq_ok_iff.mp hd
    cases hd
    exact (pairAll_routes field a hf hv hfield hfits.1).append
      (pairAll_routesAll fields as hrest hvs hfields hfits.2)

end

/-- What the operands of a call receive, against their tangents. -/
theorem pairAll_received {context : TypeMap} {fits : List (Option Adjoint)}
    {Ts : List (Tensor (K × K))} {specs : List TensorSpec} {k : K}
    (h : Adjoint.PairsTo r custom env fits Ts specs k) {xs : List Operand}
    (hx : Operand.HaveTypes c.types xs (specs.map .tensor))
    (hTs : xs.mapM (D.tensorOperand (.dual r)) = .ok Ts)
    (hfits : List.Forall₂ Tensor.Fits Ts specs)
    (hsuit : c.Suitable context (received xs fits)) :
    PairAll r custom env D (received xs fits) k := by
  induction h generalizing xs with
  | nil =>
    cases hx
    exact .nil
  | @none fits Ts specs T s k tail ih =>
    obtain ⟨x, xs, hhead, hxs, rfl⟩ := List.forall₂_cons_right_iff.mp hx
    obtain ⟨T', Ts', _, hTs', hcons⟩ := mapM_cons_eq_ok_iff.mp hTs
    cases hcons
    rw [received_cons_none] at hsuit ⊢
    exact ih hxs hTs' (List.forall₂_cons.mp hfits).2 hsuit
  | @some fits Ts specs a p T s k head hp tail ih =>
    obtain ⟨x, xs, hhead, hxs, rfl⟩ := List.forall₂_cons_right_iff.mp hx
    obtain ⟨T', Ts', hT, hTs', hcons⟩ := mapM_cons_eq_ok_iff.mp hTs
    cases hcons
    obtain ⟨hTfits, hTsfits⟩ := List.forall₂_cons.mp hfits
    rw [received_cons_some] at hsuit ⊢
    have hty : a.type = .tensor s :=
      Option.some.inj ((hsuit _ List.mem_cons_self).1.symm.trans hhead)
    have hpair : PairAll r custom env D (received xs fits) k :=
      ih hxs hTs' hTsfits fun entry hm => hsuit entry (List.mem_cons_of_mem _ hm)
    have hdenotes : a.Denotes r custom env (.tensor p) := ⟨head, hty.symm ▸ hp⟩
    exact .cons hdenotes (Env.tensorOperand_eq_ok_iff.mp hT) (hty.symm ▸ hTfits) hpair

/-- The leaves of a call have the values of its operands. -/
theorem yields_leaves (hL : c.Linearizes r customD D E)
    (hagree : ∀ id ty, c.types id = some ty → env.lookup id = E.lookup id) {xs : List Operand}
    {specs : List TensorSpec} (hx : Operand.HaveTypes c.types xs (specs.map .tensor))
    {Ts : List (Tensor (K × K))} (hTs : xs.mapM (D.tensorOperand (.dual r)) = .ok Ts) :
    List.Forall₂ (fun (x : Adjoint) T => x.Yields r custom env (T.map Prod.fst))
      (List.zipWith .leaf xs specs) Ts := by
  induction specs generalizing xs Ts with
  | nil =>
    cases hx
    cases hTs
    exact .nil
  | cons spec specs ih =>
    obtain ⟨x, xs, hhead, hxs, rfl⟩ := List.forall₂_cons_right_iff.mp hx
    obtain ⟨T, Ts, hT, hrest, rfl⟩ := mapM_cons_eq_ok_iff.mp hTs
    refine .cons ?_ (ih hxs hrest)
    have hread := hL.projects.operand (Arithmetic.maps_fst r) (Env.tensorOperand_eq_ok_iff.mp hT)
    rw [Adjoint.Yields, Adjoint.eval, Env.operand_of_agree hagree hhead, hread]
    rfl

/-- **What a binding contributes** has against the tangents of its operands, taken together,
what the adjoint of its value has against the tangent of the value. -/
theorem Contributes.pairAll (hL : c.Linearizes r customD D E) (hc : c.Regular)
    (hagree : ∀ id ty, c.types id = some ty → env.lookup id = E.lookup id) {b : Binding}
    (hb : b ∈ c.function.bindings) {context : TypeMap} {a : Adjoint}
    {cs : List (Operand × Adjoint)} (h : c.Contributes b a cs) (hsuit : c.Suitable context cs)
    (hty : a.type = b.ty) {v : Value K} (ha : a.Denotes r custom env v) :
    PairAll r custom env D cs (v.inner (D.tangent b.id)) := by
  obtain ⟨hid, htype⟩ := hc.wellFormed.binding_spec hb
  obtain ⟨d, hexpr, hlookup⟩ := hL.solves b hb
  have hplain := hL.plain b hb
  have helementary := hL.elementary b hb
  have hfits : d.Fits a.type := by
    obtain ⟨d', hd', hfits⟩ := hL.fits b.id b.ty hid
    exact hty.symm ▸ Except.ok.inj (hd'.symm.trans hlookup) ▸ hfits
  rw [Env.tangent_eq hlookup]
  obtain ⟨id, name, e, ty⟩ := b
  unfold Contributes at h
  cases e with
  | tuple fields =>
    cases h
    have hfield : (TupleField.tuple fields).type? c.types = some a.type :=
      TupleField.type?_tuple_eq_some_iff.mpr (hty ▸ htype)
    exact pairAll_routes (.tuple fields) a hfield ha hexpr hfits
  | tupleGet source index =>
    cases h
    have hread : D.operand (.dual r) (.tupleElement source index) = .ok d := hexpr
    exact pairAll_singleton ha hread hfits
  | «alias» x =>
    cases h
    exact pairAll_singleton ha hexpr hfits
  | call op xs =>
    obtain ⟨specs, out, hx, _, hspec, hout, rfl⟩ := h
    cases hout
    obtain ⟨Ts, R, hTs, hrun, rfl⟩ := Env.expr_call_eq_ok_iff.mp hexpr
    obtain ⟨Ts', hTs', hTsfits⟩ := hL.fits.exists_tensorOperands (.dual r) hx hplain.2
    cases Except.ok.inj (hTs.symm.trans hTs')
    obtain ⟨A, rfl, hA⟩ := ha.exists_tensor hty
    have hresult : (Adjoint.leaf (.value id) out).Yields r custom env (R.map Prod.fst) := by
      have hread := hL.projects id _ hlookup
      rw [Adjoint.Yields, Adjoint.eval, Env.operand, hagree id _ hid, hread]
      rfl
    have hpairs := Adjoint.pairsTo_partials (helementary op rfl) hspec hTsfits hrun
      (yields_leaves hL hagree hx hTs) hresult ha.1 hA
    exact pairAll_received hpairs hx hTs hTsfits hsuit

/-! ## Visits -/

/-- What is pending has the value that it had before more was bound. -/
theorem against_of_leads (hs : c.Fits s) {later : Builder} (hlater : s.builder.Advances later)
    {env' : Env K} (hl : s.builder.Leads (.exact r) custom later env env') (id : ValueId) :
    against r custom env' D s id = against r custom env D s id := by
  rw [against, against]
  cases ha : s.adjoint? id with
  | none => rfl
  | some a =>
    dsimp only
    rw [hl.eval_eq hlater (hs.pending id a ha).1]

/-- **Settling** takes the adjoint of a value away, with what it has against the tangent. -/
theorem Balanced.exists_settled (hc : c.Regular) (hs : c.Fits s) {total : K}
    (h : c.Balanced r custom D E s env total) {id : ValueId} {ty : ValueType}
    (hid : c.types id = some ty) {pending a : Adjoint} {later : Builder}
    (hp : s.adjoint? id = some pending) (hsettled : Settled pending a s.builder later) :
    ∃ env' v, a.Denotes r custom env' v ∧
      c.Balanced r custom D E { s.drop id with builder := later } env'
        (total - v.inner (D.tangent id)) := by
  obtain ⟨v, hv⟩ := h.denotes id ty hid
  have hcurrent : s.current id ty = pending := by
    rw [SweepState.current, hp]
    rfl
  obtain ⟨env', hl⟩ := hsettled.runs K (.exact r) custom env ⟨v, hcurrent ▸ hv.1⟩
  have ha : a.Denotes r custom env' v := by
    rw [hcurrent] at hv
    exact ⟨(hsettled.eval K (.exact r) custom env env' hl).trans hv.1, hsettled.type.symm ▸ hv.2⟩
  have hdropped : ∀ other, other ≠ id →
      SweepState.adjoint? { s.drop id with builder := later } other = s.adjoint? other := by
    intro other ho
    exact (SweepState.adjoint?_drop s id other).trans (if_neg ho)
  have hgone : SweepState.adjoint? { s.drop id with builder := later } id = none :=
    (SweepState.adjoint?_drop s id id).trans (if_pos rfl)
  refine ⟨env', v, ha, h.leads.trans hl, fun other ty' hother => ?_, ?_⟩
  · rw [SweepState.current]
    by_cases ho : other = id
    · subst ho
      rw [hgone]
      exact (Adjoint.exists_denotes_zerosOf ty').imp fun _ => And.left
    · rw [hdropped other ho]
      obtain ⟨u, hu⟩ := h.denotes other ty' hother
      have htyped := (hs.current_spec hother).1
      exact ⟨u, (hl.eval_eq hsettled.advances htyped).trans hu.1, hu.2⟩
  · have hothers : ∀ other, other ≠ id →
        against r custom env' D { s.drop id with builder := later } other =
          against r custom env D s other := by
      intro other ho
      rw [← against_of_leads hs hsettled.advances hl, against, against, hdropped other ho]
    rw [sum_map_update hc.wellFormed.nodup (mem_ids hid) hothers, h.total, against_of_none hgone,
      against_current hv]
    ring

/-- **A visit keeps the balance.** Afterwards the value of the binding has nothing pending,
and what else is reached was reached before or is read by the binding. -/
theorem Balanced.exists_visit (hL : c.Linearizes r customD D E) (hc : c.Regular) (hs : c.Fits s)
    {total : K} (h : c.Balanced r custom D E s env total) {b : Binding}
    (hb : b ∈ c.function.bindings) :
    ∃ s' env', c.visit s b = .ok s' ∧ c.Fits s' ∧ c.Balanced r custom D E s' env' total ∧
      ∀ id place, s'.Reaches id place → (id ≠ b.id ∧ s.Reaches id place) ∨ id ∈ b.expr.values := by
  cases hp : s.adjoint? b.id with
  | none =>
    refine ⟨s, env, by rw [visit, hp], hs, h, fun id place hr => .inl ⟨?_, hr⟩⟩
    rintro rfl
    obtain ⟨a, ha, _⟩ := hr
    rw [hp] at ha
    simp at ha
  | some pending =>
    have hid := (hc.wellFormed.binding_spec hb).1
    have hsoft : ∀ axis xs, b.expr ≠ .call (.softmax axis) xs := by
      intro axis xs he
      cases hL.elementary b hb (.softmax axis) (by rw [he]; rfl)
    obtain ⟨a, later, cs, s', hsettled, hcontributes, hsuit, hrun, hvisit, hfits, _, hreach⟩ :=
      hs.exists_visit hc hb hsoft hp
    obtain ⟨env', v, ha, hbalanced⟩ := h.exists_settled hc hs hid hp hsettled
    have hdrop := hs.drop b.id hsettled.advances
    have hagree : ∀ other ty, c.types other = some ty → env'.lookup other = E.lookup other := by
      intro other ty hother
      rw [types, ← context_start] at hother
      exact hbalanced.leads.lookup_eq hdrop.advances hother
    have hty : a.type = b.ty :=
      hsettled.type.trans (Option.some.inj ((hs.pending b.id pending hp).2.1.symm.trans hid))
    have hpairs := hcontributes.pairAll hL hc hagree hb hsuit hty ha
    have hafter := hbalanced.accumulateAll hc hdrop hL.fits hsuit hpairs hrun
    rw [sub_add_cancel] at hafter
    refine ⟨s', env', hvisit, hfits, hafter, fun id place hr => ?_⟩
    refine ((hreach id place).mp hr).imp_right ?_
    rintro ⟨_, x, _, _, _, hpass, hplace, _⟩
    exact Expr.mem_values_of_passes hpass (Operand.value?_of_place? hplace)

/-! ## The sweep -/

/-- **`Carries`** -- the bindings behind some place have been visited: what is pending is in
balance, and nothing is pending for their values. -/
structure Carries (c : SweepContext) (r : Reading K) (custom : CustomKernels K)
    (D : Env (K × K)) (E : Env K) (after : List Binding) (s : SweepState) (env : Env K)
    (total : K) : Prop where
  /-- The state fits. -/
  fits : c.Fits s
  /-- What is pending is in balance. -/
  balanced : c.Balanced r custom D E s env total
  /-- Visited values have nothing pending. -/
  done : ∀ id ∈ after.map Binding.id, s.adjoint? id = none

/-- **A visit carries on.** -/
theorem Carries.exists_visit (hL : c.Linearizes r customD D E) (hc : c.Regular)
    {before after : List Binding} {b : Binding} {total : K}
    (h : c.Carries r custom D E after s env total)
    (hf : c.function.bindings = before ++ b :: after) :
    ∃ s' env', c.visit s b = .ok s' ∧ c.Carries r custom D E (b :: after) s' env' total := by
  have hb : b ∈ c.function.bindings := by
    rw [hf]
    exact List.mem_append_right _ List.mem_cons_self
  obtain ⟨s', env', hvisit, hfits, hbalanced, hreach⟩ := h.balanced.exists_visit hL hc h.fits hb
  refine ⟨s', env', hvisit, hfits, hbalanced, fun id hid => ?_⟩
  cases ha : s'.adjoint? id with
  | none => rfl
  | some a =>
    -- something that is pending is reached, and the binding reads nothing from `b` on
    obtain ⟨place, hr⟩ := Adjoint.isZero_eq_false_iff.mp (hfits.pending id a ha).2.2
    rcases hreach id place ⟨a, ha, hr⟩ with ⟨hne, a', ha', _⟩ | hread
    · rcases List.mem_cons.mp hid with he | hid
      · exact absurd he hne
      · rw [h.done id hid] at ha'
        simp at ha'
    · exact absurd hid (hc.wellFormed.notMem_of_reads hf hread)

/-- **The sweep** over the bindings before some place succeeds and carries the total to the
parameters. -/
theorem Carries.exists_run (hL : c.Linearizes r customD D E) (hc : c.Regular)
    {before after : List Binding} {total : K} (h : c.Carries r custom D E after s env total)
    (hf : c.function.bindings = before ++ after) :
    ∃ s' env', before.reverse.foldlM c.visit s = .ok s' ∧
      c.Carries r custom D E (before ++ after) s' env' total := by
  induction before using List.reverseRecOn generalizing after s env with
  | nil => exact ⟨s, env, rfl, h⟩
  | append_singleton before b ih =>
    rw [List.append_assoc, List.singleton_append] at hf
    obtain ⟨mid, env₁, hvisit, hcarries⟩ := h.exists_visit hL hc hf
    obtain ⟨s', env', hrun, hdone⟩ := ih hcarries hf
    refine ⟨s', env', ?_, ?_⟩
    · rw [List.reverse_append, List.reverse_singleton, List.singleton_append, List.foldlM_cons,
        hvisit, ok_bind, hrun]
    · rwa [List.append_assoc, List.singleton_append]

end SweepContext

end TensorGraph
