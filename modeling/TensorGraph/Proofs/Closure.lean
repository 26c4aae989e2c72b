/-
# TensorGraph.Proofs.Closure -- what building adjoints keeps

A property of adjoints is closed when known zeros of given types have it, an operator that can be
applied passes it on from its arguments, and a tuple has it exactly when its components do; a
reshape must name a shape of a given type. Sums are built in these ways only. The partials of a
built-in rule are made of the adjoint of a call, its result and its operands, by at most three
operators each (`CallSite.Built`, `GradientRule.builds_of_find?`), so a closed property passes from
these to whatever the rule gives (`GradientRule.keeps_of_find?`); nothing has to be known of the
call, which may be one that the rule was not made for. Being typed is closed, and so is being
plain where operators do not leave the given types.
-/
import TensorGraph.Adjoint.Sweep
import TensorGraph.Proofs.Adjoints
import TensorGraph.Proofs.Appending
import TensorGraph.Proofs.Ranges

namespace TensorGraph

/-! ## Closed properties -/

/-- **`Adjoint.Closed`** -- a property of adjoints that building them keeps, where zeros and
reshapes are of given types. -/
structure Adjoint.Closed (sized : ValueType → Prop) (P : Adjoint → Prop) : Prop where
  /-- Known zeros have it. -/
  zeros : ∀ spec, sized (.tensor spec) → P (.zeros spec)
  /-- An operator passes it on from its arguments. -/
  apply : ∀ {op args a}, Adjoint.apply op args = .ok a → op.Within sized → (∀ x ∈ args, P x) → P a
  /-- A tuple has it when its components do. -/
  tuple : ∀ {as}, P (.tuple as) ↔ ∀ a ∈ as, P a

namespace Adjoint

/-- An operator that can be applied gives a call of it. -/
theorem exists_of_apply {op : Operation} {args : List Adjoint} {a : Adjoint}
    (h : apply op args = .ok a) :
    ∃ spec specs, a = .call op args spec ∧ types args = specs.map .tensor ∧
      op.resultSpec specs none = .ok spec := by
  rw [apply] at h
  split at h
  · next spec hr =>
    cases h
    have hop : op.isCustom = false := by
      cases op with
      | customCall target =>
        -- a custom call has no type unless one is declared
        obtain ⟨specs, hspecs⟩ | ⟨e, he⟩ : (∃ specs,
            operandSpecs (.customCall target) 0 (types args) = .ok specs) ∨
              ∃ e, operandSpecs (.customCall target) 0 (types args) = .error e := by
          cases operandSpecs (.customCall target) 0 (types args) with
          | ok specs => exact .inl ⟨specs, rfl⟩
          | error e => exact .inr ⟨e, rfl⟩
        · simp [Operation.resultType, hspecs] at hr
        · simp [Operation.resultType, he] at hr
      | _ => rfl
    obtain ⟨specs, out, hspecs, hspec, hout⟩ := (Operation.resultType_eq_ok_iff hop).mp hr
    cases hout
    exact ⟨spec, specs, rfl, hspecs, hspec⟩
  · cases h
  · cases h

variable {sized : ValueType → Prop}

theorem closed_typed (sized : ValueType → Prop) (types : TypeMap) :
    Closed sized (Typed types) where
  zeros := fun _ _ => trivial
  apply := by
    intro op args a h _ hargs
    obtain ⟨spec, specs, rfl, hspecs, hspec⟩ := exists_of_apply h
    exact typed_call hspecs hspec (typedAll_iff.mpr hargs)
  tuple := typedAll_iff

theorem closed_isPlain (hsized : ValueType.Stable sized) (kind : Literal → Prop) :
    Closed sized (IsPlain kind sized) where
  zeros := fun _ h => h
  apply := by
    intro op args a h hop hargs
    obtain ⟨spec, specs, rfl, hspecs, hspec⟩ := exists_of_apply h
    refine ⟨Operation.isCustom_of_resultSpec hspec, allPlain_iff.mpr hargs, ?_⟩
    refine hsized.result hspec hop fun s hs => ?_
    -- each spec is that of an argument, which is plain
    have hmem : ValueType.tensor s ∈ types args := hspecs ▸ List.mem_map_of_mem hs
    rw [types_eq_map] at hmem
    obtain ⟨x, hx, htype⟩ := List.mem_map.mp hmem
    exact (hargs x hx).sized_of_spec? (spec?_of_type htype)
  tuple := allPlain_iff

theorem Closed.and {P Q : Adjoint → Prop} (hP : Closed sized P) (hQ : Closed sized Q) :
    Closed sized fun a => P a ∧ Q a where
  zeros := fun spec h => ⟨hP.zeros spec h, hQ.zeros spec h⟩
  apply := fun h hop hargs =>
    ⟨hP.apply h hop fun x hx => (hargs x hx).1, hQ.apply h hop fun x hx => (hargs x hx).2⟩
  tuple := by
    intro as
    rw [hP.tuple, hQ.tuple]
    exact forall₂_and.symm

variable {P : Adjoint → Prop}

mutual

theorem Closed.zerosOf (hP : Closed sized P) (hsized : ValueType.Stable sized) (ty : ValueType)
    (hty : sized ty) : P (zerosOf ty) := by
  cases ty with
  | tensor spec => exact hP.zeros spec hty
  | tuple elements =>
    exact hP.tuple.mpr (Closed.zerosOfAll hP hsized elements (hsized.component hty))

theorem Closed.zerosOfAll (hP : Closed sized P) (hsized : ValueType.Stable sized)
    (tys : List ValueType) (htys : ∀ ty ∈ tys, sized ty) :
    ∀ a ∈ Adjoint.zerosOfAll tys, P a := by
  cases tys with
  | nil => exact fun a ha => absurd ha List.not_mem_nil
  | cons ty rest =>
    obtain ⟨hty, hrest⟩ := List.forall_mem_cons.mp htys
    exact List.forall_mem_cons.mpr
      ⟨hP.zerosOf hsized ty hty, hP.zerosOfAll hsized rest hrest⟩

end

theorem Closed.apply_two (hP : Closed sized P) {op : Operation} {a b c : Adjoint}
    (h : Adjoint.apply op [a, b] = .ok c) (hop : op.Within sized) (ha : P a) (hb : P b) :
    P c := by
  refine hP.apply h hop fun x hx => ?_
  rcases List.mem_pair.mp hx with rfl | rfl
  · exact ha
  · exact hb

mutual

/-- **Sums** keep a closed property. -/
theorem Closed.add (hP : Closed sized P) (a b : Adjoint) {c : Adjoint} (h : a.add b = .ok c)
    (ha : P a) (hb : P b) : P c := by
  obtain ⟨spec, rfl, rfl⟩ | ⟨spec, rfl, rfl⟩ | ⟨as, bs, cs, rfl, rfl, hcs, rfl⟩ |
    ⟨_, _, happly⟩ := add_forms h
  · exact hb
  · exact ha
  · exact hP.tuple.mpr (hP.addAll as bs hcs (hP.tuple.mp ha) (hP.tuple.mp hb))
  · exact hP.apply_two happly trivial ha hb

theorem Closed.addAll (hP : Closed sized P) (as bs : List Adjoint) {cs : List Adjoint}
    (h : Adjoint.addAll as bs = .ok cs) (ha : ∀ a ∈ as, P a) (hb : ∀ b ∈ bs, P b) :
    ∀ c ∈ cs, P c := by
  cases as with
  | nil =>
    cases h
    exact fun c hc => absurd hc List.not_mem_nil
  | cons a as =>
    cases bs with
    | nil =>
      cases h
      exact fun c hc => absurd hc List.not_mem_nil
    | cons b bs =>
      rw [Adjoint.addAll] at h
      obtain ⟨c, hc, h⟩ := bind_eq_ok_iff.mp h
      obtain ⟨cs', hcs, h⟩ := bind_eq_ok_iff.mp h
      cases h
      obtain ⟨ha, has⟩ := List.forall_mem_cons.mp ha
      obtain ⟨hb, hbs⟩ := List.forall_mem_cons.mp hb
      exact List.forall_mem_cons.mpr ⟨hP.add a b hc ha hb, hP.addAll as bs hcs has hbs⟩

end

/-- Adding to a component keeps a closed property. -/
theorem Closed.addAt (hP : Closed sized P) {a b c : Adjoint} {index : Nat}
    (h : a.addAt index b = .ok c) (ha : P a) (hb : P b) : P c := by
  obtain ⟨as, current, sum, rfl, hcurrent, hsum, rfl⟩ := addAt_eq_ok_iff.mp h
  have has := hP.tuple.mp ha
  refine hP.tuple.mpr fun x hx => ?_
  rcases List.mem_or_eq_of_mem_set hx with hx | rfl
  · exact has x hx
  · exact hP.add current b hsum (has current (List.mem_of_getElem? hcurrent)) hb

end Adjoint

/-! ## Rules -/

namespace CallSite

variable {site : CallSite}

theorem args_of_single {x : Adjoint} (h : site.single = .ok x) : site.args = [x] := by
  rw [single] at h
  split at h
  · next y hargs =>
    cases h
    exact hargs
  · cases h

theorem args_of_pair {x y : Adjoint} (h : site.pair = .ok (x, y)) : site.args = [x, y] := by
  rw [pair] at h
  split at h
  · next x' y' hargs =>
    cases h
    exact hargs
  · cases h

/-- The spec of an operand is that of an argument. -/
theorem exists_of_argSpec {index : Nat} {spec : TensorSpec} (h : site.argSpec index = .ok spec) :
    ∃ x ∈ site.args, x.spec? = some spec := by
  rw [argSpec] at h
  split at h
  · next found hfound =>
    cases h
    obtain ⟨x, hx, hspec⟩ := Option.bind_eq_some_iff.mp hfound
    exact ⟨x, List.mem_of_getElem? hx, hspec⟩
  · cases h

/-- **`Suits`** -- a reshape names the shape of an operand, with or without axes of extent 1 in
place of others. -/
def Suits (site : CallSite) : Operation → Prop
  | .reshape dims => ∃ x ∈ site.args, ∃ spec, x.spec? = some spec ∧
      (dims = spec.shape.dims ∨ ∃ axes, dims = keptDims axes spec.shape.dims)
  | _ => True

/-- **`Built`** -- made of the adjoint of a call, its result and its operands by a number of
operators, each applied to one adjoint or to two. -/
inductive Built (site : CallSite) (adjoint : Adjoint) : Nat → Adjoint → Prop
  | adjoint : Built site adjoint 0 adjoint
  | result : Built site adjoint 0 site.result
  | operand {x : Adjoint} : x ∈ site.args → Built site adjoint 0 x
  | one {op : Operation} {x a : Adjoint} {n : Nat} : Adjoint.apply op [x] = .ok a →
      site.Suits op → Built site adjoint n x → Built site adjoint (n + 1) a
  | two {op : Operation} {x y a : Adjoint} {m n : Nat} : Adjoint.apply op [x, y] = .ok a →
      site.Suits op → Built site adjoint m x → Built site adjoint n y →
      Built site adjoint (m + n + 1) a

theorem built_of_single (adjoint : Adjoint) {x : Adjoint} (h : site.single = .ok x) :
    site.Built adjoint 0 x :=
  .operand (args_of_single h ▸ List.mem_cons_self)

theorem built_of_pair (adjoint : Adjoint) {x y : Adjoint} (h : site.pair = .ok (x, y)) :
    site.Built adjoint 0 x ∧ site.Built adjoint 0 y := by
  have hargs := args_of_pair h
  exact ⟨.operand (hargs ▸ List.mem_cons_self),
    .operand (hargs ▸ List.mem_cons_of_mem x List.mem_cons_self)⟩

end CallSite

namespace GradientRule

/-- **`Sizes`** -- a property that gives tensors types of a family. -/
def Sizes (sized : ValueType → Prop) (P : Adjoint → Prop) : Prop :=
  ∀ a spec, P a → a.spec? = some spec → sized (.tensor spec)

/-- **`Keeps`** -- a rule passes a property on to its partials. -/
def Keeps (P : Adjoint → Prop) (rule : GradientRule) : Prop :=
  ∀ site adjoint ps, rule site adjoint = .ok ps → P adjoint → P site.result →
    (∀ x ∈ site.args, P x) → ∀ p, some p ∈ ps → P p

/-- **`Builds`** -- the partials of a rule are made of what it is given, by at most three
operators each. -/
def Builds (rule : GradientRule) : Prop :=
  ∀ site adjoint ps, rule site adjoint = .ok ps → ∀ p, some p ∈ ps →
    ∃ n ≤ 3, site.Built adjoint n p

variable {sized : ValueType → Prop} {P : Adjoint → Prop} {site : CallSite} {adjoint : Adjoint}

theorem ofShape_eq_ok_iff {α : Type} {x : Except ShapeError α} {a : α} :
    ofShape x = .ok a ↔ x = .ok a := mapError_eq_ok_iff

/-- What every rule of the table is, a rule that is found in it is. -/
theorem forall_of_find? {Q : GradientRule → Prop} (hall : ∀ entry ∈ builtin, Q entry.2)
    {name : String} {rule : GradientRule}
    (h : RuleTable.builtinOnly.find? name = some rule) : Q rule := by
  rw [RuleTable.find?_builtinOnly] at h
  obtain ⟨front, back, hsplit, _⟩ := List.lookup_eq_some_iff.mp h
  exact hall (name, rule) (hsplit ▸ List.mem_append_right _ List.mem_cons_self)

/-- One operator more, with one argument. -/
theorem built_one {op : Operation} {x a : Adjoint} {n : Nat}
    (h : ofShape (Adjoint.apply op [x]) = .ok a) (hop : site.Suits op)
    (hx : site.Built adjoint n x) : site.Built adjoint (n + 1) a :=
  .one (ofShape_eq_ok_iff.mp h) hop hx

/-- One operator more, with two arguments. -/
theorem built_two {op : Operation} {x y a : Adjoint} {m n : Nat}
    (h : ofShape (Adjoint.apply op [x, y]) = .ok a) (hop : site.Suits op)
    (hx : site.Built adjoint m x) (hy : site.Built adjoint n y) :
    site.Built adjoint (m + n + 1) a :=
  .two (ofShape_eq_ok_iff.mp h) hop hx hy

theorem mem_one {p q : Adjoint} (h : some p ∈ [some q]) : p = q :=
  Option.some.inj (List.mem_singleton.mp h)

theorem mem_two {p q r : Adjoint} (h : some p ∈ [some q, some r]) : p = q ∨ p = r :=
  (List.mem_pair.mp h).imp Option.some.inj Option.some.inj

theorem mem_first {p q : Adjoint} (h : some p ∈ [some q, none]) : p = q := by
  rcases List.mem_pair.mp h with h | h
  · exact Option.some.inj h
  · cases h

theorem builds_add : Builds add := by
  intro site adjoint ps h p hp
  obtain ⟨⟨x, y⟩, _, h⟩ := bind_eq_ok_iff.mp h
  cases h
  rcases mem_two hp with rfl | rfl
  · exact ⟨0, by decide, .adjoint⟩
  · exact ⟨0, by decide, .adjoint⟩

theorem builds_subtract : Builds subtract := by
  intro site adjoint ps h p hp
  obtain ⟨⟨x, y⟩, _, h⟩ := bind_eq_ok_iff.mp h
  obtain ⟨n, hn, h⟩ := bind_eq_ok_iff.mp h
  cases h
  rcases mem_two hp with rfl | rfl
  · exact ⟨0, by decide, .adjoint⟩
  · exact ⟨1, by decide, built_one hn trivial .adjoint⟩

theorem builds_multiply : Builds multiply := by
  intro site adjoint ps h p hp
  obtain ⟨⟨x, y⟩, hpair, h⟩ := bind_eq_ok_iff.mp h
  obtain ⟨hx, hy⟩ := CallSite.built_of_pair adjoint hpair
  obtain ⟨l, hl, h⟩ := bind_eq_ok_iff.mp h
  obtain ⟨r, hr, h⟩ := bind_eq_ok_iff.mp h
  cases h
  rcases mem_two hp with rfl | rfl
  · exact ⟨1, by decide, built_two hl trivial .adjoint hy⟩
  · exact ⟨1, by decide, built_two hr trivial .adjoint hx⟩

theorem builds_divide : Builds divide := by
  intro site adjoint ps h p hp
  obtain ⟨⟨x, y⟩, hpair, h⟩ := bind_eq_ok_iff.mp h
  obtain ⟨_, hy⟩ := CallSite.built_of_pair adjoint hpair
  obtain ⟨numerator, hn, h⟩ := bind_eq_ok_iff.mp h
  obtain ⟨product, hproduct, h⟩ := bind_eq_ok_iff.mp h
  obtain ⟨quotient, hq, h⟩ := bind_eq_ok_iff.mp h
  obtain ⟨negated, hneg, h⟩ := bind_eq_ok_iff.mp h
  cases h
  rcases mem_two hp with rfl | rfl
  · exact ⟨1, by decide, built_two hn trivial .adjoint hy⟩
  · have hproduct := built_two hproduct trivial .adjoint .result
    have hquotient := built_two hq trivial hproduct hy
    exact ⟨3, by decide, built_one hneg trivial hquotient⟩

theorem builds_negative : Builds negative := by
  intro site adjoint ps h p hp
  obtain ⟨x, _, h⟩ := bind_eq_ok_iff.mp h
  obtain ⟨n, hn, h⟩ := bind_eq_ok_iff.mp h
  cases h
  exact ⟨1, by decide, mem_one hp ▸ built_one hn trivial .adjoint⟩

theorem builds_exp : Builds exp := by
  intro site adjoint ps h p hp
  obtain ⟨x, _, h⟩ := bind_eq_ok_iff.mp h
  obtain ⟨m, hm, h⟩ := bind_eq_ok_iff.mp h
  cases h
  exact ⟨1, by decide, mem_one hp ▸ built_two hm trivial .adjoint .result⟩

theorem builds_log : Builds log := by
  intro site adjoint ps h p hp
  obtain ⟨x, hx, h⟩ := bind_eq_ok_iff.mp h
  obtain ⟨q, hq, h⟩ := bind_eq_ok_iff.mp h
  cases h
  have hx := CallSite.built_of_single adjoint hx
  exact ⟨1, by decide, mem_one hp ▸ built_two hq trivial .adjoint hx⟩

theorem builds_matmul : Builds matmul := by
  intro site adjoint ps h p hp
  obtain ⟨⟨x, y⟩, hpair, h⟩ := bind_eq_ok_iff.mp h
  obtain ⟨hx, hy⟩ := CallSite.built_of_pair adjoint hpair
  obtain ⟨yT, hyT, h⟩ := bind_eq_ok_iff.mp h
  obtain ⟨left, hleft, h⟩ := bind_eq_ok_iff.mp h
  obtain ⟨xT, hxT, h⟩ := bind_eq_ok_iff.mp h
  obtain ⟨right, hright, h⟩ := bind_eq_ok_iff.mp h
  cases h
  rcases mem_two hp with rfl | rfl
  · have hyT := built_one hyT trivial hy
    exact ⟨2, by decide, built_two hleft trivial .adjoint hyT⟩
  · have hxT := built_one hxT trivial hx
    exact ⟨2, by decide, built_two hright trivial hxT .adjoint⟩

theorem builds_transpose : Builds transpose := by
  intro site adjoint ps h p hp
  obtain ⟨x, _, h⟩ := bind_eq_ok_iff.mp h
  split at h
  · obtain ⟨t, ht, h⟩ := bind_eq_ok_iff.mp h
    cases h
    exact ⟨1, by decide, mem_one hp ▸ built_one ht trivial .adjoint⟩
  · cases h

theorem builds_reshape : Builds reshape := by
  intro site adjoint ps h p hp
  obtain ⟨x, _, h⟩ := bind_eq_ok_iff.mp h
  obtain ⟨input, hinput, h⟩ := bind_eq_ok_iff.mp h
  obtain ⟨r, hr, h⟩ := bind_eq_ok_iff.mp h
  cases h
  obtain ⟨y, hy, hspec⟩ := CallSite.exists_of_argSpec hinput
  exact ⟨1, by decide, mem_one hp ▸ built_one hr ⟨y, hy, input, hspec, .inl rfl⟩ .adjoint⟩

theorem builds_sum : Builds sum := by
  intro site adjoint ps h p hp
  obtain ⟨x, hx, h⟩ := bind_eq_ok_iff.mp h
  have hx := CallSite.built_of_single adjoint hx
  -- the adjoint is reshaped at most once and then stretched
  have spread : ∀ {kept n}, n ≤ 1 → site.Built adjoint n kept → (do
      let ones ← ofShape x.onesLike
      return [some (← ofShape (kept.multiply ones))]) = .ok ps →
        ∃ n ≤ 3, site.Built adjoint n p := by
    intro kept n hn hkept h
    obtain ⟨ones, hones, h⟩ := bind_eq_ok_iff.mp h
    obtain ⟨m, hm, h⟩ := bind_eq_ok_iff.mp h
    cases h
    have hones := built_one hones trivial hx
    exact ⟨n + 1 + 1, by omega, mem_one hp ▸ built_two hm trivial hkept hones⟩
  split at h
  · next axes _ _ =>
    obtain ⟨input, hinput, h⟩ := bind_eq_ok_iff.mp h
    by_cases hrank : site.spec.shape.rank ≠ 0 ∧ site.spec.shape.rank ≠ input.shape.rank
    · rw [if_pos hrank] at h
      obtain ⟨kept, hkept, h⟩ := bind_eq_ok_iff.mp h
      obtain ⟨y, hy, hspec⟩ := CallSite.exists_of_argSpec hinput
      have hsuits : site.Suits (.reshape (keptDims axes input.shape.dims)) :=
        ⟨y, hy, input, hspec, .inr ⟨axes, rfl⟩⟩
      exact spread (Nat.le_refl 1) (built_one hkept hsuits .adjoint) h
    · rw [if_neg hrank] at h
      exact spread (Nat.zero_le 1) .adjoint h
  · cases h

theorem builds_softmaxCrossEntropy : Builds softmaxCrossEntropy := by
  intro site adjoint ps h p hp
  obtain ⟨⟨x, y⟩, hpair, h⟩ := bind_eq_ok_iff.mp h
  obtain ⟨hx, hy⟩ := CallSite.built_of_pair adjoint hpair
  obtain ⟨input, _, h⟩ := bind_eq_ok_iff.mp h
  obtain ⟨probabilities, hprob, h⟩ := bind_eq_ok_iff.mp h
  obtain ⟨difference, hdiff, h⟩ := bind_eq_ok_iff.mp h
  obtain ⟨m, hm, h⟩ := bind_eq_ok_iff.mp h
  cases h
  have hprobabilities := built_one hprob trivial hx
  have hdifference := built_two hdiff trivial hprobabilities hy
  exact ⟨3, by decide, mem_first hp ▸ built_two hm trivial hdifference .adjoint⟩

theorem builds_collapseSumLike : Builds collapseSumLike := by
  intro site adjoint ps h p hp
  obtain ⟨⟨x, y⟩, hpair, h⟩ := bind_eq_ok_iff.mp h
  obtain ⟨hx, _⟩ := CallSite.built_of_pair adjoint hpair
  obtain ⟨ones, hones, h⟩ := bind_eq_ok_iff.mp h
  obtain ⟨m, hm, h⟩ := bind_eq_ok_iff.mp h
  cases h
  have hones := built_one hones trivial hx
  exact ⟨2, by decide, mem_first hp ▸ built_two hm trivial .adjoint hones⟩

theorem builds_constant : Builds constant := by
  intro site adjoint ps h p hp
  cases h
  obtain ⟨x, _, hx⟩ := List.mem_map.mp hp
  cases hx

/-- **Every built-in rule** makes its partials of what it is given, whatever call that is. -/
theorem builds_of_find? {name : String} {rule : GradientRule}
    (h : RuleTable.builtinOnly.find? name = some rule) : Builds rule := by
  refine forall_of_find? ?_ h
  simp only [builtin, List.forall_mem_cons]
  exact ⟨builds_add, builds_subtract, builds_multiply, builds_divide, builds_negative, builds_exp,
    builds_log, builds_matmul, builds_transpose, builds_reshape, builds_sum,
    builds_softmaxCrossEntropy, builds_constant, builds_constant, builds_constant,
    builds_constant, builds_collapseSumLike, fun _ hm => absurd hm List.not_mem_nil⟩

/-- What a reshape names is the shape of a tensor of the family. -/
theorem within_of_suits (hsized : ValueType.Stable sized) (hP' : Sizes sized P)
    (hargs : ∀ x ∈ site.args, P x) {op : Operation} (hop : site.Suits op) : op.Within sized := by
  cases op with
  | reshape dims =>
    intro dtype
    obtain ⟨x, hx, spec, hspec, hdims⟩ := hop
    have hx := hP' x spec (hargs x hx) hspec
    rcases hdims with rfl | ⟨axes, rfl⟩
    · exact hsized.dtype dtype hx
    · exact hsized.dtype dtype (hsized.kept axes hx)
  | _ => trivial

/-- **What is built** of adjoints with a closed property has it. -/
theorem of_built (hP : Adjoint.Closed sized P) (hsized : ValueType.Stable sized)
    (hP' : Sizes sized P) {n : Nat} {p : Adjoint} (h : site.Built adjoint n p) (ha : P adjoint)
    (hresult : P site.result) (hargs : ∀ x ∈ site.args, P x) : P p := by
  induction h with
  | adjoint => exact ha
  | result => exact hresult
  | operand hx => exact hargs _ hx
  | one happly hop _ ih =>
    have hop := within_of_suits hsized hP' hargs hop
    exact hP.apply happly hop fun _ hy => List.mem_singleton.mp hy ▸ ih
  | two happly hop _ _ ihx ihy =>
    exact hP.apply_two happly (within_of_suits hsized hP' hargs hop) ihx ihy

/-- **Every built-in rule** keeps a closed property. -/
theorem keeps_of_find? (hP : Adjoint.Closed sized P) (hsized : ValueType.Stable sized)
    (hP' : Sizes sized P) {name : String} {rule : GradientRule}
    (h : RuleTable.builtinOnly.find? name = some rule) : Keeps P rule := by
  intro site adjoint ps hps ha hresult hargs p hp
  obtain ⟨_, _, hbuilt⟩ := builds_of_find? h site adjoint ps hps p hp
  exact of_built hP hsized hP' hbuilt ha hresult hargs

end GradientRule

end TensorGraph
