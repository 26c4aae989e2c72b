/-
# TensorGraph.Proofs.DualNumbers -- exact arithmetic and its tangents

Over a field the kernels compute exactly; exponential, logarithm and the numbers that words
denote are left open (`Reading`). A dual number carries a tangent along, by the rules of
differentiation, with the exponential as its own derivative and the reciprocal as that of the
logarithm. Forgetting the tangents is a map of arithmetics, and elementary operators commute
with such maps, so that what a function computes in dual numbers is, without its tangents,
what it computes in exact ones (`Env.Projects`).
-/
import Mathlib.Algebra.Field.Basic
import TensorGraph.Proofs.Soundness

namespace TensorGraph

/-! ## Arithmetics -/

/-- **`Reading`** -- what exact arithmetic leaves open: functions without any law, and what
stored words denote. -/
structure Reading (K : Type) where
  /-- The exponential. -/
  exp : K → K
  /-- The natural logarithm. -/
  log : K → K
  /-- The greater of two numbers. -/
  max : K → K → K
  /-- Where the search for a maximum starts. -/
  lowest : K
  /-- The number that a stored word denotes. -/
  ofWord : FloatWord → K

namespace Arithmetic

variable {K : Type} [Field K]

/-- **`Arithmetic.exact`** -- the operations of a field. -/
def exact (r : Reading K) : Arithmetic K where
  zero := 0
  one := 1
  add a b := a + b
  sub a b := a - b
  mul a b := a * b
  div a b := a / b
  neg a := -a
  exp := r.exp
  log := r.log
  max := r.max
  lowest := r.lowest
  ofWord := r.ofWord

/-- **`Arithmetic.dual`** -- numbers with tangents. What is stored does not vary; the
maximum, on which no elementary operator depends, is given no tangent. -/
def dual (r : Reading K) : Arithmetic (K × K) where
  zero := (0, 0)
  one := (1, 0)
  add a b := (a.1 + b.1, a.2 + b.2)
  sub a b := (a.1 - b.1, a.2 - b.2)
  mul a b := (a.1 * b.1, a.2 * b.1 + a.1 * b.2)
  div a b := (a.1 / b.1, (a.2 * b.1 - a.1 * b.2) / (b.1 * b.1))
  neg a := (-a.1, -a.2)
  exp a := (r.exp a.1, r.exp a.1 * a.2)
  log a := (r.log a.1, a.2 / a.1)
  max a b := (r.max a.1 b.1, 0)
  lowest := (r.lowest, 0)
  ofWord w := (r.ofWord w, 0)

/-- **`Maps`** -- a function that takes the operations of one arithmetic to those of
another. -/
structure Maps {α β : Type} (φ : α → β) (ar : Arithmetic α) (ar' : Arithmetic β) : Prop where
  /-- Zero is zero. -/
  zero : φ ar.zero = ar'.zero
  /-- One is one. -/
  one : φ ar.one = ar'.one
  /-- Sums are sums. -/
  add : ∀ a b, φ (ar.add a b) = ar'.add (φ a) (φ b)
  /-- Differences are differences. -/
  sub : ∀ a b, φ (ar.sub a b) = ar'.sub (φ a) (φ b)
  /-- Products are products. -/
  mul : ∀ a b, φ (ar.mul a b) = ar'.mul (φ a) (φ b)
  /-- Quotients are quotients. -/
  div : ∀ a b, φ (ar.div a b) = ar'.div (φ a) (φ b)
  /-- Negatives are negatives. -/
  neg : ∀ a, φ (ar.neg a) = ar'.neg (φ a)
  /-- Exponentials are exponentials. -/
  exp : ∀ a, φ (ar.exp a) = ar'.exp (φ a)
  /-- Logarithms are logarithms. -/
  log : ∀ a, φ (ar.log a) = ar'.log (φ a)
  /-- Words denote the same. -/
  ofWord : ∀ w, φ (ar.ofWord w) = ar'.ofWord w

/-- **Forgetting tangents** takes dual numbers to exact ones. -/
theorem maps_fst (r : Reading K) : Maps Prod.fst (dual r) (exact r) :=
  ⟨rfl, rfl, fun _ _ => rfl, fun _ _ => rfl, fun _ _ => rfl, fun _ _ => rfl, fun _ => rfl,
    fun _ => rfl, fun _ => rfl, fun _ => rfl⟩

end Arithmetic

/-- **`Operation.isElementary`** -- the operators that are made of the four operations,
exponentials and logarithms. -/
def Operation.isElementary : Operation → Bool
  | softmax _ | softmaxCrossEntropy | customCall _ => false
  | add | subtract | multiply | divide | negative | exp | log | matmul | transpose _ | reshape _
  | sum _ _ | ones | zeros | onesLike | zerosLike | collapseSumLike => true

theorem Operation.isCustom_of_isElementary {op : Operation} (h : op.isElementary = true) :
    op.isCustom = false := by
  cases op with
  | customCall target => cases h
  | _ => rfl

/-! ## Values under a map -/

variable {α β : Type} {φ : α → β} {ar : Arithmetic α} {ar' : Arithmetic β}

/-- A tensor with a function applied to every element. -/
def Tensor.map (φ : α → β) (t : Tensor α) : Tensor β := ⟨t.spec, t.data.map φ⟩

theorem Tensor.Fits.map {t : Tensor α} {spec : TensorSpec} (h : t.Fits spec) (φ : α → β) :
    (t.map φ).Fits spec := ⟨h.1, (Array.size_map).trans h.2⟩

theorem Tensor.map_tabulate (φ : α → β) (spec : TensorSpec) (n : Nat) (f : Nat → α) :
    Tensor.map φ ⟨spec, tabulate n f⟩ = ⟨spec, tabulate n fun i => φ (f i)⟩ := by
  rw [Tensor.map]
  congr 1
  refine eq_tabulate (by rw [Array.size_map, size_tabulate]) fun i hi => ?_
  rw [Array.getElem?_map, getElem?_tabulate, if_pos hi, Option.map_some]

theorem Tensor.getD_map (φ : α → β) (t : Tensor α) (i : Nat) (z : α) :
    (t.map φ).data.getD i (φ z) = φ (t.data.getD i z) := by
  rw [Array.getD_eq_getD_getElem?, Array.getD_eq_getD_getElem?, Tensor.map, Array.getElem?_map,
    Option.getD_map]

namespace Value

mutual

/-- A value with a function applied to every element of its tensors. -/
def map (φ : α → β) : Value α → Value β
  | .tensor t => .tensor (t.map φ)
  | .tuple vs => .tuple (mapAll φ vs)

/-- Several values with a function applied to every element. -/
def mapAll (φ : α → β) : List (Value α) → List (Value β)
  | [] => []
  | v :: vs => map φ v :: mapAll φ vs

end

theorem mapAll_eq_map (φ : α → β) (vs : List (Value α)) : mapAll φ vs = vs.map (map φ) := by
  induction vs with
  | nil => rfl
  | cons v vs ih => rw [mapAll, ih, List.map_cons]

mutual

theorem Fits.map (φ : α → β) (v : Value α) {ty : ValueType} (h : v.Fits ty) :
    (v.map φ).Fits ty := by
  cases v with
  | tensor t =>
    cases ty with
    | tensor spec => exact Tensor.Fits.map h φ
    | tuple tys => exact h.elim
  | tuple vs =>
    cases ty with
    | tensor spec => exact h.elim
    | tuple tys => exact FitAll.map φ vs h

theorem FitAll.map (φ : α → β) (vs : List (Value α)) {tys : List ValueType}
    (h : FitAll vs tys) : FitAll (mapAll φ vs) tys := by
  cases vs with
  | nil =>
    cases tys with
    | nil => trivial
    | cons ty tys => exact h.elim
  | cons v vs =>
    cases tys with
    | nil => exact h.elim
    | cons ty tys => exact ⟨Fits.map φ v h.1, FitAll.map φ vs h.2⟩

end

theorem component_map {v w : Value α} {index : Nat} (h : v.component index = .ok w) :
    (v.map φ).component index = .ok (w.map φ) := by
  obtain ⟨vs, rfl, hw⟩ := component_eq_ok_iff.mp h
  refine component_eq_ok_iff.mpr ⟨mapAll φ vs, by rw [map], ?_⟩
  rw [mapAll_eq_map, List.getElem?_map, hw, Option.map_some]

end Value

/-! ## Kernels under a map of arithmetics -/

namespace Kernel

theorem total_map (h : Arithmetic.Maps φ ar ar') (xs : List α) :
    φ (total ar xs) = total ar' (xs.map φ) := by
  have hfold : ∀ (xs : List α) (a : α),
      φ (xs.foldl ar.add a) = (xs.map φ).foldl ar'.add (φ a) := by
    intro xs
    induction xs with
    | nil => exact fun _ => rfl
    | cons x xs ih =>
      intro a
      rw [List.foldl_cons, ih, h.add, List.map_cons, List.foldl_cons]
  rw [total, total, hfold, h.zero]

theorem fiber_map (t : Tensor α) (σ : Nat → Nat) (slot : Nat) (z : α) (count : Nat) :
    (fiber t.data σ slot z count).map φ = fiber (t.map φ).data σ slot (φ z) count := by
  rw [fiber, fiber, List.map_map]
  refine List.map_congr_left fun i _ => ?_
  exact (Tensor.getD_map φ t i z).symm

theorem matmulTerms_map (h : Arithmetic.Maps φ ar ar') (x y : Tensor α) (k n i j : Nat) (z : α) :
    (matmulTerms ar x.data y.data k n i j z).map φ =
      matmulTerms ar' (x.map φ).data (y.map φ).data k n i j (φ z) := by
  rw [matmulTerms, matmulTerms, List.map_map]
  refine List.map_congr_left fun p _ => ?_
  rw [Tensor.getD_map, Tensor.getD_map]
  exact h.mul _ _

theorem filled_map (φ : α → β) (spec : TensorSpec) (c : α) :
    (Tensor.filled spec c).map φ = Tensor.filled spec (φ c) := by
  rw [Tensor.filled_eq, Tensor.map_tabulate, Tensor.filled_eq]

section Elementwise

variable {ts : List (Tensor α)} {specs : List TensorSpec} {out : TensorSpec}

theorem exists_binary_map {f : α → α → α} {f' : β → β → β} (hf : ∀ a b, φ (f a b) = f' (φ a) (φ b))
    (z : α) (hts : List.Forall₂ Tensor.Fits ts specs) {op : Operation}
    (ht : op.broadcastSpec specs = .ok out) :
    ∃ t, binary f ts out = .ok t ∧ binary f' (ts.map (Tensor.map φ)) out = .ok (t.map φ) := by
  obtain ⟨sx, sy, rfl, _, _, hsx, hsy⟩ := Operation.exists_of_broadcastSpec ht
  obtain ⟨x, y, rfl, hx, hy⟩ := forall₂_pair_right_iff.mp hts
  refine ⟨_, binary_eq_ok f hx hy hsx hsy z, ?_⟩
  have hrun := binary_eq_ok f' (hx.map φ) (hy.map φ) hsx hsy (φ z)
  simp only [Tensor.getD_map, ← hf] at hrun
  rw [Tensor.map_tabulate]
  exact hrun

theorem exists_unary_map {f : α → α} {f' : β → β} (hf : ∀ a, φ (f a) = f' (φ a)) (z : α)
    (hts : List.Forall₂ Tensor.Fits ts specs) {op : Operation} (ht : op.single specs = .ok out) :
    ∃ t, unary f ts out = .ok t ∧ unary f' (ts.map (Tensor.map φ)) out = .ok (t.map φ) := by
  cases Operation.single_eq_ok_iff.mp ht
  obtain ⟨x, rfl, hx⟩ := forall₂_singleton_right_iff.mp hts
  refine ⟨_, unary_eq_ok f hx z, ?_⟩
  have hrun := unary_eq_ok f' (hx.map φ) (φ z)
  simp only [Tensor.getD_map, ← hf] at hrun
  rw [Tensor.map_tabulate]
  exact hrun

theorem exists_constantLike_map {c : α} {c' : β} (hc : φ c = c')
    (hts : List.Forall₂ Tensor.Fits ts specs) {op : Operation} (ht : op.single specs = .ok out) :
    ∃ t, constantLike c ts out = .ok t ∧
      constantLike c' (ts.map (Tensor.map φ)) out = .ok (t.map φ) := by
  cases Operation.single_eq_ok_iff.mp ht
  obtain ⟨x, rfl, _⟩ := forall₂_singleton_right_iff.mp hts
  refine ⟨_, Tensor.fill_exact out c, ?_⟩
  rw [filled_map, hc]
  rfl

/-- **An elementary operator commutes** with a map of arithmetics. -/
theorem exists_run_map (h : Arithmetic.Maps φ ar ar') (custom : CustomKernels α)
    (custom' : CustomKernels β) {op : Operation} (hop : op.isElementary = true)
    (hts : List.Forall₂ Tensor.Fits ts specs)
    (ht : op.resultSpec specs (some (.tensor out)) = .ok out) :
    ∃ t, Kernel.run ar custom op ts out = .ok t ∧
      Kernel.run ar' custom' op (ts.map (Tensor.map φ)) out = .ok (t.map φ) := by
  have one : ∀ {s}, specs = [s] → ∃ x, ts = [x] ∧ x.Fits s :=
    fun hs => forall₂_singleton_right_iff.mp (hs ▸ hts)
  have two : ∀ {s s'}, specs = [s, s'] → ∃ x y, ts = [x, y] ∧ x.Fits s ∧ y.Fits s' :=
    fun hs => forall₂_pair_right_iff.mp (hs ▸ hts)
  cases op with
  | softmax axis => cases hop
  | softmaxCrossEntropy => cases hop
  | customCall target => cases hop
  | add => exact exists_binary_map h.add ar.zero hts ht
  | subtract => exact exists_binary_map h.sub ar.zero hts ht
  | multiply => exact exists_binary_map h.mul ar.zero hts ht
  | divide => exact exists_binary_map h.div ar.zero hts ht
  | negative => exact exists_unary_map h.neg ar.zero hts ht
  | exp => exact exists_unary_map h.exp ar.zero hts ht
  | log => exact exists_unary_map h.log ar.zero hts ht
  | ones =>
    refine ⟨_, Tensor.fill_exact out ar.one, ?_⟩
    rw [filled_map, h.one]
    rfl
  | zeros =>
    refine ⟨_, Tensor.fill_exact out ar.zero, ?_⟩
    rw [filled_map, h.zero]
    rfl
  | onesLike => exact exists_constantLike_map h.one hts ht
  | zerosLike => exact exists_constantLike_map h.zero hts ht
  | matmul =>
    obtain ⟨sx, sy, m, k, n, hs, _, hdx, hdy, rfl⟩ := Operation.matmulSpec_eq_ok_iff.mp ht
    obtain ⟨x, y, rfl, hx, hy⟩ := two hs
    have hcount : (TensorSpec.mk sx.dtype ⟨[m, n]⟩).elementCount = m * n :=
      TensorSpec.elementCount_matrix rfl
    refine ⟨_, matmul_eq_ok ar hx hy hdx hdy hcount ar.zero, ?_⟩
    have hrun := matmul_eq_ok ar' (hx.map φ) (hy.map φ) hdx hdy hcount (φ ar.zero)
    simp only [← matmulTerms_map h, ← total_map h] at hrun
    rw [Tensor.map_tabulate]
    exact hrun
  | transpose perm =>
    obtain ⟨sx, hs, hp, rfl⟩ := Operation.transposeSpec_eq_ok_iff.mp ht
    obtain ⟨x, rfl, hx⟩ := one hs
    refine ⟨_, transpose_eq_ok hx hp rfl ar.zero, ?_⟩
    have hrun : transpose perm [x.map φ] ⟨sx.dtype, ⟨permuted sx.shape.dims perm⟩⟩ = _ :=
      transpose_eq_ok (hx.map φ) hp rfl (φ ar.zero)
    simp only [Tensor.getD_map] at hrun
    rw [Tensor.map_tabulate]
    exact hrun
  | reshape dims =>
    obtain ⟨sx, hs, hc, rfl⟩ := Operation.reshapeSpec_eq_ok_iff.mp ht
    obtain ⟨x, rfl, hx⟩ := one hs
    exact ⟨_, reshape_eq_ok (hx.2.trans hc.symm), reshape_eq_ok ((hx.map φ).2.trans hc.symm)⟩
  | sum axes keepdims =>
    obtain ⟨sx, hs, _, rfl⟩ := Operation.sumSpec_eq_ok_iff.mp ht
    obtain ⟨x, rfl, hx⟩ := one hs
    have hcount := TensorSpec.elementCount_reduced sx.dtype axes keepdims sx.shape.dims
    refine ⟨_, sum_eq_ok ar axes hx hcount ar.zero, ?_⟩
    have hrun := sum_eq_ok ar' axes (hx.map φ) hcount (φ ar.zero)
    simp only [← fiber_map, ← total_map h, (hx.map φ).2] at hrun
    rw [Tensor.map_tabulate]
    simp only [hx.2]
    exact hrun
  | collapseSumLike =>
    obtain ⟨sx, hs, _, hb⟩ := Operation.collapseSpec_eq_ok_iff.mp ht
    obtain ⟨x, y, rfl, hx, _⟩ := two hs
    have hst := (stretches_of_broadcast? hb).2
    refine ⟨_, collapseSumLike_eq_ok ar hx hst ar.zero, ?_⟩
    have hrun := collapseSumLike_eq_ok ar' (y := y.map φ) (hx.map φ) hst (φ ar.zero)
    simp only [← fiber_map, ← total_map h, (hx.map φ).2] at hrun
    rw [Tensor.map_tabulate]
    simp only [hx.2]
    exact hrun

end Elementwise

end Kernel

/-! ## Runs under a map of arithmetics -/

namespace Env

/-- **`Projects`** -- whatever one environment holds, another holds its image. -/
def Projects (φ : α → β) (env : Env α) (env' : Env β) : Prop :=
  ∀ id v, env.lookup id = .ok v → env'.lookup id = .ok (v.map φ)

variable {env : Env α} {env' : Env β} {Γ : Context}

theorem Projects.push (hp : Projects φ env env') (id : ValueId) (v : Value α) :
    Projects φ (env.push id v) (env'.push id (v.map φ)) := by
  intro other w hw
  rw [lookup_push] at hw ⊢
  by_cases ho : other = id
  · rw [if_pos ho] at hw ⊢
    cases hw
    rfl
  · rw [if_neg ho] at hw ⊢
    exact hp other w hw

theorem Projects.operand (h : Arithmetic.Maps φ ar ar') (hp : Projects φ env env') {x : Operand}
    {v : Value α} (hx : env.operand ar x = .ok v) : env'.operand ar' x = .ok (v.map φ) := by
  cases x with
  | value id => exact hp id v hx
  | tupleElement tuple index =>
    obtain ⟨whole, hw, hc⟩ := bind_eq_ok_iff.mp hx
    exact bind_eq_ok_iff.mpr ⟨_, hp tuple whole hw, Value.component_map hc⟩
  | literal constant =>
    obtain ⟨t, ht, rfl⟩ := map_eq_ok_iff.mp hx
    refine map_eq_ok_iff.mpr ⟨t.map φ, ?_, rfl⟩
    rw [Tensor.ofLiteral_exact] at ht ⊢
    cases hw : constant.words? with
    | none =>
      rw [hw] at ht
      simp at ht
    | some words =>
      rw [hw] at ht
      obtain ⟨hsize, rfl⟩ := Tensor.ofData_eq_ok_iff.mp ht
      have hdata : (words.map ar'.ofWord).toArray = (words.map ar.ofWord).toArray.map φ := by
        rw [List.map_toArray, List.map_map]
        exact congrArg _ (List.map_congr_left fun w _ => (h.ofWord w).symm)
      refine Tensor.ofData_eq_ok_iff.mpr ⟨?_, ?_⟩
      · rw [hdata, Array.size_map, hsize]
      · rw [Tensor.map, hdata]

theorem Projects.operands (h : Arithmetic.Maps φ ar ar') (hp : Projects φ env env')
    {xs : List Operand} {ts : List (Tensor α)} (hx : xs.mapM (env.tensorOperand ar) = .ok ts) :
    xs.mapM (env'.tensorOperand ar') = .ok (ts.map (Tensor.map φ)) := by
  rw [mapM_eq_ok_iff] at hx
  rw [mapM_eq_ok_iff, List.forall₂_map_right_iff]
  refine hx.imp fun x t hxt => ?_
  exact tensorOperand_eq_ok_iff.mpr (hp.operand h (tensorOperand_eq_ok_iff.mp hxt))

mutual

theorem Projects.field (h : Arithmetic.Maps φ ar ar') (hp : Projects φ env env')
    (field : TupleField) {v : Value α} (hx : env.field ar field = .ok v) :
    env'.field ar' field = .ok (v.map φ) := by
  cases field with
  | operand x => exact hp.operand h hx
  | tuple fields =>
    obtain ⟨vs, hvs, rfl⟩ := map_eq_ok_iff.mp hx
    exact map_eq_ok_iff.mpr ⟨_, Projects.fields h hp fields hvs, rfl⟩

theorem Projects.fields (h : Arithmetic.Maps φ ar ar') (hp : Projects φ env env')
    (fields : List TupleField) {vs : List (Value α)} (hx : env.fields ar fields = .ok vs) :
    env'.fields ar' fields = .ok (Value.mapAll φ vs) := by
  cases fields with
  | nil =>
    cases hx
    rfl
  | cons field fields =>
    rw [Env.fields] at hx ⊢
    obtain ⟨v, hv, hx⟩ := bind_eq_ok_iff.mp hx
    obtain ⟨vs', hvs, hx⟩ := bind_eq_ok_iff.mp hx
    cases hx
    rw [Projects.field h hp field hv, ok_bind, Projects.fields h hp fields hvs]
    rfl

end

variable {custom : CustomKernels α} {custom' : CustomKernels β}

/-- **A typed expression** of elementary operators has the image of its value. -/
theorem Projects.expr (h : Arithmetic.Maps φ ar ar') (hp : Projects φ env env')
    (henv : env.Fits Γ) {b : Binding} (ht : b.expr.HasType Γ.typeOf? b.ty)
    (hplain : b.expr.IsPlain) (hop : ∀ op, b.expr.operation? = some op → op.isElementary = true)
    {v : Value α} (hv : env.expr ar custom b = .ok v) :
    env'.expr ar' custom' b = .ok (v.map φ) := by
  obtain ⟨id, name, e, ty⟩ := b
  cases e with
  | call op xs =>
    obtain ⟨tys, hx, hr⟩ := ht
    have hel : op.isElementary = true := hop op rfl
    obtain ⟨specs, spec, rfl, hspec, rfl⟩ :=
      (Operation.resultType_eq_ok_iff (Operation.isCustom_of_isElementary hel)).mp hr
    obtain ⟨ts, hts, hfits⟩ := henv.exists_tensorOperands ar hx hplain.2
    obtain ⟨ts', t, hts', hrun, rfl⟩ := expr_call_eq_ok_iff.mp hv
    cases Except.ok.inj (hts.symm.trans hts')
    obtain ⟨t', hrun', hmap⟩ := Kernel.exists_run_map h custom custom' hel hfits hspec
    cases Except.ok.inj (hrun.symm.trans hrun')
    exact expr_call_eq_ok_iff.mpr ⟨_, _, hp.operands h hts, hmap, rfl⟩
  | tuple fields =>
    obtain ⟨vs, hvs, rfl⟩ := map_eq_ok_iff.mp hv
    exact map_eq_ok_iff.mpr ⟨_, hp.fields h fields hvs, rfl⟩
  | tupleGet source index =>
    have hx : env.operand ar (.tupleElement source index) = .ok v := hv
    exact hp.operand h hx
  | «alias» x => exact hp.operand h hv

/-- **Accepted bindings** of elementary operators run side by side. -/
theorem Projects.exists_run (h : Arithmetic.Maps φ ar ar') (hp : Projects φ env env')
    (henv : env.Fits Γ) {bs : List Binding} (hacc : Γ.Accepts bs)
    (hplain : ∀ b ∈ bs, b.expr.IsPlain)
    (hop : ∀ b ∈ bs, ∀ op, b.expr.operation? = some op → op.isElementary = true) :
    ∃ final final', bs.foldlM (Env.step ar custom) env = .ok final ∧
      bs.foldlM (Env.step ar' custom') env' = .ok final' ∧
        final.Fits (Γ ++ bs.map Binding.entry) ∧ Projects φ final final' := by
  induction bs generalizing env env' Γ with
  | nil => exact ⟨env, env', rfl, rfl, by rwa [List.map_nil, List.append_nil], hp⟩
  | cons b bs ih =>
    obtain ⟨hid, ht, hrest⟩ := hacc
    obtain ⟨hb, hbs⟩ := List.forall_mem_cons.mp hplain
    obtain ⟨hopb, hops⟩ := List.forall_mem_cons.mp hop
    obtain ⟨v, hstep, hfit⟩ := henv.exists_step ar custom hid ht hb
    obtain ⟨w, hv, hty, he⟩ := step_eq_ok_iff.mp hstep
    have hw : v = w := by
      have hlookup := congrArg (fun e => e.lookup b.id) he
      simpa only [lookup_push_self, Except.ok.injEq] using hlookup
    subst hw
    have hv' : env'.expr ar' custom' b = .ok (v.map φ) := hp.expr h henv ht hb hopb hv
    have hvfits : v.Fits b.ty := by
      obtain ⟨v', hv', hfits⟩ := henv.exists_expr ar custom ht hb
      exact Except.ok.inj (hv'.symm.trans hv) ▸ hfits
    have hstep' : env'.step ar' custom' b = .ok (env'.push b.id (v.map φ)) :=
      step_eq_ok_iff.mpr ⟨_, hv', Value.hasType_of_fits _ (hvfits.map φ v), rfl⟩
    obtain ⟨final, final', hrun, hrun', hfits, hproj⟩ :=
      ih (hp.push b.id v) hfit hrest hbs hops
    refine ⟨final, final', foldlM_cons_eq_ok_iff.mpr ⟨_, hstep, hrun⟩,
      foldlM_cons_eq_ok_iff.mpr ⟨_, hstep', hrun'⟩, ?_, hproj⟩
    rwa [List.append_assoc, List.singleton_append] at hfits

/-- **Inputs** are taken in side by side. -/
theorem Projects.pushAll (hp : Projects φ env env') (inputs : List (Param × Value α)) :
    Projects φ (env.pushAll inputs)
      (env'.pushAll (inputs.map fun input => (input.1, input.2.map φ))) := by
  induction inputs generalizing env env' with
  | nil => exact hp
  | cons input inputs ih => exact ih (hp.push input.1.id input.2)

end Env

end TensorGraph
