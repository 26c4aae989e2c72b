/-
# TensorGraph.Proofs.Pairing -- adjoints against tangents

The inner product of two values of one type is the sum of the products of their elements. The
value that an adjoint denotes is of use only against tangents: a sum of adjoints has against
any tangent the sum of what its summands have (`Adjoint.Denotes.exists_add`), a zero has
nothing, and what is added at a component of a tuple counts against that component of the
tangent (`Adjoint.Denotes.exists_addInto`).
-/
import Mathlib.Algebra.BigOperators.Intervals
import Mathlib.Algebra.BigOperators.Ring.Finset
import Mathlib.Tactic.Ring
import TensorGraph.Proofs.DualNumbers
import TensorGraph.Proofs.Sweep

namespace TensorGraph

variable {K : Type} [Field K]

/-! ## Inner products -/

/-- The sum of the products of corresponding elements. -/
def Tensor.inner (a b : Tensor K) : K := (List.zipWith (· * ·) a.data.toList b.data.toList).sum

theorem sum_map_range (n : Nat) (f : Nat → K) :
    ((List.range n).map f).sum = ∑ i ∈ Finset.range n, f i := by
  induction n with
  | zero => rfl
  | succ n ih =>
    rw [List.range_succ, List.map_append, List.map_singleton, List.sum_append, ih,
      List.sum_singleton, Finset.sum_range_succ]

/-- **The inner product** as a sum over places. -/
theorem Tensor.inner_eq_sum {a b : Tensor K} {spec : TensorSpec} (ha : a.Fits spec)
    (hb : b.Fits spec) :
    a.inner b = ∑ i ∈ Finset.range spec.elementCount, a.data.getD i 0 * b.data.getD i 0 := by
  rw [← sum_map_range, Tensor.inner]
  congr 1
  refine List.ext_getElem? fun i => ?_
  rw [List.getElem?_zipWith, Array.getElem?_toList, Array.getElem?_toList, List.getElem?_map]
  by_cases hi : i < spec.elementCount
  · rw [List.getElem?_range hi, getElem?_eq_some_getD (ha.2.symm ▸ hi) 0,
      getElem?_eq_some_getD (hb.2.symm ▸ hi) 0]
    rfl
  · rw [Array.getElem?_eq_none (by rw [ha.2]; exact Nat.le_of_not_lt hi),
      List.getElem?_eq_none (by rw [List.length_range]; exact Nat.le_of_not_lt hi)]
    rfl

theorem Tensor.inner_filled_zero (spec : TensorSpec) (b : Tensor K) :
    (Tensor.filled spec (0 : K)).inner b = 0 := by
  refine List.sum_eq_zero fun x hx => ?_
  obtain ⟨i, hi, rfl⟩ := List.mem_iff_getElem.mp hx
  rw [List.getElem_zipWith, Array.getElem_toList]
  simp [Tensor.filled]

/-- **`Tensor.plus`** -- the sum of two tensors, element by element. -/
def Tensor.plus (s t : Tensor K) : Tensor K := ⟨s.spec, s.data.zipWith (· + ·) t.data⟩

section Plus

variable {s t : Tensor K} {spec : TensorSpec}

theorem Tensor.Fits.plus (hs : s.Fits spec) (ht : t.Fits spec) : (s.plus t).Fits spec := by
  refine ⟨hs.1, ?_⟩
  rw [Tensor.plus, Array.size_zipWith, hs.2, ht.2, Nat.min_self]

theorem Tensor.getElem?_plus (hs : s.Fits spec) (ht : t.Fits spec) {i : Nat}
    (hi : i < spec.elementCount) :
    (s.plus t).data[i]? = some (s.data.getD i 0 + t.data.getD i 0) := by
  rw [Tensor.plus, Array.getElem?_zipWith, getElem?_eq_some_getD (hs.2.symm ▸ hi) 0,
    getElem?_eq_some_getD (ht.2.symm ▸ hi) 0]

/-- The inner product is additive. -/
theorem Tensor.inner_plus (hs : s.Fits spec) (ht : t.Fits spec) {d : Tensor K}
    (hd : d.Fits spec) : (s.plus t).inner d = s.inner d + t.inner d := by
  rw [Tensor.inner_eq_sum (hs.plus ht) hd, Tensor.inner_eq_sum hs hd, Tensor.inner_eq_sum ht hd,
    ← Finset.sum_add_distrib]
  refine Finset.sum_congr rfl fun i hi => ?_
  rw [Array.getD_eq_getD_getElem?, Tensor.getElem?_plus hs ht (Finset.mem_range.mp hi),
    Option.getD_some, add_mul]

end Plus

namespace Value

mutual

/-- **`Value.inner`** -- the sum of the products of corresponding elements, over all
tensors. -/
def inner : Value K → Value K → K
  | .tensor a, .tensor b => a.inner b
  | .tuple vs, .tuple ws => innerAll vs ws
  | .tensor _, .tuple _ => 0
  | .tuple _, .tensor _ => 0

/-- The sum of the inner products of corresponding values. -/
def innerAll : List (Value K) → List (Value K) → K
  | v :: vs, w :: ws => inner v w + innerAll vs ws
  | [], _ => 0
  | _ :: _, [] => 0

end

mutual

/-- A value fits one type only. -/
theorem Fits.unique {α : Type} (v : Value α) {ty ty' : ValueType} (h : v.Fits ty)
    (h' : v.Fits ty') : ty = ty' := by
  cases v with
  | tensor t =>
    cases ty with
    | tuple tys => exact h.elim
    | tensor spec =>
      cases ty' with
      | tuple tys => exact h'.elim
      | tensor spec' => exact congrArg _ (h.1.symm.trans h'.1)
  | tuple vs =>
    cases ty with
    | tensor spec => exact h.elim
    | tuple tys =>
      cases ty' with
      | tensor spec' => exact h'.elim
      | tuple tys' => exact congrArg _ (FitAll.unique vs h h')

theorem FitAll.unique {α : Type} (vs : List (Value α)) {tys tys' : List ValueType}
    (h : FitAll vs tys) (h' : FitAll vs tys') : tys = tys' := by
  cases vs with
  | nil =>
    cases tys with
    | cons ty tys => exact h.elim
    | nil =>
      cases tys' with
      | cons ty tys' => exact h'.elim
      | nil => rfl
  | cons v vs =>
    cases tys with
    | nil => exact h.elim
    | cons ty tys =>
      cases tys' with
      | nil => exact h'.elim
      | cons ty' tys' => rw [Fits.unique v h.1 h'.1, FitAll.unique vs h.2 h'.2]

end

/-- **`Lies`** -- what stands in a value at a place that an operand reads. -/
def Lies {α : Type} (whole : Value α) : List Nat → Value α → Prop
  | [], v => v = whole
  | index :: _, v => whole.component index = .ok v

end Value

/-! ## What adjoints denote -/

namespace Adjoint

/-- **`Denotes`** -- in exact arithmetic an adjoint has a value, of its type. -/
def Denotes (r : Reading K) (custom : CustomKernels K) (env : Env K) (a : Adjoint)
    (v : Value K) : Prop :=
  a.eval (.exact r) custom env = .ok v ∧ v.Fits a.type

/-- Several adjoints have values, of their types. -/
def DenoteAll (r : Reading K) (custom : CustomKernels K) (env : Env K) (as : List Adjoint)
    (vs : List (Value K)) : Prop :=
  evalAll (.exact r) custom env as = .ok vs ∧ Value.FitAll vs (types as)

variable {r : Reading K} {custom : CustomKernels K} {env : Env K}

theorem Denotes.eq {a : Adjoint} {v w : Value K} (h : a.Denotes r custom env v)
    (h' : a.Denotes r custom env w) : v = w := Except.ok.inj (h.1.symm.trans h'.1)

theorem denoteAll_cons_iff {a : Adjoint} {as : List Adjoint} {vs : List (Value K)} :
    DenoteAll r custom env (a :: as) vs ↔
      ∃ v vs', a.Denotes r custom env v ∧ DenoteAll r custom env as vs' ∧ vs = v :: vs' := by
  constructor
  · rintro ⟨heval, hfits⟩
    rw [evalAll] at heval
    obtain ⟨v, hv, heval⟩ := bind_eq_ok_iff.mp heval
    obtain ⟨vs', hvs, heval⟩ := bind_eq_ok_iff.mp heval
    cases heval
    exact ⟨v, vs', ⟨hv, hfits.1⟩, ⟨hvs, hfits.2⟩, rfl⟩
  · rintro ⟨v, vs', ⟨hv, hfit⟩, ⟨hvs, hfits⟩, rfl⟩
    refine ⟨?_, hfit, hfits⟩
    rw [evalAll, hv, ok_bind, hvs]
    rfl

theorem denotes_tuple_iff {as : List Adjoint} {v : Value K} :
    (tuple as).Denotes r custom env v ↔ ∃ vs, DenoteAll r custom env as vs ∧ v = .tuple vs := by
  constructor
  · rintro ⟨heval, hfits⟩
    rw [eval] at heval
    obtain ⟨vs, hvs, rfl⟩ := map_eq_ok_iff.mp heval
    exact ⟨vs, ⟨hvs, hfits⟩, rfl⟩
  · rintro ⟨vs, ⟨hvs, hfits⟩, rfl⟩
    exact ⟨map_eq_ok_iff.mpr ⟨vs, hvs, rfl⟩, hfits⟩

/-- A tensor denotes a tensor. -/
theorem Denotes.exists_tensor {a : Adjoint} {v : Value K} {spec : TensorSpec}
    (h : a.Denotes r custom env v) (hty : a.type = .tensor spec) :
    ∃ t, v = .tensor t ∧ t.Fits spec :=
  Value.Fits.tensor_inv (hty ▸ h.2)

/-- An operator denotes what its kernel computes. -/
theorem denotes_call {op : Operation} {args : List Adjoint} {spec : TensorSpec}
    {ts : List (Tensor K)} {t : Tensor K}
    (hargs : evalAll (.exact r) custom env args = .ok (ts.map .tensor))
    (ht : Kernel.run (.exact r) custom op ts spec = .ok t) (hfits : t.Fits spec) :
    (call op args spec).Denotes r custom env (.tensor t) :=
  ⟨eval_call_eq_ok hargs ht, hfits⟩

theorem evalAll_pair {a b : Adjoint} {s t : Tensor K}
    (ha : a.eval (.exact r) custom env = .ok (.tensor s))
    (hb : b.eval (.exact r) custom env = .ok (.tensor t)) :
    evalAll (.exact r) custom env [a, b] = .ok ([s, t].map .tensor) := by
  rw [evalAll, ha, ok_bind, evalAll, hb, ok_bind, evalAll]
  rfl

theorem evalAll_singleton {a : Adjoint} {t : Tensor K}
    (ha : a.eval (.exact r) custom env = .ok (.tensor t)) :
    evalAll (.exact r) custom env [a] = .ok ([t].map .tensor) := by
  rw [evalAll, ha, ok_bind, evalAll]
  rfl

/-! ## Zeros -/

mutual

/-- **Zeros** have nothing against any tangent. -/
theorem exists_denotes_zerosOf (ty : ValueType) :
    ∃ v, (zerosOf ty).Denotes r custom env v ∧ ∀ w, v.inner w = 0 := by
  cases ty with
  | tensor spec =>
    refine ⟨.tensor (.filled spec 0), ⟨by rw [zerosOf, eval]; rfl, Tensor.fits_filled spec 0⟩, ?_⟩
    intro w
    cases w with
    | tensor t => exact Tensor.inner_filled_zero spec t
    | tuple ws => rfl
  | tuple tys =>
    obtain ⟨vs, hvs, hzero⟩ := exists_denotes_zerosOfAll tys
    refine ⟨.tuple vs, denotes_tuple_iff.mpr ⟨vs, hvs, rfl⟩, fun w => ?_⟩
    cases w with
    | tensor t => rfl
    | tuple ws => exact hzero ws

theorem exists_denotes_zerosOfAll (tys : List ValueType) :
    ∃ vs, DenoteAll r custom env (zerosOfAll tys) vs ∧ ∀ ws, Value.innerAll vs ws = 0 := by
  cases tys with
  | nil => exact ⟨[], ⟨rfl, trivial⟩, fun _ => rfl⟩
  | cons ty tys =>
    obtain ⟨v, hv, hzero⟩ := exists_denotes_zerosOf ty
    obtain ⟨vs, hvs, hzeros⟩ := exists_denotes_zerosOfAll tys
    refine ⟨v :: vs, denoteAll_cons_iff.mpr ⟨v, vs, hv, hvs, rfl⟩, fun ws => ?_⟩
    cases ws with
    | nil => rfl
    | cons w ws => rw [Value.innerAll, hzero, hzeros, add_zero]

end

mutual

/-- What is known to be zero is the zero of its type. -/
theorem eq_zerosOf (a : Adjoint) (h : a.isZero = true) : a = zerosOf a.type := by
  cases a with
  | leaf x spec => cases h
  | call op args spec => cases h
  | zeros spec => rfl
  | tuple components => exact congrArg tuple (eq_zerosOfAll components h)

theorem eq_zerosOfAll (as : List Adjoint) (h : allZero as = true) :
    as = zerosOfAll (types as) := by
  cases as with
  | nil => rfl
  | cons a as =>
    rw [allZero, Bool.and_eq_true] at h
    rw [types, zerosOfAll, ← eq_zerosOf a h.1, ← eq_zerosOfAll as h.2]

end

/-- **What is known to be zero** has nothing against any tangent. -/
theorem Denotes.inner_of_isZero {a : Adjoint} {v : Value K} (h : a.Denotes r custom env v)
    (hz : a.isZero = true) (w : Value K) : v.inner w = 0 := by
  obtain ⟨u, hu, hzero⟩ : ∃ u, (zerosOf a.type).Denotes r custom env u ∧ ∀ w, u.inner w = 0 :=
    exists_denotes_zerosOf a.type
  rw [← eq_zerosOf a hz] at hu
  rw [h.eq hu, hzero]

/-! ## Sums -/

/-- The forms that a sum of tensors takes. -/
theorem add_cases {a b c : Adjoint} {spec : TensorSpec} (ha : a.type = .tensor spec)
    (hb : b.type = .tensor spec) (h : a.add b = .ok c) :
    (a = .zeros spec ∧ c = b) ∨ (b = .zeros spec ∧ c = a) ∨ c = .call .add [a, b] spec := by
  obtain ⟨s, rfl, rfl⟩ | ⟨s, rfl, rfl⟩ | ⟨as, bs, cs, rfl, _⟩ | ⟨_, _, hop⟩ := add_forms h
  · cases ha
    exact .inl ⟨rfl, rfl⟩
  · cases hb
    exact .inr (.inl ⟨rfl, rfl⟩)
  · cases ha
  · exact .inr (.inr (Except.ok.inj (hop.symm.trans (apply_add_eq_ok ha hb))))

/-- The operator that adds two tensors of one spec. -/
theorem Denotes.call_add {a b : Adjoint} {spec : TensorSpec} {s t : Tensor K}
    (hs : a.Denotes r custom env (.tensor s)) (ht : b.Denotes r custom env (.tensor t))
    (hsfits : s.Fits spec) (htfits : t.Fits spec) :
    (call .add [a, b] spec).Denotes r custom env (.tensor (s.plus t)) := by
  have hrun := Kernel.binary_eq_ok (Arithmetic.exact r).add hsfits htfits (stretches_self _)
    (stretches_self _) 0
  have hplus : (⟨spec, tabulate spec.elementCount fun i => (Arithmetic.exact r).add
      (s.data.getD (sourcePlace spec.shape.dims spec.shape.dims i) 0)
      (t.data.getD (sourcePlace spec.shape.dims spec.shape.dims i) 0)⟩ : Tensor K) =
      s.plus t := by
    refine Tensor.Fits.ext (Tensor.fits_tabulate _ rfl) (hsfits.plus htfits) fun i hi => ?_
    rw [getElem?_tabulate, if_pos hi, sourcePlace_self hi, Tensor.getElem?_plus hsfits htfits hi]
    rfl
  rw [hplus] at hrun
  exact denotes_call (evalAll_pair hs.1 ht.1) hrun (hsfits.plus htfits)

theorem exists_add_tensor {a b c : Adjoint} {spec : TensorSpec} (ha : a.type = .tensor spec)
    (hb : b.type = .tensor spec) (h : a.add b = .ok c) {v w : Value K}
    (hv : a.Denotes r custom env v) (hw : b.Denotes r custom env w) :
    ∃ u, c.Denotes r custom env u ∧ c.type = .tensor spec ∧
      ∀ t, t.Fits (.tensor spec) → u.inner t = v.inner t + w.inner t := by
  rcases add_cases ha hb h with ⟨rfl, rfl⟩ | ⟨rfl, rfl⟩ | rfl
  · exact ⟨w, hw, hb, fun t _ => by rw [hv.inner_of_isZero rfl, zero_add]⟩
  · exact ⟨v, hv, ha, fun t _ => by rw [hw.inner_of_isZero rfl, add_zero]⟩
  · obtain ⟨s, rfl, hs⟩ := hv.exists_tensor ha
    obtain ⟨t, rfl, ht⟩ := hw.exists_tensor hb
    refine ⟨.tensor (s.plus t), hv.call_add hw hs ht, rfl, fun d hd => ?_⟩
    obtain ⟨d, rfl, hd⟩ := hd.tensor_inv
    exact Tensor.inner_plus hs ht hd

mutual

/-- **A sum of adjoints** has against any tangent what its summands have together. -/
theorem Denotes.exists_add (a b : Adjoint) {c : Adjoint} (hty : b.type = a.type)
    (h : a.add b = .ok c) {v w : Value K} (hv : a.Denotes r custom env v)
    (hw : b.Denotes r custom env w) :
    ∃ u, c.Denotes r custom env u ∧ c.type = a.type ∧
      ∀ t, t.Fits a.type → u.inner t = v.inner t + w.inner t := by
  cases a with
  | leaf x spec => exact exists_add_tensor rfl hty h hv hw
  | call op args spec => exact exists_add_tensor rfl hty h hv hw
  | zeros spec => exact exists_add_tensor rfl hty h hv hw
  | tuple as =>
    cases b with
    | leaf x spec => cases hty
    | call op args spec => cases hty
    | zeros spec => cases hty
    | tuple bs =>
      obtain ⟨vs, hvs, rfl⟩ := denotes_tuple_iff.mp hv
      obtain ⟨ws, hws, rfl⟩ := denotes_tuple_iff.mp hw
      rw [add] at h
      split at h
      · obtain ⟨cs, hcs, rfl⟩ := map_eq_ok_iff.mp h
        obtain ⟨us, hus, hcty, hinner⟩ :=
          DenoteAll.exists_addAll as bs (ValueType.tuple.inj hty) hcs hvs hws
        refine ⟨.tuple us, denotes_tuple_iff.mpr ⟨us, hus, rfl⟩, congrArg ValueType.tuple hcty,
          fun t ht => ?_⟩
        cases t with
        | tensor t => exact ht.elim
        | tuple ts => exact hinner ts ht
      · simp at h

theorem DenoteAll.exists_addAll (as bs : List Adjoint) {cs : List Adjoint}
    (hty : types bs = types as) (h : addAll as bs = .ok cs) {vs ws : List (Value K)}
    (hvs : DenoteAll r custom env as vs) (hws : DenoteAll r custom env bs ws) :
    ∃ us, DenoteAll r custom env cs us ∧ types cs = types as ∧
      ∀ ts, Value.FitAll ts (types as) →
        Value.innerAll us ts = Value.innerAll vs ts + Value.innerAll ws ts := by
  cases as with
  | nil =>
    cases bs with
    | cons b bs => cases hty
    | nil =>
      cases h
      obtain ⟨heval, _⟩ := hvs
      obtain ⟨heval', _⟩ := hws
      cases heval
      cases heval'
      refine ⟨[], ⟨rfl, trivial⟩, rfl, fun ts _ => ?_⟩
      rw [Value.innerAll, add_zero]
  | cons a as =>
    cases bs with
    | nil => cases hty
    | cons b bs =>
      obtain ⟨hab, hrest⟩ := List.cons.inj hty
      obtain ⟨v, vs', hv, hvs', rfl⟩ := denoteAll_cons_iff.mp hvs
      obtain ⟨w, ws', hw, hws', rfl⟩ := denoteAll_cons_iff.mp hws
      rw [addAll] at h
      obtain ⟨c, hc, h⟩ := bind_eq_ok_iff.mp h
      obtain ⟨cs', hcs, h⟩ := bind_eq_ok_iff.mp h
      cases h
      obtain ⟨u, hu, hct, hinner⟩ := Denotes.exists_add a b hab hc hv hw
      obtain ⟨us, hus, hcts, hinners⟩ := DenoteAll.exists_addAll as bs hrest hcs hvs' hws'
      refine ⟨u :: us, denoteAll_cons_iff.mpr ⟨u, us, hu, hus, rfl⟩, ?_, fun ts hts => ?_⟩
      · rw [types, types, hct, hcts]
      · cases ts with
        | nil => exact hts.elim
        | cons t ts =>
          rw [Value.innerAll, Value.innerAll, Value.innerAll, hinner t hts.1, hinners ts hts.2]
          ring

end

/-- **A component of a tuple** of adjoints denotes a value, and putting another in its place
changes what the tuple has against a tangent by what the component has. -/
theorem DenoteAll.exists_component {as : List Adjoint} {vs ws : List (Value K)} {index : Nat}
    {a : Adjoint} {w : Value K} (hvs : DenoteAll r custom env as vs)
    (hws : Value.FitAll ws (types as)) (ha : as[index]? = some a) (hw : ws[index]? = some w) :
    ∃ v, a.Denotes r custom env v ∧ w.Fits a.type ∧
      ∀ c u, c.Denotes r custom env u → ∃ us, DenoteAll r custom env (as.set index c) us ∧
        Value.innerAll us ws = Value.innerAll vs ws + (u.inner w - v.inner w) := by
  induction as generalizing vs ws index with
  | nil => simp at ha
  | cons b as ih =>
    obtain ⟨v', vs', hv', hvs', rfl⟩ := denoteAll_cons_iff.mp hvs
    cases ws with
    | nil => simp at hw
    | cons w' ws =>
      cases index with
      | zero =>
        cases ha
        cases hw
        refine ⟨v', hv', hws.1, fun c u hu => ?_⟩
        refine ⟨u :: vs', denoteAll_cons_iff.mpr ⟨u, vs', hu, hvs', rfl⟩, ?_⟩
        rw [Value.innerAll, Value.innerAll]
        ring
      | succ index =>
        obtain ⟨v, hv, hfit, hset⟩ := ih hvs' hws.2 ha hw
        refine ⟨v, hv, hfit, fun c u hu => ?_⟩
        obtain ⟨us, hus, hinner⟩ := hset c u hu
        refine ⟨v' :: us, denoteAll_cons_iff.mpr ⟨v', us, hv', hus, rfl⟩, ?_⟩
        rw [Value.innerAll, Value.innerAll, hinner]
        ring

/-- **What is added at a place** counts against what the tangent has there. -/
theorem Denotes.exists_addInto {a b c : Adjoint} {place : List Nat} (h : a.addInto place b = .ok c)
    {v w whole part : Value K} (hv : a.Denotes r custom env v) (hw : b.Denotes r custom env w)
    (hwhole : whole.Fits a.type) (hpart : part.Fits b.type) (hlies : whole.Lies place part) :
    ∃ u, c.Denotes r custom env u ∧ u.inner whole = v.inner whole + w.inner part := by
  cases place with
  | nil =>
    cases hlies
    obtain ⟨u, hu, _, hinner⟩ :=
      Denotes.exists_add a b (hpart.unique _ hwhole) h hv hw
    exact ⟨u, hu, hinner _ hwhole⟩
  | cons index place =>
    rw [addInto] at h
    obtain ⟨as, current, sum, rfl, hcurrent, hsum, rfl⟩ := addAt_eq_ok_iff.mp h
    obtain ⟨vs, hvs, rfl⟩ := denotes_tuple_iff.mp hv
    obtain ⟨ws, rfl, hws⟩ := Value.Fits.tuple_inv hwhole
    obtain ⟨_, hsame, hcomponent⟩ := Value.component_eq_ok_iff.mp hlies
    cases hsame
    obtain ⟨v, hv, hfit, hset⟩ :=
      hvs.exists_component (Value.fitAll_iff.mpr hws) hcurrent hcomponent
    obtain ⟨u, hu, hct, hinner⟩ :=
      Denotes.exists_add current b (hpart.unique _ hfit) hsum hv hw
    obtain ⟨us, hus, hinners⟩ := hset sum u hu
    refine ⟨.tuple us, denotes_tuple_iff.mpr ⟨us, hus, rfl⟩, ?_⟩
    show Value.innerAll us ws = Value.innerAll vs ws + _
    rw [hinners, hinner part hfit]
    ring

end Adjoint

end TensorGraph
