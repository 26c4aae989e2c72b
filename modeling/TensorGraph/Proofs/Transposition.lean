/-
# TensorGraph.Proofs.Transposition -- each rule transposes its operator

The tangent of an operator's result is linear in the tangents of its operands. What the
operands receive from an adjoint of the result has against their tangents, taken together,
what the adjoint has against the tangent of the result (`Adjoint.pairsTo_partials`). Broadcasting
reads along a map of places and a sum or a collapse adds along one, which transposes it
(`sum_collapse`); a transposition is undone by that of the inverse permutation, and a matrix
product turns into products with the other factor transposed.
-/
import Mathlib.Tactic.FieldSimp
import TensorGraph.Proofs.Pairing

namespace TensorGraph

variable {K : Type} [Field K]

/-! ## Sums over places -/

/-- **Adding along a map of places** transposes reading along it. -/
theorem sum_collapse {R : Type} [CommSemiring R] {m n : Nat} {σ : Nat → Nat}
    (h : ∀ i < n, σ i < m) (p t : Nat → R) :
    ∑ j ∈ Finset.range m, (∑ i ∈ Finset.range n, if σ i = j then p i else 0) * t j =
      ∑ i ∈ Finset.range n, p i * t (σ i) := by
  simp only [Finset.sum_mul]
  rw [Finset.sum_comm]
  refine Finset.sum_congr rfl fun i hi => ?_
  have hσ : σ i ∈ Finset.range m := Finset.mem_range.mpr (h i (Finset.mem_range.mp hi))
  simp only [ite_mul, zero_mul, Finset.sum_ite_eq, if_pos hσ]

/-- A sum over the places of a matrix, row by row. -/
theorem sum_matrix (m n : Nat) (f : Nat → K) :
    ∑ e ∈ Finset.range (m * n), f e =
      ∑ i ∈ Finset.range m, ∑ j ∈ Finset.range n, f (i * n + j) := by
  induction m with
  | zero => rw [Nat.zero_mul, Finset.sum_range_zero, Finset.sum_range_zero]
  | succ m ih => rw [Nat.succ_mul, Finset.sum_range_add, ih, Finset.sum_range_succ]

/-- **The two products of a matrix rule** have together what the adjoint has against the
tangent of the product. -/
theorem sum_matmul (m k n : Nat) (A X dX Y dY : Nat → Nat → K) :
    ∑ i ∈ Finset.range m, ∑ p ∈ Finset.range k,
          (∑ j ∈ Finset.range n, A i j * Y p j) * dX i p +
        ∑ p ∈ Finset.range k, ∑ j ∈ Finset.range n,
          (∑ i ∈ Finset.range m, X i p * A i j) * dY p j =
      ∑ i ∈ Finset.range m, ∑ j ∈ Finset.range n,
        A i j * ∑ p ∈ Finset.range k, (dX i p * Y p j + X i p * dY p j) := by
  have hleft : ∀ i, ∑ p ∈ Finset.range k, (∑ j ∈ Finset.range n, A i j * Y p j) * dX i p =
      ∑ j ∈ Finset.range n, A i j * ∑ p ∈ Finset.range k, dX i p * Y p j := by
    intro i
    simp only [Finset.sum_mul, Finset.mul_sum]
    rw [Finset.sum_comm]
    exact Finset.sum_congr rfl fun j _ => Finset.sum_congr rfl fun p _ => by ring
  have hright : ∑ p ∈ Finset.range k, ∑ j ∈ Finset.range n,
        (∑ i ∈ Finset.range m, X i p * A i j) * dY p j =
      ∑ i ∈ Finset.range m, ∑ j ∈ Finset.range n,
        A i j * ∑ p ∈ Finset.range k, X i p * dY p j := by
    simp only [Finset.sum_mul, Finset.mul_sum]
    rw [Finset.sum_comm]
    calc _ = ∑ j ∈ Finset.range n, ∑ i ∈ Finset.range m, ∑ p ∈ Finset.range k,
          X i p * A i j * dY p j := Finset.sum_congr rfl fun j _ => Finset.sum_comm
      _ = ∑ i ∈ Finset.range m, ∑ j ∈ Finset.range n, ∑ p ∈ Finset.range k,
          X i p * A i j * dY p j := Finset.sum_comm
      _ = _ := Finset.sum_congr rfl fun i _ => Finset.sum_congr rfl fun j _ =>
          Finset.sum_congr rfl fun p _ => by ring
  simp only [Finset.sum_add_distrib, mul_add, hleft, hright]

/-- **A transposition** is transposed by that of the inverse permutation. -/
theorem sum_transposed {perm dims : List Nat} (h : IsPermutation perm dims.length)
    (p t : Nat → K) :
    ∑ e ∈ Finset.range dims.prod,
        p (transposedPlace (permuted dims perm) (inversePermutation perm) e) * t e =
      ∑ i ∈ Finset.range (permuted dims perm).prod, p i * t (transposedPlace dims perm i) := by
  have h' := isPermutation_inverse h
  have hl := length_permuted h rfl
  have hprod := prod_permuted h rfl
  have hundo : ∀ e < dims.prod, transposedPlace dims perm
      (transposedPlace (permuted dims perm) (inversePermutation perm) e) = e := by
    intro e he
    exact transposedPlace_of_inverse h rfl he
  refine Finset.sum_nbij' (transposedPlace (permuted dims perm) (inversePermutation perm))
    (transposedPlace dims perm) ?_ ?_ ?_ ?_ ?_
  · intro e he
    have hpos := Nat.zero_lt_of_lt (Finset.mem_range.mp he)
    exact Finset.mem_range.mpr (coordinates_transposedPlace h' hl (hprod.symm ▸ hpos) e).1
  · intro i hi
    have hpos := Nat.zero_lt_of_lt (Finset.mem_range.mp hi)
    exact Finset.mem_range.mpr (coordinates_transposedPlace h rfl (hprod ▸ hpos) i).1
  · exact fun e he => hundo e (Finset.mem_range.mp he)
  · exact fun i hi => transposedPlace_inverse h rfl (Finset.mem_range.mp hi)
  · intro e he
    rw [hundo e (Finset.mem_range.mp he)]

/-- Where the transposed matrix is read. -/
theorem transposedPlace_matrix {k n j p : Nat} (hj : j < n) (hp : p < k) :
    transposedPlace [k, n] [1, 0] (j * k + p) = p * n + j := by
  obtain ⟨_, hdiv, hmod⟩ := matrix_place hj hp
  have hjn : j % n = j := Nat.mod_eq_of_lt hj
  simp [transposedPlace, permuted, strides, coordinates, dot, hdiv, hmod, hjn]
  omega

namespace Kernel

/-- Where addition is that of a monoid, the order of a sum does not matter. -/
theorem total_eq_sum {R : Type} [AddCommMonoid R] {ar : Arithmetic R} (hzero : ar.zero = 0)
    (hadd : ∀ a b, ar.add a b = a + b) (xs : List R) : total ar xs = xs.sum := by
  have hop : ar.add = fun a b => a + b := funext fun a => funext (hadd a)
  rw [total, hop, hzero]
  exact List.sum_eq_foldl.symm

theorem total_exact (r : Reading K) (xs : List K) : total (.exact r) xs = xs.sum :=
  total_eq_sum rfl (fun _ _ => rfl) xs

/-- The tangent of a sum is the sum of the tangents. -/
theorem snd_total (r : Reading K) (xs : List (K × K)) :
    (total (.dual r) xs).2 = (xs.map Prod.snd).sum := by
  have hfold : ∀ (xs : List (K × K)) (a : K × K),
      (xs.foldl (Arithmetic.dual r).add a).2 = a.2 + (xs.map Prod.snd).sum := by
    intro xs
    induction xs with
    | nil => simp
    | cons x xs ih =>
      intro a
      rw [List.foldl_cons, ih, List.map_cons, List.sum_cons, ← add_assoc]
      rfl
  rw [total, hfold]
  exact zero_add _

theorem sum_fiber {R : Type} [AddCommMonoid R] (data : Array R) (σ : Nat → Nat) (slot count : Nat) :
    (fiber data σ slot 0 count).sum =
      ∑ i ∈ Finset.range count, if σ i = slot then data.getD i 0 else 0 := by
  induction count with
  | zero => rfl
  | succ count ih =>
    rw [fiber_succ, List.sum_append, ih, Finset.sum_range_succ]
    split
    · rw [List.sum_singleton]
    · rw [List.sum_nil]

/-- The tangents of the elements of a slot. -/
theorem snd_total_fiber (r : Reading K) (t : Tensor (K × K)) (σ : Nat → Nat)
    (slot count : Nat) :
    (total (.dual r) (fiber t.data σ slot (0, 0) count)).2 =
      ∑ i ∈ Finset.range count, if σ i = slot then (t.map Prod.snd).data.getD i 0 else 0 := by
  rw [snd_total, fiber_map, sum_fiber]

end Kernel

/-! ## Adjoints that are tensors -/

namespace Adjoint

open Tensor (fits_tabulate)

/-- **`Yields`** -- in exact arithmetic an adjoint has a tensor as its value. -/
def Yields (r : Reading K) (custom : CustomKernels K) (env : Env K) (a : Adjoint)
    (t : Tensor K) : Prop :=
  a.eval (.exact r) custom env = .ok (.tensor t)

/-- **`PairsTo`** -- what operands receive has against their tangents, taken together. -/
inductive PairsTo (r : Reading K) (custom : CustomKernels K) (env : Env K) :
    List (Option Adjoint) → List (Tensor (K × K)) → List TensorSpec → K → Prop
  | nil : PairsTo r custom env [] [] [] 0
  | none {fits : List (Option Adjoint)} {ts : List (Tensor (K × K))} {specs : List TensorSpec}
      {t : Tensor (K × K)} {s : TensorSpec} {k : K} (tail : PairsTo r custom env fits ts specs k) :
      PairsTo r custom env (.none :: fits) (t :: ts) (s :: specs) k
  | some {fits : List (Option Adjoint)} {ts : List (Tensor (K × K))} {specs : List TensorSpec}
      {a : Adjoint} {p : Tensor K} {t : Tensor (K × K)} {s : TensorSpec} {k : K}
      (head : a.Yields r custom env p) (hfits : p.Fits s)
      (tail : PairsTo r custom env fits ts specs k) :
      PairsTo r custom env (.some a :: fits) (t :: ts) (s :: specs)
        (p.inner (t.map Prod.snd) + k)

variable {r : Reading K} {custom : CustomKernels K} {env : Env K} {a x y p q : Adjoint}
  {A P Q X Y : Tensor K} {sx sy out : TensorSpec}

theorem pairsTo_one {T : Tensor (K × K)} {k : K} (hp : p.Yields r custom env P) (hP : P.Fits sx)
    (hk : P.inner (T.map Prod.snd) = k) : PairsTo r custom env [.some p] [T] [sx] k := by
  have h := PairsTo.some (t := T) hp hP .nil
  rwa [add_zero, hk] at h

theorem pairsTo_two {T U : Tensor (K × K)} {k : K} (hp : p.Yields r custom env P)
    (hP : P.Fits sx) (hq : q.Yields r custom env Q) (hQ : Q.Fits sy)
    (hk : P.inner (T.map Prod.snd) + Q.inner (U.map Prod.snd) = k) :
    PairsTo r custom env [.some p, .some q] [T, U] [sx, sy] k := by
  have h := PairsTo.some (t := T) hp hP (.some (t := U) hq hQ .nil)
  rwa [add_zero, hk] at h

/-! ## Operators applied to adjoints -/

theorem yields_unary {op : Operation} {f : K → K}
    (hop : ∀ ts, Kernel.run (.exact r) custom op ts out = Kernel.unary f ts out)
    (hx : x.Yields r custom env X) (hX : X.Fits out) :
    (call op [x] out).Yields r custom env
      ⟨out, tabulate out.elementCount fun i => f (X.data.getD i 0)⟩ :=
  eval_call_eq_ok (evalAll_singleton hx) ((hop _).trans (Kernel.unary_eq_ok f hX 0))

theorem yields_binary {op : Operation} {f : K → K → K}
    (hop : ∀ ts, Kernel.run (.exact r) custom op ts out = Kernel.binary f ts out)
    (hx : x.Yields r custom env X) (hX : X.Fits sx) (hy : y.Yields r custom env Y)
    (hY : Y.Fits sy) (hsx : Stretches sx.shape.dims out.shape.dims)
    (hsy : Stretches sy.shape.dims out.shape.dims) :
    (call op [x, y] out).Yields r custom env ⟨out, tabulate out.elementCount fun i =>
      f (X.data.getD (sourcePlace sx.shape.dims out.shape.dims i) 0)
        (Y.data.getD (sourcePlace sy.shape.dims out.shape.dims i) 0)⟩ :=
  eval_call_eq_ok (evalAll_pair hx hy) ((hop _).trans (Kernel.binary_eq_ok f hX hY hsx hsy 0))

/-- With a first operand of the spec of the result. -/
theorem yields_binary_left {op : Operation} {f : K → K → K}
    (hop : ∀ ts, Kernel.run (.exact r) custom op ts out = Kernel.binary f ts out)
    (ha : a.Yields r custom env A) (hA : A.Fits out) (hy : y.Yields r custom env Y)
    (hY : Y.Fits sy) (hsy : Stretches sy.shape.dims out.shape.dims) :
    (call op [a, y] out).Yields r custom env ⟨out, tabulate out.elementCount fun i =>
      f (A.data.getD i 0) (Y.data.getD (sourcePlace sy.shape.dims out.shape.dims i) 0)⟩ := by
  have h := yields_binary hop ha hA hy hY (stretches_self _) hsy
  have he : ∀ i < out.elementCount,
      f (A.data.getD (sourcePlace out.shape.dims out.shape.dims i) 0)
          (Y.data.getD (sourcePlace sy.shape.dims out.shape.dims i) 0) =
        f (A.data.getD i 0) (Y.data.getD (sourcePlace sy.shape.dims out.shape.dims i) 0) := by
    intro i hi
    rw [sourcePlace_self hi]
  rwa [tabulate_congr he] at h

/-- With both operands of the spec of the result. -/
theorem yields_binary_both {op : Operation} {f : K → K → K}
    (hop : ∀ ts, Kernel.run (.exact r) custom op ts out = Kernel.binary f ts out)
    (ha : a.Yields r custom env A) (hA : A.Fits out) (hx : x.Yields r custom env X)
    (hX : X.Fits out) :
    (call op [a, x] out).Yields r custom env ⟨out, tabulate out.elementCount fun i =>
      f (A.data.getD i 0) (X.data.getD i 0)⟩ := by
  have h := yields_binary_left hop ha hA hx hX (stretches_self _)
  have he : ∀ i < out.elementCount,
      f (A.data.getD i 0) (X.data.getD (sourcePlace out.shape.dims out.shape.dims i) 0) =
        f (A.data.getD i 0) (X.data.getD i 0) := by
    intro i hi
    rw [sourcePlace_self hi]
  rwa [tabulate_congr he] at h

/-! ## Stretching and collapsing -/

/-- **A fitted partial** has against a tangent of the operand what the partial has against the
tangent stretched. -/
theorem exists_yields_fitted (hp : p.Yields r custom env P) (hP : P.Fits out)
    (hx : x.Yields r custom env X) (hs : Stretches sx.shape.dims out.shape.dims) :
    ∃ Q, (SweepContext.fitted out sx p x).Yields r custom env Q ∧ Q.Fits sx ∧
      ∀ T : Tensor K, T.Fits sx → Q.inner T = ∑ i ∈ Finset.range out.elementCount,
        P.data.getD i 0 * T.data.getD (sourcePlace sx.shape.dims out.shape.dims i) 0 := by
  rw [SweepContext.fitted]
  split
  · next he =>
    subst he
    refine ⟨P, hp, hP, fun T hT => ?_⟩
    rw [Tensor.inner_eq_sum hP hT]
    refine Finset.sum_congr rfl fun i hi => ?_
    rw [sourcePlace_self (Finset.mem_range.mp hi)]
  · have hrun := Kernel.collapseSumLike_eq_ok (.exact r) (y := X) hP hs 0
    refine ⟨_, eval_call_eq_ok (evalAll_pair hp hx) hrun, fits_tabulate _ rfl, fun T hT => ?_⟩
    have hbound : ∀ i < out.elementCount,
        sourcePlace sx.shape.dims out.shape.dims i < sx.elementCount := fun i hi =>
      sourcePlace_lt hs (Nat.zero_lt_of_lt hi) i
    rw [Tensor.inner_eq_sum (fits_tabulate _ rfl) hT]
    refine Eq.trans ?_ (sum_collapse hbound (fun i => P.data.getD i 0) fun j => T.data.getD j 0)
    refine Finset.sum_congr rfl fun j hj => ?_
    rw [getD_tabulate _ (Finset.mem_range.mp hj), Kernel.total_exact, Kernel.sum_fiber, hP.2]

/-- An adjoint stretched by a product with ones is read along the map of places. -/
theorem yields_stretched {s : TensorSpec} (ha : a.Yields r custom env A) (hA : A.Fits s)
    (hx : x.Yields r custom env X) (hs : Stretches s.shape.dims sx.shape.dims) :
    (call .multiply [a, .call .onesLike [x] sx] sx).Yields r custom env
      ⟨sx, tabulate sx.elementCount fun i =>
        A.data.getD (sourcePlace s.shape.dims sx.shape.dims i) 0⟩ := by
  have hones : (call .onesLike [x] sx).Yields r custom env
      ⟨sx, tabulate sx.elementCount fun _ => 1⟩ :=
    eval_call_eq_ok (evalAll_singleton hx) (Kernel.constantLike_eq_ok (1 : K) X sx)
  have hrun : ∀ ts, Kernel.run (.exact r) custom .multiply ts sx =
      Kernel.binary (fun u v : K => u * v) ts sx := fun _ => rfl
  have h := yields_binary hrun ha hA hones (fits_tabulate _ rfl) hs (stretches_self _)
  have he : ∀ i < sx.elementCount,
      A.data.getD (sourcePlace s.shape.dims sx.shape.dims i) 0 *
          (tabulate sx.elementCount fun _ => (1 : K)).getD
            (sourcePlace sx.shape.dims sx.shape.dims i) 0 =
        A.data.getD (sourcePlace s.shape.dims sx.shape.dims i) 0 := by
    intro i hi
    rw [sourcePlace_self hi, getD_tabulate _ hi, mul_one]
  rwa [tabulate_congr he] at h

/-! ## The rules against the kernels -/

theorem getD_fst (T : Tensor (K × K)) (i : Nat) :
    (T.map Prod.fst).data.getD i 0 = (T.data.getD i (0, 0)).1 :=
  Tensor.getD_map Prod.fst T i (0, 0)

theorem getD_snd (T : Tensor (K × K)) (i : Nat) :
    (T.map Prod.snd).data.getD i 0 = (T.data.getD i (0, 0)).2 :=
  Tensor.getD_map Prod.snd T i (0, 0)

section Rules

variable {T U R : Tensor (K × K)}

/-- **An operator on single elements**: its partial counts against the tangent of the operand
what the adjoint counts against that of the result. -/
theorem pairsTo_unary {f : K × K → K × K} (hT : T.Fits out)
    (hrun : Kernel.unary f [T] out = .ok R) (hA : A.Fits out) (hp : p.Yields r custom env P)
    (hP : P.Fits out)
    (hrule : ∀ i < out.elementCount, P.data.getD i 0 * (T.data.getD i (0, 0)).2 =
      A.data.getD i 0 * (f (T.data.getD i (0, 0))).2) :
    PairsTo r custom env [.some p] [T] [out] (A.inner (R.map Prod.snd)) := by
  cases Except.ok.inj ((Kernel.unary_eq_ok f hT (0, 0)).symm.trans hrun)
  refine pairsTo_one hp hP ?_
  rw [Tensor.inner_eq_sum hP (hT.map Prod.snd), Tensor.map_tabulate,
    Tensor.inner_eq_sum hA (fits_tabulate _ rfl)]
  refine Finset.sum_congr rfl fun i hi => ?_
  have hi := Finset.mem_range.mp hi
  rw [getD_tabulate _ hi, getD_snd]
  exact hrule i hi

/-- **An operator on pairs of elements**, with its partials collapsed to stretched operands. -/
theorem pairsTo_binary {f : K × K → K × K → K × K} (hT : T.Fits sx) (hU : U.Fits sy)
    (hsx : Stretches sx.shape.dims out.shape.dims) (hsy : Stretches sy.shape.dims out.shape.dims)
    (hrun : Kernel.binary f [T, U] out = .ok R) (hA : A.Fits out)
    (hx : x.Yields r custom env X) (hy : y.Yields r custom env Y) (hp : p.Yields r custom env P)
    (hP : P.Fits out) (hq : q.Yields r custom env Q) (hQ : Q.Fits out)
    (hrule : ∀ i < out.elementCount,
      P.data.getD i 0 * (T.data.getD (sourcePlace sx.shape.dims out.shape.dims i) (0, 0)).2 +
          Q.data.getD i 0 * (U.data.getD (sourcePlace sy.shape.dims out.shape.dims i) (0, 0)).2 =
        A.data.getD i 0 * (f (T.data.getD (sourcePlace sx.shape.dims out.shape.dims i) (0, 0))
          (U.data.getD (sourcePlace sy.shape.dims out.shape.dims i) (0, 0))).2) :
    PairsTo r custom env
      [.some (SweepContext.fitted out sx p x), .some (SweepContext.fitted out sy q y)] [T, U]
      [sx, sy] (A.inner (R.map Prod.snd)) := by
  cases Except.ok.inj ((Kernel.binary_eq_ok f hT hU hsx hsy (0, 0)).symm.trans hrun)
  obtain ⟨P', hp', hP', hleft⟩ := exists_yields_fitted hp hP hx hsx
  obtain ⟨Q', hq', hQ', hright⟩ := exists_yields_fitted hq hQ hy hsy
  refine pairsTo_two hp' hP' hq' hQ' ?_
  rw [hleft _ (hT.map Prod.snd), hright _ (hU.map Prod.snd), ← Finset.sum_add_distrib,
    Tensor.map_tabulate, Tensor.inner_eq_sum hA (fits_tabulate _ rfl)]
  refine Finset.sum_congr rfl fun i hi => ?_
  have hi := Finset.mem_range.mp hi
  rw [getD_tabulate _ hi, getD_snd, getD_snd]
  exact hrule i hi

/-- **An operator that adds along a map of places**: what reads the adjoint along the map has
against the tangent of the operand what the adjoint has against that of the result. -/
theorem inner_collapsed {σ : Nat → Nat} (hσ : ∀ i < sx.elementCount, σ i < out.elementCount)
    (hT : T.Fits sx) (hA : A.Fits out) (hP : P.Fits sx)
    (hread : ∀ i < sx.elementCount, P.data.getD i 0 = A.data.getD (σ i) 0) :
    P.inner (T.map Prod.snd) = A.inner (Tensor.map Prod.snd ⟨out, tabulate out.elementCount
      fun j => Kernel.total (.dual r) (Kernel.fiber T.data σ j (0, 0) T.data.size)⟩) := by
  rw [Tensor.inner_eq_sum hP (hT.map Prod.snd), Tensor.map_tabulate,
    Tensor.inner_eq_sum hA (fits_tabulate _ rfl)]
  have h := sum_collapse hσ (fun i => (T.map Prod.snd).data.getD i 0) fun j => A.data.getD j 0
  calc _ = ∑ i ∈ Finset.range sx.elementCount,
        (T.map Prod.snd).data.getD i 0 * A.data.getD (σ i) 0 := by
        refine Finset.sum_congr rfl fun i hi => ?_
        rw [hread i (Finset.mem_range.mp hi), mul_comm]
    _ = _ := h.symm
    _ = _ := by
        refine Finset.sum_congr rfl fun j hj => ?_
        rw [getD_tabulate _ (Finset.mem_range.mp hj), Kernel.snd_total_fiber, hT.2, mul_comm]

/-- The adjoint of a sum, with its reduced axes back, is read where the sum adds. -/
theorem exists_yields_kept {axes : Option (List Nat)} {keepdims : Bool}
    (hout : out = ⟨sx.dtype, ⟨reducedDims axes keepdims sx.shape.dims⟩⟩)
    (ha : a.Yields r custom env A) (hA : A.Fits out) :
    ∃ B s, (GradientRule.keptAdjoint axes sx out a).1.Yields r custom env B ∧ B.Fits s ∧
      Stretches s.shape.dims sx.shape.dims ∧
      ∀ i < sx.elementCount, B.data.getD (sourcePlace s.shape.dims sx.shape.dims i) 0 =
        A.data.getD (sourcePlace (keptDims axes sx.shape.dims) sx.shape.dims i) 0 := by
  have hcount : out.elementCount = (keptDims axes sx.shape.dims).prod := by
    rw [hout]
    exact TensorSpec.elementCount_reduced _ axes keepdims sx.shape.dims
  have hstretch := Kernel.stretches_keptDims axes sx.shape.dims
  rw [GradientRule.keptAdjoint]
  split
  · have hsize : A.data.size =
        (TensorSpec.mk out.dtype ⟨keptDims axes sx.shape.dims⟩).elementCount := hA.2.trans hcount
    refine ⟨_, ⟨out.dtype, ⟨keptDims axes sx.shape.dims⟩⟩,
      eval_call_eq_ok (evalAll_singleton ha) (Kernel.reshape_eq_ok hsize), ⟨rfl, hsize⟩, hstretch,
      fun i _ => rfl⟩
  · next hrank =>
    refine ⟨A, out, ha, hA, ?_⟩
    by_cases h0 : out.shape.dims.length = 0
    · -- everything was added up: both maps send every place to the only one
      have hnil := List.length_eq_zero_iff.mp h0
      have hone : (keptDims axes sx.shape.dims).prod = 1 := by
        rw [← hcount, TensorSpec.elementCount, Shape.elementCount, hnil, List.prod_nil]
      rw [hnil]
      refine ⟨GradientRule.stretches_nil _, fun i hi => ?_⟩
      have hlt := sourcePlace_lt hstretch (Nat.zero_lt_of_lt hi) i
      rw [sourcePlace_scalar, show sourcePlace (keptDims axes sx.shape.dims) sx.shape.dims i = 0 by
        omega]
    · have hsame : out.shape.dims = keptDims axes sx.shape.dims := by
        rw [hout] at hrank h0 ⊢
        refine Kernel.reducedDims_eq_keptDims ?_
        by_contra hne
        exact hrank ⟨h0, hne⟩
      rw [hsame]
      exact ⟨hstretch, fun i _ => rfl⟩

/-! ## Matrix products -/

theorem matrix_count (d : DType) (m n : Nat) :
    (TensorSpec.mk d ⟨[m, n]⟩).elementCount = m * n := TensorSpec.elementCount_matrix rfl

variable {d : DType} {m k n : Nat}

/-- A product of adjoints that are matrices. -/
theorem exists_yields_matmul (hx : x.Yields r custom env X) (hX : X.Fits ⟨d, ⟨[m, k]⟩⟩)
    (hy : y.Yields r custom env Y) (hY : Y.Fits ⟨d, ⟨[k, n]⟩⟩) :
    ∃ P, (call .matmul [x, y] ⟨d, ⟨[m, n]⟩⟩).Yields r custom env P ∧ P.Fits ⟨d, ⟨[m, n]⟩⟩ ∧
      ∀ i < m, ∀ j < n, P.data.getD (i * n + j) 0 =
        ∑ p ∈ Finset.range k, X.data.getD (i * k + p) 0 * Y.data.getD (p * n + j) 0 := by
  have hrun := Kernel.matmul_eq_ok (.exact r) hX hY rfl rfl (matrix_count d m n) 0
  refine ⟨_, eval_call_eq_ok (evalAll_pair hx hy) hrun, fits_tabulate _ rfl, ?_⟩
  intro i hi j hj
  obtain ⟨hlt, hdiv, hmod⟩ := matrix_place hi hj
  rw [getD_tabulate _ (by rwa [matrix_count]), hdiv, hmod, Kernel.total_exact,
    Kernel.matmulTerms, sum_map_range]
  rfl

/-- An adjoint that is a matrix, transposed. -/
theorem exists_yields_flipped (hy : y.Yields r custom env Y) (hY : Y.Fits ⟨d, ⟨[k, n]⟩⟩) :
    ∃ P, (call (.transpose [1, 0]) [y] ⟨d, ⟨[n, k]⟩⟩).Yields r custom env P ∧
      P.Fits ⟨d, ⟨[n, k]⟩⟩ ∧
      ∀ j < n, ∀ p < k, P.data.getD (j * k + p) 0 = Y.data.getD (p * n + j) 0 := by
  have hperm : IsPermutation [1, 0] 2 := by decide
  have hrun : Kernel.transpose [1, 0] [Y] ⟨d, ⟨[n, k]⟩⟩ = _ :=
    Kernel.transpose_eq_ok hY hperm rfl 0
  refine ⟨_, eval_call_eq_ok (evalAll_singleton hy) hrun, fits_tabulate _ rfl, ?_⟩
  intro j hj p hp
  rw [getD_tabulate _ (by rw [matrix_count]; exact (matrix_place hj hp).1),
    transposedPlace_matrix hj hp]

/-- **A matrix product**: the adjoint times the other factor transposed, on either side. -/
theorem pairsTo_matmul {e : DType} (hT : T.Fits ⟨d, ⟨[m, k]⟩⟩) (hU : U.Fits ⟨e, ⟨[k, n]⟩⟩)
    (hde : d = e) (hrun : Kernel.matmul (.dual r) [T, U] ⟨d, ⟨[m, n]⟩⟩ = .ok R)
    (hx : x.Yields r custom env (T.map Prod.fst)) (hy : y.Yields r custom env (U.map Prod.fst))
    (ha : a.Yields r custom env A) (hA : A.Fits ⟨d, ⟨[m, n]⟩⟩) :
    PairsTo r custom env
      [.some (.call .matmul [a, .call (.transpose [1, 0]) [y] ⟨d, ⟨[n, k]⟩⟩] ⟨d, ⟨[m, k]⟩⟩),
        .some (.call .matmul [.call (.transpose [1, 0]) [x] ⟨d, ⟨[k, m]⟩⟩, a] ⟨d, ⟨[k, n]⟩⟩)]
      [T, U] [⟨d, ⟨[m, k]⟩⟩, ⟨e, ⟨[k, n]⟩⟩] (A.inner (R.map Prod.snd)) := by
  subst hde
  cases Except.ok.inj ((Kernel.matmul_eq_ok (.dual r) hT hU rfl rfl (matrix_count d m n)
    (0, 0)).symm.trans hrun)
  obtain ⟨YT, hyT, hYT, hreadY⟩ := exists_yields_flipped hy (hU.map Prod.fst)
  obtain ⟨XT, hxT, hXT, hreadX⟩ := exists_yields_flipped hx (hT.map Prod.fst)
  obtain ⟨P, hp, hP, hentryP⟩ := exists_yields_matmul ha hA hyT hYT
  obtain ⟨Q, hq, hQ, hentryQ⟩ := exists_yields_matmul hxT hXT ha hA
  refine pairsTo_two hp hP hq hQ ?_
  rw [Tensor.inner_eq_sum hP (hT.map Prod.snd), Tensor.inner_eq_sum hQ (hU.map Prod.snd),
    Tensor.map_tabulate, Tensor.inner_eq_sum hA (fits_tabulate _ rfl), matrix_count, matrix_count,
    matrix_count, sum_matrix, sum_matrix, sum_matrix]
  have h := sum_matmul m k n (fun i j => A.data.getD (i * n + j) 0)
    (fun i p => (T.data.getD (i * k + p) (0, 0)).1) (fun i p => (T.data.getD (i * k + p) (0, 0)).2)
    (fun p j => (U.data.getD (p * n + j) (0, 0)).1) fun p j => (U.data.getD (p * n + j) (0, 0)).2
  refine Eq.trans (congrArg₂ (· + ·) ?_ ?_) (h.trans ?_)
  · refine Finset.sum_congr rfl fun i hi => Finset.sum_congr rfl fun p hp => ?_
    have hi := Finset.mem_range.mp hi
    have hp := Finset.mem_range.mp hp
    rw [hentryP i hi p hp, getD_snd]
    congr 1
    refine Finset.sum_congr rfl fun j hj => ?_
    rw [hreadY j (Finset.mem_range.mp hj) p hp, getD_fst]
  · refine Finset.sum_congr rfl fun p hp => Finset.sum_congr rfl fun j hj => ?_
    have hp := Finset.mem_range.mp hp
    have hj := Finset.mem_range.mp hj
    rw [hentryQ p hp j hj, getD_snd]
    congr 1
    refine Finset.sum_congr rfl fun i hi => ?_
    rw [hreadX p hp i (Finset.mem_range.mp hi), getD_fst]
  · refine Finset.sum_congr rfl fun i hi => Finset.sum_congr rfl fun j hj => ?_
    obtain ⟨hlt, hdiv, hmod⟩ := matrix_place (Finset.mem_range.mp hi) (Finset.mem_range.mp hj)
    rw [getD_tabulate _ hlt, hdiv, hmod, Kernel.snd_total, Kernel.matmulTerms, List.map_map,
      sum_map_range]
    rfl

/-- **A transposition** is undone by that of the inverse permutation. -/
theorem pairsTo_transpose {perm : List Nat} (hperm : IsPermutation perm sx.shape.rank)
    (hT : T.Fits sx)
    (hrun : Kernel.transpose perm [T] ⟨sx.dtype, ⟨permuted sx.shape.dims perm⟩⟩ = .ok R)
    (ha : a.Yields r custom env A) (hA : A.Fits ⟨sx.dtype, ⟨permuted sx.shape.dims perm⟩⟩) :
    PairsTo r custom env [.some (.call (.transpose (inversePermutation perm)) [a] sx)] [T] [sx]
      (A.inner (R.map Prod.snd)) := by
  have hback := permuted_permuted_inverse hperm rfl
  have hinverse : IsPermutation (inversePermutation perm) (permuted sx.shape.dims perm).length := by
    rw [length_permuted hperm rfl]
    exact isPermutation_inverse hperm
  cases Except.ok.inj ((Kernel.transpose_eq_ok hT hperm rfl (0, 0)).symm.trans hrun)
  have hflip := Kernel.transpose_eq_ok hA hinverse hback.symm 0
  refine pairsTo_one (eval_call_eq_ok (evalAll_singleton ha) hflip) (fits_tabulate _ rfl) ?_
  rw [Tensor.inner_eq_sum (fits_tabulate _ rfl) (hT.map Prod.snd), Tensor.map_tabulate,
    Tensor.inner_eq_sum hA (fits_tabulate _ rfl)]
  have h := sum_transposed hperm (fun i => A.data.getD i 0)
    fun e => (T.data.getD e (0, 0)).2
  refine Eq.trans (Finset.sum_congr rfl fun e he => ?_)
    (h.trans (Finset.sum_congr rfl fun i hi => ?_))
  · rw [getD_tabulate _ (Finset.mem_range.mp he), getD_snd]
  · rw [getD_tabulate _ (Finset.mem_range.mp hi)]

/-- **A reshaping** leaves the elements in their order. -/
theorem pairsTo_reshape {dims : List Nat}
    (hcount : (TensorSpec.mk sx.dtype ⟨dims⟩).elementCount = sx.elementCount) (hT : T.Fits sx)
    (hrun : Kernel.reshape [T] ⟨sx.dtype, ⟨dims⟩⟩ = .ok R) (ha : a.Yields r custom env A)
    (hA : A.Fits ⟨sx.dtype, ⟨dims⟩⟩) :
    PairsTo r custom env [.some (.call (.reshape sx.shape.dims) [a] sx)] [T] [sx]
      (A.inner (R.map Prod.snd)) := by
  cases Except.ok.inj ((Kernel.reshape_eq_ok (hT.2.trans hcount.symm)).symm.trans hrun)
  have hsize : A.data.size = sx.elementCount := hA.2.trans hcount
  exact pairsTo_one (eval_call_eq_ok (evalAll_singleton ha) (Kernel.reshape_eq_ok hsize))
    ⟨rfl, hsize⟩ rfl

/-- **A sum**: the adjoint for both operands. -/
theorem pairsTo_add (hT : T.Fits sx) (hU : U.Fits sy)
    (hsx : Stretches sx.shape.dims out.shape.dims) (hsy : Stretches sy.shape.dims out.shape.dims)
    (hrun : Kernel.binary (Arithmetic.dual r).add [T, U] out = .ok R)
    (hx : x.Yields r custom env (T.map Prod.fst)) (hy : y.Yields r custom env (U.map Prod.fst))
    (ha : a.Yields r custom env A) (hA : A.Fits out) :
    PairsTo r custom env
      [.some (SweepContext.fitted out sx a x), .some (SweepContext.fitted out sy a y)]
      [T, U] [sx, sy] (A.inner (R.map Prod.snd)) :=
  pairsTo_binary hT hU hsx hsy hrun hA hx hy ha hA ha hA fun _ _ => (mul_add _ _ _).symm

/-- **A difference**: the adjoint, and its negative for what is taken off. -/
theorem pairsTo_subtract (hT : T.Fits sx) (hU : U.Fits sy)
    (hsx : Stretches sx.shape.dims out.shape.dims) (hsy : Stretches sy.shape.dims out.shape.dims)
    (hrun : Kernel.binary (Arithmetic.dual r).sub [T, U] out = .ok R)
    (hx : x.Yields r custom env (T.map Prod.fst)) (hy : y.Yields r custom env (U.map Prod.fst))
    (ha : a.Yields r custom env A) (hA : A.Fits out) :
    PairsTo r custom env
      [.some (SweepContext.fitted out sx a x),
        .some (SweepContext.fitted out sy (.call .negative [a] out) y)]
      [T, U] [sx, sy] (A.inner (R.map Prod.snd)) := by
  have hneg : (call .negative [a] out).Yields r custom env _ := yields_unary (fun _ => rfl) ha hA
  refine pairsTo_binary hT hU hsx hsy hrun hA hx hy ha hA hneg (fits_tabulate _ rfl)
    fun i hi => ?_
  rw [getD_tabulate _ hi]
  show _ * _ + -_ * _ = _ * (_ - _)
  ring

/-- **A negative**: the negative adjoint. -/
theorem pairsTo_negative (hT : T.Fits out)
    (hrun : Kernel.unary (Arithmetic.dual r).neg [T] out = .ok R)
    (ha : a.Yields r custom env A) (hA : A.Fits out) :
    PairsTo r custom env [.some (.call .negative [a] out)] [T] [out]
      (A.inner (R.map Prod.snd)) := by
  have hneg : (call .negative [a] out).Yields r custom env _ := yields_unary (fun _ => rfl) ha hA
  refine pairsTo_unary hT hrun hA hneg (fits_tabulate _ rfl) fun i hi => ?_
  rw [getD_tabulate _ hi]
  show -_ * _ = _ * -_
  ring

/-- **An exponential**: the adjoint times the result. -/
theorem pairsTo_exp {res : Adjoint} (hT : T.Fits out)
    (hrun : Kernel.unary (Arithmetic.dual r).exp [T] out = .ok R)
    (hres : res.Yields r custom env (R.map Prod.fst)) (ha : a.Yields r custom env A)
    (hA : A.Fits out) :
    PairsTo r custom env [.some (.call .multiply [a, res] out)] [T] [out]
      (A.inner (R.map Prod.snd)) := by
  cases Except.ok.inj ((Kernel.unary_eq_ok _ hT (0, 0)).symm.trans hrun)
  have hprod : (call .multiply [a, res] out).Yields r custom env _ :=
    yields_binary_both (fun _ => rfl) ha hA hres (Tensor.Fits.map (fits_tabulate _ rfl) _)
  refine pairsTo_unary hT hrun hA hprod (fits_tabulate _ rfl) fun i hi => ?_
  rw [getD_tabulate _ hi, getD_fst, getD_tabulate _ hi]
  exact mul_assoc _ _ _

/-- **A logarithm**: the adjoint over the operand. -/
theorem pairsTo_log (hT : T.Fits out)
    (hrun : Kernel.unary (Arithmetic.dual r).log [T] out = .ok R)
    (hx : x.Yields r custom env (T.map Prod.fst)) (ha : a.Yields r custom env A)
    (hA : A.Fits out) :
    PairsTo r custom env [.some (.call .divide [a, x] out)] [T] [out]
      (A.inner (R.map Prod.snd)) := by
  have hquot : (call .divide [a, x] out).Yields r custom env _ :=
    yields_binary_both (fun _ => rfl) ha hA hx (hT.map _)
  refine pairsTo_unary hT hrun hA hquot (fits_tabulate _ rfl) fun i hi => ?_
  rw [getD_tabulate _ hi, getD_fst]
  show _ / _ * _ = _ * (_ / _)
  ring

/-- What the partials of a quotient have together. The quotient by zero is zero, and so are
its partials. -/
theorem divide_rule (a t dt u du : K) :
    a / u * dt + -(a * (t / u) / u) * du = a * ((dt * u - t * du) / (u * u)) := by
  by_cases hu : u = 0
  · rw [hu]
    simp
  · field_simp
    ring

/-- **A product**: the adjoint times the other factor. -/
theorem pairsTo_multiply (hT : T.Fits sx) (hU : U.Fits sy)
    (hsx : Stretches sx.shape.dims out.shape.dims) (hsy : Stretches sy.shape.dims out.shape.dims)
    (hrun : Kernel.binary (Arithmetic.dual r).mul [T, U] out = .ok R)
    (hx : x.Yields r custom env (T.map Prod.fst)) (hy : y.Yields r custom env (U.map Prod.fst))
    (ha : a.Yields r custom env A) (hA : A.Fits out) :
    PairsTo r custom env
      [.some (SweepContext.fitted out sx (.call .multiply [a, y] out) x),
        .some (SweepContext.fitted out sy (.call .multiply [a, x] out) y)]
      [T, U] [sx, sy] (A.inner (R.map Prod.snd)) := by
  have hleft : (call .multiply [a, y] out).Yields r custom env _ :=
    yields_binary_left (fun _ => rfl) ha hA hy (hU.map _) hsy
  have hright : (call .multiply [a, x] out).Yields r custom env _ :=
    yields_binary_left (fun _ => rfl) ha hA hx (hT.map _) hsx
  refine pairsTo_binary hT hU hsx hsy hrun hA hx hy hleft (fits_tabulate _ rfl) hright
    (fits_tabulate _ rfl) fun i hi => ?_
  rw [getD_tabulate _ hi, getD_tabulate _ hi, getD_fst, getD_fst]
  show _ * _ * _ + _ * _ * _ = _ * (_ * _ + _ * _)
  ring

/-- **A quotient**: the adjoint over the divisor, and that times the quotient for the divisor. -/
theorem pairsTo_divide {res : Adjoint} (hT : T.Fits sx) (hU : U.Fits sy)
    (hsx : Stretches sx.shape.dims out.shape.dims) (hsy : Stretches sy.shape.dims out.shape.dims)
    (hrun : Kernel.binary (Arithmetic.dual r).div [T, U] out = .ok R)
    (hx : x.Yields r custom env (T.map Prod.fst)) (hy : y.Yields r custom env (U.map Prod.fst))
    (hres : res.Yields r custom env (R.map Prod.fst)) (ha : a.Yields r custom env A)
    (hA : A.Fits out) :
    PairsTo r custom env
      [.some (SweepContext.fitted out sx (.call .divide [a, y] out) x),
        .some (SweepContext.fitted out sy
          (.call .negative [.call .divide [.call .multiply [a, res] out, y] out] out) y)]
      [T, U] [sx, sy] (A.inner (R.map Prod.snd)) := by
  have hleft : (call .divide [a, y] out).Yields r custom env _ :=
    yields_binary_left (fun _ => rfl) ha hA hy (hU.map _) hsy
  have hRfits : R.Fits out := by
    cases Except.ok.inj ((Kernel.binary_eq_ok _ hT hU hsx hsy (0, 0)).symm.trans hrun)
    exact fits_tabulate _ rfl
  have hquotient : ∀ i < out.elementCount, (R.data.getD i (0, 0)).1 =
      (T.data.getD (sourcePlace sx.shape.dims out.shape.dims i) (0, 0)).1 /
        (U.data.getD (sourcePlace sy.shape.dims out.shape.dims i) (0, 0)).1 := by
    intro i hi
    cases Except.ok.inj ((Kernel.binary_eq_ok _ hT hU hsx hsy (0, 0)).symm.trans hrun)
    rw [getD_tabulate _ hi]
    rfl
  have hprod : (call .multiply [a, res] out).Yields r custom env _ :=
    yields_binary_both (fun _ => rfl) ha hA hres (hRfits.map _)
  have hquot : (call .divide [call .multiply [a, res] out, y] out).Yields r custom env _ :=
    yields_binary_left (fun _ => rfl) hprod (fits_tabulate _ rfl) hy (hU.map _) hsy
  have hneg : (call .negative [call .divide [call .multiply [a, res] out, y] out] out).Yields
      r custom env _ := yields_unary (fun _ => rfl) hquot (fits_tabulate _ rfl)
  refine pairsTo_binary hT hU hsx hsy hrun hA hx hy hleft (fits_tabulate _ rfl) hneg
    (fits_tabulate _ rfl) fun i hi => ?_
  rw [getD_tabulate _ hi, getD_tabulate _ hi, getD_tabulate _ hi, getD_tabulate _ hi, getD_fst,
    getD_fst, hquotient i hi]
  exact divide_rule _ _ _ _ _

/-- **A sum**: the adjoint, with its reduced axes back, stretched to the operand. -/
theorem pairsTo_sum {axes : Option (List Nat)} {keepdims : Bool}
    (hout : out = ⟨sx.dtype, ⟨reducedDims axes keepdims sx.shape.dims⟩⟩) (hT : T.Fits sx)
    (hrun : Kernel.sum (.dual r) axes [T] out = .ok R)
    (hx : x.Yields r custom env (T.map Prod.fst)) (ha : a.Yields r custom env A)
    (hA : A.Fits out) :
    PairsTo r custom env
      [.some (.call .multiply
        [(GradientRule.keptAdjoint axes sx out a).1, .call .onesLike [x] sx] sx)]
      [T] [sx] (A.inner (R.map Prod.snd)) := by
  have hcount : out.elementCount = (keptDims axes sx.shape.dims).prod := by
    rw [hout]
    exact TensorSpec.elementCount_reduced _ axes keepdims sx.shape.dims
  have hstretch := Kernel.stretches_keptDims axes sx.shape.dims
  obtain ⟨B, s, hb, hB, hs, hread⟩ := exists_yields_kept hout ha hA
  cases Except.ok.inj ((Kernel.sum_eq_ok _ axes hT hcount (0, 0)).symm.trans hrun)
  refine pairsTo_one (yields_stretched hb hB hx hs) (fits_tabulate _ rfl)
    (inner_collapsed (fun i hi => ?_) hT hA (fits_tabulate _ rfl) fun i hi => ?_)
  · rw [hcount]
    exact sourcePlace_lt hstretch (Nat.zero_lt_of_lt hi) i
  · rw [getD_tabulate _ hi, hread i hi]

/-- **A collapse**: the adjoint stretched to the operand; the target receives nothing. -/
theorem pairsTo_collapseSumLike (hs : Stretches out.shape.dims sx.shape.dims) (hT : T.Fits sx)
    (hrun : Kernel.collapseSumLike (.dual r) [T, U] out = .ok R)
    (hx : x.Yields r custom env (T.map Prod.fst)) (ha : a.Yields r custom env A)
    (hA : A.Fits out) :
    PairsTo r custom env [.some (.call .multiply [a, .call .onesLike [x] sx] sx), .none] [T, U]
      [sx, out] (A.inner (R.map Prod.snd)) := by
  cases Except.ok.inj ((Kernel.collapseSumLike_eq_ok _ hT hs (0, 0)).symm.trans hrun)
  have hnone : PairsTo r custom env [.none] [U] [out] 0 := .none .nil
  have hpair := PairsTo.some (t := T) (yields_stretched ha hA hx hs) (fits_tabulate _ rfl) hnone
  rw [add_zero, inner_collapsed (fun i hi => ?_) hT hA (fits_tabulate _ rfl) fun i hi => ?_]
    at hpair
  · exact hpair
  · exact sourcePlace_lt hs (Nat.zero_lt_of_lt hi) i
  · rw [getD_tabulate _ hi]

/-- Operands that receive nothing have nothing against their tangents. -/
theorem pairsTo_none {args : List Adjoint} {ts : List (Tensor (K × K))} {specs : List TensorSpec}
    (hargs : args.length = specs.length) (hts : ts.length = specs.length) :
    PairsTo r custom env (args.map fun _ => .none) ts specs 0 := by
  induction specs generalizing args ts with
  | nil =>
    rw [List.length_eq_zero_iff.mp hargs, List.length_eq_zero_iff.mp hts]
    exact .nil
  | cons s specs ih =>
    obtain ⟨arg, args, rfl⟩ := List.exists_cons_of_length_eq_add_one hargs
    obtain ⟨t, ts, rfl⟩ := List.exists_cons_of_length_eq_add_one hts
    exact .none (ih (Nat.succ.inj hargs) (Nat.succ.inj hts))

/-- A constant has no tangent. -/
theorem inner_filled (hA : A.Fits out) (c : K) :
    A.inner ((Tensor.filled out (c, (0 : K))).map Prod.snd) = 0 := by
  rw [Tensor.filled_eq, Tensor.map_tabulate, Tensor.inner_eq_sum hA (fits_tabulate _ rfl)]
  refine Finset.sum_eq_zero fun i hi => ?_
  rw [getD_tabulate _ (Finset.mem_range.mp hi), mul_zero]

/-- **A constant**: nothing for the operands, if there are any. -/
theorem pairsTo_constant {args : List Adjoint} {Ts : List (Tensor (K × K))}
    {specs : List TensorSpec} (hTs : List.Forall₂ Tensor.Fits Ts specs)
    (hargs : List.Forall₂ (fun x T => x.Yields r custom env (T.map Prod.fst)) args Ts)
    (hA : A.Fits out) {c : K} (hR : R = .filled out (c, 0)) :
    PairsTo r custom env (args.map fun _ => .none) Ts specs (A.inner (R.map Prod.snd)) := by
  rw [hR, inner_filled hA]
  exact pairsTo_none (hargs.length_eq.trans hTs.length_eq) hTs.length_eq

/-! ### All operators -/

/-- The operand of a call of one. -/
theorem exists_operand {args : List Adjoint} {Ts : List (Tensor (K × K))}
    (hTs : List.Forall₂ Tensor.Fits Ts [sx])
    (hargs : List.Forall₂ (fun x T => x.Yields r custom env (T.map Prod.fst)) args Ts) :
    ∃ T x, Ts = [T] ∧ args = [x] ∧ T.Fits sx ∧ x.Yields r custom env (T.map Prod.fst) := by
  obtain ⟨T, rfl, hT⟩ := forall₂_singleton_right_iff.mp hTs
  obtain ⟨x, rfl, hx⟩ := forall₂_singleton_right_iff.mp hargs
  exact ⟨T, x, rfl, rfl, hT, hx⟩

/-- The operands of a call of two. -/
theorem exists_operands {args : List Adjoint} {Ts : List (Tensor (K × K))}
    (hTs : List.Forall₂ Tensor.Fits Ts [sx, sy])
    (hargs : List.Forall₂ (fun x T => x.Yields r custom env (T.map Prod.fst)) args Ts) :
    ∃ T U x y, Ts = [T, U] ∧ args = [x, y] ∧ T.Fits sx ∧ U.Fits sy ∧
      x.Yields r custom env (T.map Prod.fst) ∧ y.Yields r custom env (U.map Prod.fst) := by
  obtain ⟨T, U, rfl, hT, hU⟩ := forall₂_pair_right_iff.mp hTs
  obtain ⟨x, y, rfl, hx, hy⟩ := forall₂_pair_right_iff.mp hargs
  exact ⟨T, U, x, y, rfl, rfl, hT, hU, hx, hy⟩

/-- **Each rule transposes its operator**: what the operands of a call receive from an adjoint
of the result has against the tangents of the operands, taken together, what the adjoint has
against the tangent of the result. -/
theorem pairsTo_partials {op : Operation} {specs : List TensorSpec} {args : List Adjoint}
    {Ts : List (Tensor (K × K))} {res : Adjoint} {customD : CustomKernels (K × K)}
    (hop : op.isElementary = true)
    (ht : op.resultSpec specs (some (.tensor out)) = .ok out)
    (hTs : List.Forall₂ Tensor.Fits Ts specs)
    (hrun : Kernel.run (.dual r) customD op Ts out = .ok R)
    (hargs : List.Forall₂ (fun x T => x.Yields r custom env (T.map Prod.fst)) args Ts)
    (hres : res.Yields r custom env (R.map Prod.fst)) (ha : a.Yields r custom env A)
    (hA : A.Fits out) :
    PairsTo r custom env (SweepContext.partials op specs out args res a) Ts specs
      (A.inner (R.map Prod.snd)) := by
  cases op with
  | softmax axis => cases hop
  | softmaxCrossEntropy => cases hop
  | customCall target => cases hop
  | add =>
    obtain ⟨sx, sy, rfl, _, _, hsx, hsy⟩ := Operation.exists_of_broadcastSpec ht
    obtain ⟨T, U, x, y, rfl, rfl, hT, hU, hx, hy⟩ := exists_operands hTs hargs
    exact pairsTo_add hT hU hsx hsy hrun hx hy ha hA
  | subtract =>
    obtain ⟨sx, sy, rfl, _, _, hsx, hsy⟩ := Operation.exists_of_broadcastSpec ht
    obtain ⟨T, U, x, y, rfl, rfl, hT, hU, hx, hy⟩ := exists_operands hTs hargs
    exact pairsTo_subtract hT hU hsx hsy hrun hx hy ha hA
  | multiply =>
    obtain ⟨sx, sy, rfl, _, _, hsx, hsy⟩ := Operation.exists_of_broadcastSpec ht
    obtain ⟨T, U, x, y, rfl, rfl, hT, hU, hx, hy⟩ := exists_operands hTs hargs
    exact pairsTo_multiply hT hU hsx hsy hrun hx hy ha hA
  | divide =>
    obtain ⟨sx, sy, rfl, _, _, hsx, hsy⟩ := Operation.exists_of_broadcastSpec ht
    obtain ⟨T, U, x, y, rfl, rfl, hT, hU, hx, hy⟩ := exists_operands hTs hargs
    exact pairsTo_divide hT hU hsx hsy hrun hx hy hres ha hA
  | negative =>
    obtain rfl := Operation.single_eq_ok_iff.mp ht
    obtain ⟨T, x, rfl, rfl, hT, -⟩ := exists_operand hTs hargs
    exact pairsTo_negative hT hrun ha hA
  | exp =>
    obtain rfl := Operation.single_eq_ok_iff.mp ht
    obtain ⟨T, x, rfl, rfl, hT, -⟩ := exists_operand hTs hargs
    exact pairsTo_exp hT hrun hres ha hA
  | log =>
    obtain rfl := Operation.single_eq_ok_iff.mp ht
    obtain ⟨T, x, rfl, rfl, hT, hx⟩ := exists_operand hTs hargs
    exact pairsTo_log hT hrun hx ha hA
  | matmul =>
    obtain ⟨⟨d, ⟨_⟩⟩, ⟨_, ⟨_⟩⟩, m, k, n, rfl, hd, rfl, rfl, rfl⟩ :=
      Operation.matmulSpec_eq_ok_iff.mp ht
    obtain ⟨T, U, x, y, rfl, rfl, hT, hU, hx, hy⟩ := exists_operands hTs hargs
    exact pairsTo_matmul hT hU hd hrun hx hy ha hA
  | transpose perm =>
    obtain ⟨sx, rfl, hperm, rfl⟩ := Operation.transposeSpec_eq_ok_iff.mp ht
    obtain ⟨T, x, rfl, rfl, hT, -⟩ := exists_operand hTs hargs
    exact pairsTo_transpose hperm hT hrun ha hA
  | reshape dims =>
    obtain ⟨sx, rfl, hcount, rfl⟩ := Operation.reshapeSpec_eq_ok_iff.mp ht
    obtain ⟨T, x, rfl, rfl, hT, -⟩ := exists_operand hTs hargs
    exact pairsTo_reshape hcount hT hrun ha hA
  | sum axes keepdims =>
    obtain ⟨sx, rfl, _, hout⟩ := Operation.sumSpec_eq_ok_iff.mp ht
    obtain ⟨T, x, rfl, rfl, hT, hx⟩ := exists_operand hTs hargs
    exact pairsTo_sum hout hT hrun hx ha hA
  | ones => exact pairsTo_constant hTs hargs hA (c := 1) (Except.ok.inj hrun).symm
  | zeros => exact pairsTo_constant hTs hargs hA (c := 0) (Except.ok.inj hrun).symm
  | onesLike =>
    obtain rfl := Operation.single_eq_ok_iff.mp ht
    obtain ⟨T, x, rfl, rfl, -, -⟩ := exists_operand hTs hargs
    exact pairsTo_constant hTs hargs hA (c := 1) (Except.ok.inj hrun).symm
  | zerosLike =>
    obtain rfl := Operation.single_eq_ok_iff.mp ht
    obtain ⟨T, x, rfl, rfl, -, -⟩ := exists_operand hTs hargs
    exact pairsTo_constant hTs hargs hA (c := 0) (Except.ok.inj hrun).symm
  | collapseSumLike =>
    obtain ⟨sx, rfl, _, hb⟩ := Operation.collapseSpec_eq_ok_iff.mp ht
    obtain ⟨T, U, x, y, rfl, rfl, hT, hU, hx, hy⟩ := exists_operands hTs hargs
    exact pairsTo_collapseSumLike (stretches_of_broadcast? hb).2 hT hrun hx ha hA

end Rules

end Adjoint

end TensorGraph
