/-
# TensorGraph.Proofs.CrossEntropy -- the gradient of the cross entropy

Over the real numbers the two softmax kernels are the textbook formulas: what is subtracted from
a row, its maximum or anything else, cancels in the quotient of exponentials and comes back out
of the logarithm of their sum. The loss is then differentiable in the logits, and where every row
of labels sums to 1 its gradient is the softmax minus the labels, which is what the rule builds
for the adjoint 1.
-/
import Mathlib.Algebra.BigOperators.Field
import Mathlib.Analysis.SpecialFunctions.Log.Deriv
import Mathlib.Topology.Algebra.Module.ModuleTopology
import TensorGraph.Proofs.Rows
import TensorGraph.Proofs.Transposition

namespace TensorGraph

open Finset (range)

/-- **`Reading.real`** -- the real exponential and logarithm. The real numbers have no least one
from which a search for the maximum could start, so what is found as the maximum of a row is left
open. -/
noncomputable def Reading.real (max : ℝ → ℝ → ℝ) (lowest : ℝ) (ofWord : FloatWord → ℝ) :
    Reading ℝ where
  exp := Real.exp
  log := Real.log
  max := max
  lowest := lowest
  ofWord := ofWord

/-! ## What is subtracted from a row cancels -/

theorem sum_exp_sub (xs : List ℝ) (g : ℝ) :
    (xs.map fun x => Real.exp (x - g)).sum = (xs.map Real.exp).sum / Real.exp g := by
  simp only [Real.exp_sub, div_eq_mul_inv]
  exact List.sum_map_mul_right xs Real.exp (Real.exp g)⁻¹

theorem sum_exp_pos {xs : List ℝ} (h : xs ≠ []) : 0 < (xs.map Real.exp).sum := by
  refine List.sum_pos _ ?_ ?_
  · intro e he
    obtain ⟨x, _, rfl⟩ := List.mem_map.mp he
    exact Real.exp_pos x
  · rwa [ne_eq, List.map_eq_nil_iff]

/-- **The logarithm gives back** what was subtracted under the exponentials. -/
theorem log_sum_exp_sub {xs : List ℝ} (h : xs ≠ []) (g : ℝ) :
    Real.log (xs.map fun x => Real.exp (x - g)).sum = Real.log (xs.map Real.exp).sum - g := by
  rw [sum_exp_sub, Real.log_div (sum_exp_pos h).ne' (Real.exp_ne_zero g), Real.log_exp]

theorem foldl_sub {α : Type} (f : α → ℝ) (l : List α) (b : ℝ) :
    l.foldl (fun a x => a - f x) b = b - (l.map f).sum := by
  induction l generalizing b with
  | nil => simp
  | cons x l ih =>
    rw [List.foldl_cons, ih, List.map_cons, List.sum_cons]
    ring

/-! ## The textbook formulas -/

/-- The sum of the exponentials of a row. -/
noncomputable def expSum (n : Nat) (z : Nat → ℝ) : ℝ := ∑ c ∈ range n, Real.exp (z c)

/-- **`probability`** -- the softmax of rows of `n` logits, at a place. -/
noncomputable def probability (n : Nat) (z : Nat → ℝ) (i : Nat) : ℝ :=
  Real.exp (z i) / expSum n fun c => z (i / n * n + c)

/-- **`rowLoss`** -- the cross entropy of a row of labels and the softmax of a row of logits. -/
noncomputable def rowLoss (n : Nat) (t z : Nat → ℝ) : ℝ :=
  -∑ c ∈ range n, t c * (z c - Real.log (expSum n z))

/-- **`crossEntropy`** -- the cross entropy of `m` rows of `n` logits. -/
noncomputable def crossEntropy (m n : Nat) (t z : Nat → ℝ) : ℝ :=
  ∑ row ∈ range m, rowLoss n (fun c => t (row * n + c)) fun c => z (row * n + c)

theorem expSum_pos {n : Nat} (h : 0 < n) (z : Nat → ℝ) : 0 < expSum n z :=
  Finset.sum_pos (fun c _ => Real.exp_pos (z c)) ⟨0, Finset.mem_range.mpr h⟩

theorem sum_exp_rowOf (data : Array ℝ) (n row : Nat) :
    ((rowOf data n row 0).map Real.exp).sum = expSum n fun c => data.getD (row * n + c) 0 := by
  rw [rowOf, List.map_map]
  exact sum_map_range n _

/-! ## The kernels compute the formulas -/

namespace Kernel

section Real

variable {max : ℝ → ℝ → ℝ} {lowest : ℝ} {ofWord : FloatWord → ℝ}

/-- **The softmax of a lane** does not depend on what is subtracted. -/
theorem laneSoftmax_real (xs : List ℝ) :
    laneSoftmax (.exact (.real max lowest ofWord)) xs =
      xs.map fun x => Real.exp x / (xs.map Real.exp).sum := by
  have hexp : laneExp (.exact (.real max lowest ofWord)) xs =
      xs.map fun x => Real.exp (x - laneMax (.exact (.real max lowest ofWord)) xs) := rfl
  rw [laneSoftmax, total_exact, hexp, sum_exp_sub, List.map_map]
  refine List.map_congr_left ?_
  intro x _
  show Real.exp (x - _) / _ = _
  rw [Real.exp_sub]
  exact div_div_div_cancel_right₀ (Real.exp_ne_zero _) _ _

/-- **The loss of a lane** does not depend on what is subtracted. -/
theorem laneLoss_real (loss : ℝ) (xs ts : List ℝ) :
    laneLoss (.exact (.real max lowest ofWord)) loss xs ts =
      loss - ((xs.zip ts).map fun p =>
        p.2 * (p.1 - Real.log (xs.map Real.exp).sum)).sum := by
  have hunfold : laneLoss (.exact (.real max lowest ofWord)) loss xs ts =
      (xs.zip ts).foldl (fun loss p => loss - p.2 *
        (p.1 - laneMax (.exact (.real max lowest ofWord)) xs -
          Real.log (total (.exact (.real max lowest ofWord))
            (laneExp (.exact (.real max lowest ofWord)) xs)))) loss := rfl
  have hexp : laneExp (.exact (.real max lowest ofWord)) xs =
      xs.map fun x => Real.exp (x - laneMax (.exact (.real max lowest ofWord)) xs) := rfl
  rw [hunfold, foldl_sub]
  congr 2
  refine List.map_congr_left ?_
  intro p hp
  have hne : xs ≠ [] := List.ne_nil_of_mem (List.of_mem_zip hp).1
  rw [total_exact, hexp, log_sum_exp_sub hne]
  ring

/-- What a row of logits and labels takes off the loss. -/
theorem laneLoss_rowOf (loss : ℝ) (x y : Array ℝ) (n row : Nat) :
    laneLoss (.exact (.real max lowest ofWord)) loss (rowOf x n row 0) (rowOf y n row 0) =
      loss + rowLoss n (fun c => y.getD (row * n + c) 0) fun c => x.getD (row * n + c) 0 := by
  have hzip : (rowOf x n row 0).zip (rowOf y n row 0) =
      (List.range n).map fun c => (x.getD (row * n + c) 0, y.getD (row * n + c) 0) :=
    List.zip_map'
  rw [laneLoss_real, sum_exp_rowOf, hzip, List.map_map, rowLoss, ← sub_eq_add_neg]
  exact congrArg (loss - ·) (sum_map_range n _)

/-- **Over the real numbers** a softmax along the last axis has the textbook probabilities. -/
theorem softmaxAt_real {data : Array ℝ} {m n i : Nat} (h : i < m * n) :
    softmaxAt (.exact (.real max lowest ofWord)) data n 0 i =
      probability n (fun j => data.getD j 0) i := by
  have hn : 0 < n := Nat.pos_of_mul_pos_left (Nat.zero_lt_of_lt h)
  rw [softmaxAt, laneSoftmax_real, sum_exp_rowOf, List.getD_eq_getElem?_getD, List.getElem?_map,
    rowOf, List.getElem?_map, List.getElem?_range (Nat.mod_lt i hn), probability]
  show Real.exp (data.getD (i / n * n + i % n) 0) / _ = _
  rw [Nat.div_add_mod']

/-- **Over the real numbers** a cross entropy is the textbook loss. -/
theorem softmaxCrossEntropy_real {lead : List Nat} {n : Nat} {x y : Tensor ℝ}
    {sx sy output : TensorSpec} (hx : x.Fits sx) (hy : y.Fits sy) (hs : sx.shape = sy.shape)
    (hdims : sx.shape.dims = lead ++ [n]) (hout : output.elementCount = 1) :
    softmaxCrossEntropy (.exact (.real max lowest ofWord)) [x, y] output =
      .ok ⟨output, #[crossEntropy lead.prod n (fun i => y.data.getD i 0)
        fun i => x.data.getD i 0]⟩ := by
  rw [softmaxCrossEntropy_eq_ok _ hx hy hs hdims hout 0]
  simp only [laneLoss_rowOf]
  rw [crossEntropy, ← sum_map_range, ← total_exact (.real max lowest ofWord), total,
    List.foldl_map]
  rfl

end Real

end Kernel

/-! ## Derivatives -/

/-- **The derivative of the loss of a row**, along any motion of its logits. -/
theorem hasDerivAt_rowLoss {n : Nat} {t : Nat → ℝ} (ht : ∑ c ∈ range n, t c = 1)
    {z : ℝ → Nat → ℝ} {z' : Nat → ℝ} {u : ℝ}
    (hz : ∀ c ∈ range n, HasDerivAt (fun u => z u c) (z' c) u) :
    HasDerivAt (fun u => rowLoss n t (z u))
      (∑ c ∈ range n, (Real.exp (z u c) / expSum n (z u) - t c) * z' c) u := by
  have hn : 0 < n := by
    refine Nat.pos_of_ne_zero ?_
    rintro rfl
    rw [Finset.range_zero, Finset.sum_empty] at ht
    exact zero_ne_one ht
  have hsum : HasDerivAt (fun u => expSum n (z u))
      (∑ c ∈ range n, Real.exp (z u c) * z' c) u :=
    HasDerivAt.fun_sum fun c hc => (hz c hc).exp
  have hlog := hsum.log (expSum_pos hn (z u)).ne'
  have hterms := HasDerivAt.fun_sum fun c (hc : c ∈ range n) =>
    ((hz c hc).sub hlog).const_mul (t c)
  refine hterms.neg.congr_deriv ?_
  -- the labels sum to 1, so the logarithm contributes its derivative once
  have hlabels : ∑ c ∈ range n, t c * ((∑ c ∈ range n, Real.exp (z u c) * z' c) / expSum n (z u)) =
      ∑ c ∈ range n, Real.exp (z u c) / expSum n (z u) * z' c := by
    rw [← Finset.sum_mul, ht, one_mul, Finset.sum_div]
    exact Finset.sum_congr rfl fun c _ => by ring
  simp only [mul_sub, sub_mul, Finset.sum_sub_distrib, hlabels]
  ring

/-- **The derivative in one logit** is its probability minus its label. -/
theorem hasDerivAt_crossEntropy {m n : Nat} {t z : Nat → ℝ}
    (ht : ∀ row < m, ∑ c ∈ range n, t (row * n + c) = 1) {i : Nat} (hi : i < m * n) :
    HasDerivAt (fun u => crossEntropy m n t (Function.update z i u)) (probability n z i - t i)
      (z i) := by
  -- the one logit moves with the argument, the others stay
  have hmoves : ∀ j, HasDerivAt (fun u => Function.update z i u j) (if j = i then 1 else 0)
      (z i) := by
    intro j
    by_cases hj : j = i
    · subst hj
      simp only [Function.update_self, if_true]
      exact hasDerivAt_id _
    · simp only [Function.update_of_ne hj, if_neg hj]
      exact hasDerivAt_const _ _
  have hrows := HasDerivAt.fun_sum fun row (hr : row ∈ range m) =>
    hasDerivAt_rowLoss (ht row (Finset.mem_range.mp hr)) fun c _ => hmoves (row * n + c)
  refine hrows.congr_deriv ?_
  rw [Function.update_eq_self]
  calc ∑ row ∈ range m, ∑ c ∈ range n, (Real.exp (z (row * n + c)) /
          expSum n (fun c => z (row * n + c)) - t (row * n + c)) *
            (if row * n + c = i then 1 else 0)
      = ∑ row ∈ range m, ∑ c ∈ range n, (probability n z (row * n + c) - t (row * n + c)) *
          (if row * n + c = i then 1 else 0) := by
        refine Finset.sum_congr rfl fun row hr => Finset.sum_congr rfl fun c hc => ?_
        rw [probability, (matrix_place (Finset.mem_range.mp hr) (Finset.mem_range.mp hc)).2.1]
    _ = ∑ e ∈ range (m * n), (probability n z e - t e) * (if e = i then 1 else 0) :=
        (sum_matrix m n fun e => (probability n z e - t e) * if e = i then 1 else 0).symm
    _ = probability n z i - t i := by
        simp only [mul_ite, mul_one, mul_zero, Finset.sum_ite_eq', Finset.mem_range, if_pos hi]

/-! ## One logit at a time -/

section Element

variable {α : Type} {t : Tensor α} {spec : TensorSpec} {i : Nat}

/-- **`withElement`** -- a tensor with another element at a place. -/
def Tensor.withElement (t : Tensor α) (i : Nat) (e : α) : Tensor α :=
  ⟨t.spec, t.data.setIfInBounds i e⟩

theorem Tensor.Fits.withElement (h : t.Fits spec) (i : Nat) (e : α) :
    (t.withElement i e).Fits spec := ⟨h.1, Array.size_setIfInBounds.trans h.2⟩

theorem Tensor.getD_withElement (h : i < t.data.size) (e z : α) :
    (fun j => (t.withElement i e).data.getD j z) =
      Function.update (fun j => t.data.getD j z) i e := by
  funext j
  rw [Tensor.withElement, Array.getD_eq_getD_getElem?]
  by_cases hj : j = i
  · subst hj
    rw [Array.getElem?_setIfInBounds_self_of_lt h, Function.update_self, Option.getD_some]
  · rw [Array.getElem?_setIfInBounds_ne (Ne.symm hj), Function.update_of_ne hj,
      Array.getD_eq_getD_getElem?]

end Element

/-! ## The rule -/

namespace Adjoint

variable {K : Type} [Field K] {r : Reading K} {custom : CustomKernels K} {env : Env K}
  {a x y : Adjoint} {A P X Y : Tensor K} {sx out : TensorSpec}

/-- **What the logits receive**: their softmax minus the labels, times the adjoint of the loss. -/
theorem yields_logitsAdjoint (hx : x.Yields r custom env X) (hy : y.Yields r custom env Y)
    (hY : Y.Fits sx) (ha : a.Yields r custom env A) (hA : A.Fits out)
    (hout : out.shape.dims = [])
    (hP : Kernel.softmax (.exact r) (sx.shape.rank - 1) [X] sx = .ok P) (hfits : P.Fits sx) :
    (GradientRule.logitsAdjoint sx x y a).Yields r custom env
      ⟨sx, tabulate sx.elementCount fun i =>
        (P.data.getD i 0 - Y.data.getD i 0) * A.data.getD 0 0⟩ := by
  have hsoft : (call (.softmax (sx.shape.rank - 1)) [x] sx).Yields r custom env P :=
    eval_call_eq_ok (evalAll_singleton hx) hP
  have hdiff : (call .subtract [call (.softmax (sx.shape.rank - 1)) [x] sx, y] sx).Yields r custom
      env _ := yields_binary_both (fun _ => rfl) hsoft hfits hy hY
  have hprod : (GradientRule.logitsAdjoint sx x y a).Yields r custom env _ :=
    yields_binary_left (fun _ => rfl) hdiff (Tensor.fits_tabulate _ rfl) ha hA
      (hout.symm ▸ GradientRule.stretches_nil _)
  rw [hout] at hprod
  refine hprod.trans ?_
  congr 3
  refine tabulate_congr ?_
  intro i hi
  rw [getD_tabulate _ hi, sourcePlace_scalar]
  rfl

end Adjoint

namespace Kernel

/-- **The gradient of a cross entropy.** Whatever the leading extents, let every row of labels `t`
along the last axis sum to 1. Over the real numbers, the softmax `p` of the logits `z` has the
textbook probabilities, and the loss as a function of any one logit has at `z` the derivative
`p - t`, which is what the rule builds for the adjoint 1. Neither depends on how the greatest of
two logits is chosen or where the search for it starts, and so on what is subtracted from a row. -/
theorem crossEntropy_gradient {spec : TensorSpec} {lead : List Nat} {n : Nat}
    (hdims : spec.shape.dims = lead ++ [n]) {z t : Tensor ℝ} (hz : z.Fits spec) (ht : t.Fits spec)
    (hrows : ∀ row < lead.prod, ∑ c ∈ range n, t.data.getD (row * n + c) 0 = 1) :
    ∃ p : Tensor ℝ, p.Fits spec ∧
      (∀ i < spec.elementCount,
        p.data.getD i 0 = probability n (fun j => z.data.getD j 0) i) ∧
      (∀ max lowest ofWord,
        softmax (.exact (.real max lowest ofWord)) lead.length [z] spec = .ok p) ∧
      (∀ i < spec.elementCount, ∃ loss : ℝ → ℝ,
        (∀ max lowest ofWord u, softmaxCrossEntropy (.exact (.real max lowest ofWord))
          [z.withElement i u, t] (.scalar spec.dtype) = .ok ⟨.scalar spec.dtype, #[loss u]⟩) ∧
        HasDerivAt loss (p.data.getD i 0 - t.data.getD i 0) (z.data.getD i 0)) ∧
      ∀ (max : ℝ → ℝ → ℝ) (lowest : ℝ) (ofWord : FloatWord → ℝ) (custom : CustomKernels ℝ)
        (env : Env ℝ) (types : TypeMap) (x y a result : Adjoint),
        x.IsTensor types spec → y.IsTensor types spec → a.IsTensor types (.scalar spec.dtype) →
        x.Yields (.real max lowest ofWord) custom env z →
        y.Yields (.real max lowest ofWord) custom env t →
        a.Yields (.real max lowest ofWord) custom env ⟨.scalar spec.dtype, #[1]⟩ →
        ∃ g G, GradientRule.softmaxCrossEntropy
            ⟨.softmaxCrossEntropy, [x, y], result, .scalar spec.dtype⟩ a = .ok [some g, none] ∧
          g.Yields (.real max lowest ofWord) custom env G ∧ G.Fits spec ∧
          ∀ i < spec.elementCount, G.data.getD i 0 = p.data.getD i 0 - t.data.getD i 0 := by
  have hcount : spec.elementCount = lead.prod * n := elementCount_rows hdims
  have hsoftmax : ∀ max lowest ofWord, softmax (.exact (.real max lowest ofWord)) lead.length [z]
      spec = .ok ⟨spec,
        tabulate spec.elementCount (probability n fun j => z.data.getD j 0)⟩ := by
    intro max lowest ofWord
    rw [softmax_eq_ok _ hz hdims 0, tabulate_congr fun i hi => softmaxAt_real (hcount ▸ hi)]
  have hentry : ∀ i < spec.elementCount,
      (tabulate spec.elementCount (probability n fun j => z.data.getD j 0)).getD i 0 =
        probability n (fun j => z.data.getD j 0) i := by
    intro i hi
    exact getD_tabulate _ hi 0
  have hfits : Tensor.Fits ⟨spec,
      tabulate spec.elementCount (probability n fun j => z.data.getD j 0)⟩ spec :=
    Tensor.fits_tabulate _ rfl
  refine ⟨_, hfits, hentry, hsoftmax, ?_, ?_⟩
  · intro i hi
    refine ⟨fun u => crossEntropy lead.prod n (fun j => t.data.getD j 0)
      (Function.update (fun j => z.data.getD j 0) i u), ?_, ?_⟩
    · intro max lowest ofWord u
      rw [softmaxCrossEntropy_real (hz.withElement i u) ht rfl hdims rfl,
        Tensor.getD_withElement (by rwa [hz.2])]
    · rw [hentry i hi]
      exact hasDerivAt_crossEntropy hrows (hcount ▸ hi)
  · intro max lowest ofWord custom env types x y a result htx hty hta hx hy ha
    have hrank : spec.shape.rank = lead.length + 1 := by
      rw [Shape.rank, hdims, List.length_append, List.length_singleton]
    have hne : spec.shape.rank ≠ 0 := by
      rw [hrank]
      exact Nat.succ_ne_zero _
    have hrule : GradientRule.softmaxCrossEntropy
        ⟨.softmaxCrossEntropy, [x, y], result, .scalar spec.dtype⟩ a = .ok [some _, none] :=
      (GradientRule.softmaxCrossEntropy_eq_ok htx hty hta rfl rfl hne rfl).1
    have hP := hsoftmax max lowest ofWord
    have haxis : lead.length = spec.shape.rank - 1 := by
      rw [hrank, Nat.add_sub_cancel]
    rw [haxis] at hP
    refine ⟨_, _, hrule, Adjoint.yields_logitsAdjoint hx hy ht ha ⟨rfl, rfl⟩ rfl hP hfits,
      Tensor.fits_tabulate _ rfl, ?_⟩
    intro i hi
    rw [getD_tabulate _ hi]
    exact mul_one _

/-- Two rows of logits, the last one as given. -/
noncomputable def twoRows (u : ℝ) : Tensor ℝ := ⟨⟨.f32, ⟨[2, 2]⟩⟩, #[0, 0, 5, u]⟩

/-- Labels for two rows. -/
noncomputable def twoRowLabels : Tensor ℝ := ⟨⟨.f32, ⟨[2, 2]⟩⟩, #[1, 0, 1 / 4, 3 / 4]⟩

/-- In a row of equal logits every probability is one half, whatever the logits are. -/
theorem crossEntropy_gradient_twoRows :
    (∀ row < 2, ∑ c ∈ range 2, twoRowLabels.data.getD (row * 2 + c) 0 = 1) ∧
      ∃ (p : Tensor ℝ) (loss : ℝ → ℝ) (g : Adjoint) (G : Tensor ℝ),
        softmax (.exact (.real max 0 fun _ => 0)) 1 [twoRows 5] ⟨.f32, ⟨[2, 2]⟩⟩ = .ok p ∧
        p.data.getD 3 0 = 1 / 2 ∧
        (∀ u, softmaxCrossEntropy (.exact (.real max 0 fun _ => 0)) [twoRows u, twoRowLabels]
          (.scalar .f32) = .ok ⟨.scalar .f32, #[loss u]⟩) ∧
        HasDerivAt loss (1 / 2 - 3 / 4) 5 ∧
        GradientRule.softmaxCrossEntropy ⟨.softmaxCrossEntropy,
          [.leaf (.value ⟨0⟩) ⟨.f32, ⟨[2, 2]⟩⟩, .leaf (.value ⟨1⟩) ⟨.f32, ⟨[2, 2]⟩⟩],
          .leaf (.value ⟨2⟩) (.scalar .f32), .scalar .f32⟩ (.ones (.scalar .f32)) =
            .ok [some g, none] ∧
        g.Yields (.real max 0 fun _ => 0) .none
          ⟨[(⟨0⟩, .tensor (twoRows 5)), (⟨1⟩, .tensor twoRowLabels)]⟩ G ∧
        G.data.getD 3 0 = 1 / 2 - 3 / 4 := by
  have hrows : ∀ row < 2, ∑ c ∈ range 2, twoRowLabels.data.getD (row * 2 + c) 0 = 1 := by
    intro row hr
    rcases (by omega : row = 0 ∨ row = 1) with rfl | rfl
    · show ∑ c ∈ range 2, (#[1, 0, 1 / 4, 3 / 4] : Array ℝ).getD (0 * 2 + c) 0 = 1
      norm_num [Finset.sum_range_succ]
    · show ∑ c ∈ range 2, (#[1, 0, 1 / 4, 3 / 4] : Array ℝ).getD (1 * 2 + c) 0 = 1
      norm_num [Finset.sum_range_succ]
  have hhalf : probability 2 (fun j => (twoRows 5).data.getD j 0) 3 = 1 / 2 := by
    show Real.exp 5 / ∑ c ∈ range 2, Real.exp ((#[0, 0, 5, 5] : Array ℝ).getD (3 / 2 * 2 + c) 0) = _
    have hpos := Real.exp_pos 5
    norm_num [Finset.sum_range_succ]
    field_simp
    norm_num
  have hdims : (TensorSpec.mk .f32 ⟨[2, 2]⟩).shape.dims = [2] ++ [2] := rfl
  have hz : (twoRows 5).Fits ⟨.f32, ⟨[2, 2]⟩⟩ := ⟨rfl, rfl⟩
  have ht : twoRowLabels.Fits ⟨.f32, ⟨[2, 2]⟩⟩ := ⟨rfl, rfl⟩
  obtain ⟨p, _, hp, hsoftmax, hloss, hrule⟩ := crossEntropy_gradient hdims hz ht hrows
  obtain ⟨loss, hrun, hderiv⟩ := hloss 3 (by decide)
  have hthree : p.data.getD 3 0 = 1 / 2 := (hp 3 (by decide)).trans hhalf
  obtain ⟨g, G, hg, hG, _, hdiff⟩ := hrule max 0 (fun _ => 0) .none
    ⟨[(⟨0⟩, .tensor (twoRows 5)), (⟨1⟩, .tensor twoRowLabels)]⟩
    (fun _ => some (.tensor ⟨.f32, ⟨[2, 2]⟩⟩)) (.leaf (.value ⟨0⟩) ⟨.f32, ⟨[2, 2]⟩⟩)
    (.leaf (.value ⟨1⟩) ⟨.f32, ⟨[2, 2]⟩⟩) (.ones (.scalar .f32))
    (.leaf (.value ⟨2⟩) (.scalar .f32)) (Adjoint.isTensor_leaf rfl) (Adjoint.isTensor_leaf rfl)
    ⟨Adjoint.typed_ones _ _, rfl⟩ rfl rfl rfl
  rw [hthree] at hderiv
  have hdiff3 := hdiff 3 (by decide)
  rw [hthree] at hdiff3
  exact ⟨hrows, p, loss, g, G, hsoftmax _ _ _, hthree, hrun _ _ _, hderiv, hg, hG, hdiff3⟩

end Kernel

end TensorGraph
