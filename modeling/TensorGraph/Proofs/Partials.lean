/-
# TensorGraph.Proofs.Partials -- gradient rules apply to every typed call

For each operator that has a rule: applied to a typed call and a tensor of the spec of the
result, the rule gives the partials that are written out here, one for each operand or none.
A partial has the spec of its operand, or that of the result where operands are stretched,
and is then collapsed to the operand. Which operands receive a partial depends on the
operator alone (`Operation.receives`).
-/
import TensorGraph.Adjoint.Sweep
import TensorGraph.Proofs.Adjoints
import TensorGraph.Proofs.Permuted

namespace TensorGraph

/-- **`Operation.receives`** -- whether the rule of an operator has a partial for an
operand. -/
def Operation.receives : Operation → Nat → Bool
  | add, index | subtract, index | multiply, index | divide, index | matmul, index => index < 2
  | negative, index | exp, index | log, index | transpose _, index | reshape _, index
  | sum _ _, index | softmaxCrossEntropy, index | collapseSumLike, index => index < 1
  | softmax _, _ | ones, _ | zeros, _ | onesLike, _ | zerosLike, _ | customCall _, _ => false

/-! ## Stretched operands -/

/-- What stretches to a shape leaves the shape as it is. -/
theorem Operation.broadcastSpec_of_stretches {op : Operation} {out s : TensorSpec}
    (hd : s.dtype = out.dtype) (h : Stretches s.shape.dims out.shape.dims) :
    op.broadcastSpec [out, s] = .ok out := by
  refine Operation.broadcastSpec_eq_ok_iff.mpr ⟨out, s, rfl, hd.symm, rfl, ?_⟩
  rw [Shape.broadcast?_swap]
  exact broadcast?_of_stretches h

/-- What stretches to a shape takes it on. -/
theorem Operation.broadcastSpec_stretched {op : Operation} {out s : TensorSpec}
    (hd : s.dtype = out.dtype) (h : Stretches s.shape.dims out.shape.dims) :
    op.broadcastSpec [s, out] = .ok out :=
  Operation.broadcastSpec_eq_ok_iff.mpr
    ⟨s, out, rfl, hd, hd.symm, broadcast?_of_stretches h⟩

theorem Operation.collapseSpec_of_stretches {out s : TensorSpec} (hd : s.dtype = out.dtype)
    (h : Stretches s.shape.dims out.shape.dims) : Operation.collapseSpec [out, s] = .ok s := by
  refine Operation.collapseSpec_eq_ok_iff.mpr ⟨out, rfl, hd.symm, ?_⟩
  rw [Shape.broadcast?_swap]
  exact broadcast?_of_stretches h

namespace Adjoint

/-- **`IsTensor`** -- a typed adjoint that is a tensor of the given spec. -/
def IsTensor (types : TypeMap) (a : Adjoint) (spec : TensorSpec) : Prop :=
  a.Typed types ∧ a.type = .tensor spec

variable {types : TypeMap} {a x y : Adjoint} {sx sy out : TensorSpec}

theorem isTensor_leaf {z : Operand} (h : z.type? types = some (.tensor out)) :
    (leaf z out).IsTensor types out := ⟨h, rfl⟩

/-- An operator applied to one tensor. -/
theorem apply_one (op : Operation) (hx : x.IsTensor types sx)
    (h : op.resultSpec [sx] none = .ok out) :
    apply op [x] = .ok (.call op [x] out) ∧ (call op [x] out).IsTensor types out := by
  have hargs : Adjoint.types [x] = [sx].map .tensor := by
    rw [Adjoint.types, Adjoint.types, hx.2]
    rfl
  exact ⟨apply_eq_ok hargs h, typed_call hargs h ⟨hx.1, trivial⟩, rfl⟩

/-- An operator applied to two tensors. -/
theorem apply_two (op : Operation) (hx : x.IsTensor types sx) (hy : y.IsTensor types sy)
    (h : op.resultSpec [sx, sy] none = .ok out) :
    apply op [x, y] = .ok (.call op [x, y] out) ∧ (call op [x, y] out).IsTensor types out := by
  have hargs : Adjoint.types [x, y] = [sx, sy].map .tensor := by
    rw [Adjoint.types, Adjoint.types, Adjoint.types, hx.2, hy.2]
    rfl
  exact ⟨apply_eq_ok hargs h, typed_call hargs h ⟨hx.1, hy.1, trivial⟩, rfl⟩

end Adjoint

/-! ## The rules -/

namespace GradientRule

open Adjoint

variable {types : TypeMap} {op : Operation} {a r x y : Adjoint} {sx sy out : TensorSpec}

theorem add_eq_ok : add ⟨op, [x, y], r, out⟩ a = .ok [some a, some a] := rfl

theorem subtract_eq_ok (ha : a.IsTensor types out) :
    subtract ⟨op, [x, y], r, out⟩ a = .ok [some a, some (.call .negative [a] out)] ∧
      (call .negative [a] out).IsTensor types out := by
  obtain ⟨happly, ht⟩ := apply_one .negative ha rfl
  refine ⟨?_, ht⟩
  show (ofShape (apply .negative [a]) >>= fun n => Except.ok [some a, some n]) = _
  rw [happly]
  rfl

theorem multiply_eq_ok (ha : a.IsTensor types out) (hx : x.IsTensor types sx)
    (hy : y.IsTensor types sy) (hdx : sx.dtype = out.dtype) (hdy : sy.dtype = out.dtype)
    (hsx : Stretches sx.shape.dims out.shape.dims)
    (hsy : Stretches sy.shape.dims out.shape.dims) :
    multiply ⟨op, [x, y], r, out⟩ a =
        .ok [some (.call .multiply [a, y] out), some (.call .multiply [a, x] out)] ∧
      (call .multiply [a, y] out).IsTensor types out ∧
      (call .multiply [a, x] out).IsTensor types out := by
  obtain ⟨hy', hty⟩ := apply_two .multiply ha hy
    (Operation.broadcastSpec_of_stretches hdy hsy)
  obtain ⟨hx', htx⟩ := apply_two .multiply ha hx
    (Operation.broadcastSpec_of_stretches hdx hsx)
  refine ⟨?_, hty, htx⟩
  show (ofShape (apply .multiply [a, y]) >>= fun p => ofShape (apply .multiply [a, x]) >>=
    fun q => Except.ok [some p, some q]) = _
  rw [hy', hx']
  rfl

theorem divide_eq_ok (ha : a.IsTensor types out) (hr : r.IsTensor types out)
    (hy : y.IsTensor types sy) (hdy : sy.dtype = out.dtype)
    (hsy : Stretches sy.shape.dims out.shape.dims) :
    divide ⟨op, [x, y], r, out⟩ a =
        .ok [some (.call .divide [a, y] out),
          some (.call .negative [.call .divide [.call .multiply [a, r] out, y] out] out)] ∧
      (call .divide [a, y] out).IsTensor types out ∧
      (call .negative [.call .divide [.call .multiply [a, r] out, y] out] out).IsTensor types
        out := by
  have hdivide : ∀ {z : Adjoint}, z.IsTensor types out → _ := fun hz =>
    apply_two .divide hz hy (Operation.broadcastSpec_of_stretches hdy hsy)
  obtain ⟨hnum, htnum⟩ := hdivide ha
  obtain ⟨hprod, htprod⟩ := apply_two .multiply ha hr
    (Operation.broadcastSpec_of_stretches rfl (stretches_self _))
  obtain ⟨hquot, htquot⟩ := hdivide htprod
  obtain ⟨hneg, htneg⟩ := apply_one .negative htquot rfl
  refine ⟨?_, htnum, htneg⟩
  show (ofShape (apply .divide [a, y]) >>= fun n => ofShape (apply .multiply [a, r]) >>= fun p =>
    ofShape (apply .divide [p, y]) >>= fun q => ofShape (apply .negative [q]) >>= fun m =>
      Except.ok [some n, some m]) = _
  rw [hnum, hprod]
  show (ofShape (apply .divide [.call .multiply [a, r] out, y]) >>= fun q =>
    ofShape (apply .negative [q]) >>= fun m => Except.ok [_, some m]) = _
  rw [hquot]
  show (ofShape (apply .negative [.call .divide [.call .multiply [a, r] out, y] out]) >>= fun m =>
    Except.ok [_, some m]) = _
  rw [hneg]
  rfl

theorem negative_eq_ok (ha : a.IsTensor types out) :
    negative ⟨op, [x], r, out⟩ a = .ok [some (.call .negative [a] out)] ∧
      (call .negative [a] out).IsTensor types out := by
  obtain ⟨happly, ht⟩ := apply_one .negative ha rfl
  refine ⟨?_, ht⟩
  show (ofShape (apply .negative [a]) >>= fun n => Except.ok [some n]) = _
  rw [happly]
  rfl

theorem exp_eq_ok (ha : a.IsTensor types out) (hr : r.IsTensor types out) :
    exp ⟨op, [x], r, out⟩ a = .ok [some (.call .multiply [a, r] out)] ∧
      (call .multiply [a, r] out).IsTensor types out := by
  obtain ⟨happly, ht⟩ := apply_two .multiply ha hr
    (Operation.broadcastSpec_of_stretches rfl (stretches_self _))
  refine ⟨?_, ht⟩
  show (ofShape (apply .multiply [a, r]) >>= fun n => Except.ok [some n]) = _
  rw [happly]
  rfl

theorem log_eq_ok (ha : a.IsTensor types out) (hx : x.IsTensor types out) :
    log ⟨op, [x], r, out⟩ a = .ok [some (.call .divide [a, x] out)] ∧
      (call .divide [a, x] out).IsTensor types out := by
  obtain ⟨happly, ht⟩ := apply_two .divide ha hx
    (Operation.broadcastSpec_of_stretches rfl (stretches_self _))
  refine ⟨?_, ht⟩
  show (ofShape (apply .divide [a, x]) >>= fun n => Except.ok [some n]) = _
  rw [happly]
  rfl

theorem transposedSpec (d : DType) (m k : Nat) :
    (Operation.transpose [1, 0]).resultSpec [⟨d, ⟨[m, k]⟩⟩] none = .ok ⟨d, ⟨[k, m]⟩⟩ := by
  have hperm : IsPermutation [1, 0] 2 := by decide
  exact Operation.transposeSpec_eq_ok_iff.mpr ⟨_, rfl, hperm, rfl⟩

theorem matmulSpec (d : DType) (m k n : Nat) :
    Operation.matmul.resultSpec [⟨d, ⟨[m, k]⟩⟩, ⟨d, ⟨[k, n]⟩⟩] none = .ok ⟨d, ⟨[m, n]⟩⟩ :=
  Operation.matmulSpec_eq_ok_iff.mpr ⟨_, _, m, k, n, rfl, rfl, rfl, rfl, rfl⟩

theorem matmul_eq_ok {d : DType} {m k n : Nat} (ha : a.IsTensor types ⟨d, ⟨[m, n]⟩⟩)
    (hx : x.IsTensor types ⟨d, ⟨[m, k]⟩⟩) (hy : y.IsTensor types ⟨d, ⟨[k, n]⟩⟩) :
    matmul ⟨op, [x, y], r, out⟩ a =
        .ok [some (.call .matmul [a, .call (.transpose [1, 0]) [y] ⟨d, ⟨[n, k]⟩⟩] ⟨d, ⟨[m, k]⟩⟩),
          some (.call .matmul [.call (.transpose [1, 0]) [x] ⟨d, ⟨[k, m]⟩⟩, a] ⟨d, ⟨[k, n]⟩⟩)] ∧
      (call .matmul [a, .call (.transpose [1, 0]) [y] ⟨d, ⟨[n, k]⟩⟩] ⟨d, ⟨[m, k]⟩⟩).IsTensor
        types ⟨d, ⟨[m, k]⟩⟩ ∧
      (call .matmul [.call (.transpose [1, 0]) [x] ⟨d, ⟨[k, m]⟩⟩, a] ⟨d, ⟨[k, n]⟩⟩).IsTensor
        types ⟨d, ⟨[k, n]⟩⟩ := by
  obtain ⟨hyT, htyT⟩ := apply_one _ hy (transposedSpec d k n)
  obtain ⟨hleft, htleft⟩ := apply_two _ ha htyT (matmulSpec d m n k)
  obtain ⟨hxT, htxT⟩ := apply_one _ hx (transposedSpec d m k)
  obtain ⟨hright, htright⟩ := apply_two _ htxT ha (matmulSpec d k m n)
  refine ⟨?_, htleft, htright⟩
  show (ofShape (apply (.transpose [1, 0]) [y]) >>= fun yT => ofShape (apply .matmul [a, yT]) >>=
    fun p => ofShape (apply (.transpose [1, 0]) [x]) >>= fun xT =>
      ofShape (apply .matmul [xT, a]) >>= fun q => Except.ok [some p, some q]) = _
  rw [hyT, hxT]
  show (ofShape (apply .matmul [a, _]) >>= fun p => ofShape (apply .matmul [_, a]) >>= fun q =>
    Except.ok [some p, some q]) = _
  rw [hleft, hright]
  rfl

theorem transpose_eq_ok {perm : List Nat} (hperm : IsPermutation perm sx.shape.rank)
    (hout : out = ⟨sx.dtype, ⟨permuted sx.shape.dims perm⟩⟩) (ha : a.IsTensor types out) :
    transpose ⟨.transpose perm, [x], r, out⟩ a =
        .ok [some (.call (.transpose (inversePermutation perm)) [a] sx)] ∧
      (call (.transpose (inversePermutation perm)) [a] sx).IsTensor types sx := by
  have hspec : (Operation.transpose (inversePermutation perm)).resultSpec [out] none = .ok sx := by
    refine Operation.transposeSpec_eq_ok_iff.mpr ⟨out, rfl, ?_, ?_⟩
    · rw [hout, Shape.rank, length_permuted hperm rfl]
      exact isPermutation_inverse hperm
    · rw [hout, permuted_permuted_inverse hperm rfl]
  obtain ⟨happly, ht⟩ := apply_one _ ha hspec
  refine ⟨?_, ht⟩
  show (ofShape (apply (.transpose (inversePermutation perm)) [a]) >>= fun p =>
    Except.ok [some p]) = _
  rw [happly]
  rfl

/-- The spec of an operand that is a tensor is at hand. -/
theorem argSpec_eq_ok {xs : List Adjoint} (hx : x.IsTensor types sx) :
    CallSite.argSpec ⟨op, x :: xs, r, out⟩ 0 = .ok sx := by
  simp [CallSite.argSpec, spec?_of_type hx.2]

theorem reshape_eq_ok (hx : x.IsTensor types sx) (hcount : out.elementCount = sx.elementCount)
    (hd : out.dtype = sx.dtype) (ha : a.IsTensor types out) :
    reshape ⟨op, [x], r, out⟩ a = .ok [some (.call (.reshape sx.shape.dims) [a] sx)] ∧
      (call (.reshape sx.shape.dims) [a] sx).IsTensor types sx := by
  have hspec : (Operation.reshape sx.shape.dims).resultSpec [out] none = .ok sx := by
    refine Operation.reshapeSpec_eq_ok_iff.mpr ⟨out, rfl, hcount.symm, ?_⟩
    rw [hd]
  obtain ⟨happly, ht⟩ := apply_one _ ha hspec
  refine ⟨?_, ht⟩
  show (CallSite.argSpec ⟨op, [x], r, out⟩ 0 >>= fun input =>
    ofShape (apply (.reshape input.shape.dims) [a]) >>= fun p => Except.ok [some p]) = _
  rw [argSpec_eq_ok hx]
  show (ofShape (apply (.reshape sx.shape.dims) [a]) >>= fun p => Except.ok [some p]) = _
  rw [happly]
  rfl

/-- The adjoint of a sum with its reduced axes back, and its spec. -/
def keptAdjoint (axes : Option (List Nat)) (sx out : TensorSpec) (a : Adjoint) :
    Adjoint × TensorSpec :=
  if out.shape.rank ≠ 0 ∧ out.shape.rank ≠ sx.shape.rank then
    (.call (.reshape (keptDims axes sx.shape.dims)) [a] ⟨out.dtype, ⟨keptDims axes sx.shape.dims⟩⟩,
      ⟨out.dtype, ⟨keptDims axes sx.shape.dims⟩⟩)
  else (a, out)

/-- The result of a sum has the elements of its shape with the reduced axes. -/
theorem keptSpec {axes : Option (List Nat)} {keepdims : Bool}
    (hout : out = ⟨sx.dtype, ⟨reducedDims axes keepdims sx.shape.dims⟩⟩) :
    (Operation.reshape (keptDims axes sx.shape.dims)).resultSpec [out] none =
      .ok ⟨out.dtype, ⟨keptDims axes sx.shape.dims⟩⟩ := by
  refine Operation.reshapeSpec_eq_ok_iff.mpr ⟨out, rfl, ?_, rfl⟩
  rw [hout]
  exact (TensorSpec.elementCount_reduced _ axes keepdims sx.shape.dims).symm

/-- The adjoint of a sum stretches to the operand. -/
theorem keptAdjoint_spec {axes : Option (List Nat)} {keepdims : Bool}
    (hout : out = ⟨sx.dtype, ⟨reducedDims axes keepdims sx.shape.dims⟩⟩)
    (ha : a.IsTensor types out) :
    (keptAdjoint axes sx out a).1.IsTensor types (keptAdjoint axes sx out a).2 ∧
      (keptAdjoint axes sx out a).2.dtype = sx.dtype ∧
      ((keptAdjoint axes sx out a).2.shape.dims = [] ∨
        (keptAdjoint axes sx out a).2.shape.dims = keptDims axes sx.shape.dims) := by
  rw [keptAdjoint]
  split
  · exact ⟨(apply_one _ ha (keptSpec hout)).2, by rw [hout], .inr rfl⟩
  · next hrank =>
    refine ⟨ha, by rw [hout], ?_⟩
    rw [hout] at hrank ⊢
    by_cases h0 : (reducedDims axes keepdims sx.shape.dims).length = 0
    · exact .inl (List.length_eq_zero_iff.mp h0)
    · refine .inr (Kernel.reducedDims_eq_keptDims ?_)
      by_contra hne
      exact hrank ⟨h0, hne⟩

theorem stretches_nil (dims : List Nat) : Stretches [] dims := by
  refine ⟨Nat.zero_le _, ?_⟩
  rw [List.length_nil, Nat.sub_zero, List.drop_length]
  exact .nil

theorem sum_eq_ok {axes : Option (List Nat)} {keepdims : Bool} (hx : x.IsTensor types sx)
    (hout : out = ⟨sx.dtype, ⟨reducedDims axes keepdims sx.shape.dims⟩⟩)
    (ha : a.IsTensor types out) :
    sum ⟨.sum axes keepdims, [x], r, out⟩ a =
        .ok [some (.call .multiply [(keptAdjoint axes sx out a).1, .call .onesLike [x] sx] sx)] ∧
      (call .multiply [(keptAdjoint axes sx out a).1, .call .onesLike [x] sx] sx).IsTensor
        types sx := by
  obtain ⟨hkept, hd, hdims⟩ := keptAdjoint_spec hout ha
  have hs : Stretches (keptAdjoint axes sx out a).2.shape.dims sx.shape.dims := by
    rcases hdims with h | h
    · rw [h]
      exact stretches_nil _
    · rw [h]
      exact Kernel.stretches_keptDims axes _
  obtain ⟨hones, htones⟩ := apply_one .onesLike hx rfl
  obtain ⟨happly, ht⟩ := apply_two .multiply hkept htones
    (Operation.broadcastSpec_stretched hd hs)
  refine ⟨?_, ht⟩
  have hfinish : (ofShape (apply .onesLike [x]) >>= fun ones =>
      ofShape (apply .multiply [(keptAdjoint axes sx out a).1, ones]) >>= fun p =>
        Except.ok [some p]) = Except.ok [some (.call .multiply
          [(keptAdjoint axes sx out a).1, .call .onesLike [x] sx] sx)] := by
    rw [hones]
    show (ofShape (apply .multiply [_, .call .onesLike [x] sx]) >>= fun p =>
      Except.ok [some p]) = _
    rw [happly]
    rfl
  unfold sum
  rw [show CallSite.single ⟨.sum axes keepdims, [x], r, out⟩ = .ok x from rfl, ok_bind,
    argSpec_eq_ok hx]
  show (if out.shape.rank ≠ 0 ∧ out.shape.rank ≠ sx.shape.rank then
      ofShape (apply (.reshape (keptDims axes sx.shape.dims)) [a]) >>= fun kept =>
        ofShape (apply .onesLike [x]) >>= fun ones =>
          ofShape (apply .multiply [kept, ones]) >>= fun p => Except.ok [some p]
    else
      ofShape (apply .onesLike [x]) >>= fun ones =>
        ofShape (apply .multiply [a, ones]) >>= fun p => Except.ok [some p]) = _
  by_cases hc : out.shape.rank ≠ 0 ∧ out.shape.rank ≠ sx.shape.rank
  · have hkeep : (keptAdjoint axes sx out a).1 = .call (.reshape (keptDims axes sx.shape.dims)) [a]
        ⟨out.dtype, ⟨keptDims axes sx.shape.dims⟩⟩ := by
      rw [keptAdjoint, if_pos hc]
    rw [hkeep] at hfinish ⊢
    rw [if_pos hc, (apply_one _ ha (keptSpec hout)).1]
    exact hfinish
  · have hkeep : (keptAdjoint axes sx out a).1 = a := by
      rw [keptAdjoint, if_neg hc]
    rw [hkeep] at hfinish ⊢
    rw [if_neg hc]
    exact hfinish

theorem collapseSumLike_eq_ok (hx : x.IsTensor types sx) (ha : a.IsTensor types out)
    (hd : out.dtype = sx.dtype) (hs : Stretches out.shape.dims sx.shape.dims) :
    collapseSumLike ⟨op, [x, y], r, out⟩ a =
        .ok [some (.call .multiply [a, .call .onesLike [x] sx] sx), none] ∧
      (call .multiply [a, .call .onesLike [x] sx] sx).IsTensor types sx := by
  obtain ⟨hones, htones⟩ := apply_one .onesLike hx rfl
  obtain ⟨happly, ht⟩ := apply_two .multiply ha htones (Operation.broadcastSpec_stretched hd hs)
  refine ⟨?_, ht⟩
  show (ofShape (apply .onesLike [x]) >>= fun ones =>
    ofShape (apply .multiply [a, ones]) >>= fun p => Except.ok [some p, none]) = _
  rw [hones]
  show (ofShape (apply .multiply [a, .call .onesLike [x] sx]) >>= fun p =>
    Except.ok [some p, none]) = _
  rw [happly]
  rfl

/-- The adjoint of the logits: softmax minus labels, times the adjoint of the loss. -/
def logitsAdjoint (sx : TensorSpec) (x y a : Adjoint) : Adjoint :=
  .call .multiply
    [.call .subtract [.call (.softmax (sx.shape.rank - 1)) [x] sx, y] sx, a] sx

theorem softmaxCrossEntropy_eq_ok (hx : x.IsTensor types sx) (hy : y.IsTensor types sy)
    (ha : a.IsTensor types out) (hd : sx.dtype = sy.dtype) (he : sx.shape = sy.shape)
    (hr : sx.shape.rank ≠ 0) (hout : out = .scalar sx.dtype) :
    softmaxCrossEntropy ⟨op, [x, y], r, out⟩ a = .ok [some (logitsAdjoint sx x y a), none] ∧
      (logitsAdjoint sx x y a).IsTensor types sx := by
  have hspec : (Operation.softmax (sx.shape.rank - 1)).resultSpec [sx] none = .ok sx :=
    Operation.softmaxSpec_eq_ok_iff.mpr ⟨rfl, by omega⟩
  obtain ⟨hprob, htprob⟩ := apply_one _ hx hspec
  obtain ⟨hdiff, htdiff⟩ := apply_two .subtract htprob hy
    (Operation.broadcastSpec_of_stretches hd.symm (by rw [he]; exact stretches_self _))
  obtain ⟨happly, ht⟩ := apply_two .multiply htdiff ha
    (Operation.broadcastSpec_of_stretches (by rw [hout]; rfl) (by rw [hout]; exact stretches_nil _))
  refine ⟨?_, ht⟩
  show (CallSite.argSpec ⟨op, [x, y], r, out⟩ 0 >>= fun input =>
    ofShape (apply (.softmax (input.shape.rank - 1)) [x]) >>= fun p =>
      ofShape (apply .subtract [p, y]) >>= fun d =>
        ofShape (apply .multiply [d, a]) >>= fun q => Except.ok [some q, none]) = _
  rw [argSpec_eq_ok hx]
  show (ofShape (apply (.softmax (sx.shape.rank - 1)) [x]) >>= fun p =>
      ofShape (apply .subtract [p, y]) >>= fun d =>
        ofShape (apply .multiply [d, a]) >>= fun q => Except.ok [some q, none]) = _
  rw [hprob]
  show (ofShape (apply .subtract [_, y]) >>= fun d =>
        ofShape (apply .multiply [d, a]) >>= fun q => Except.ok [some q, none]) = _
  rw [hdiff]
  show (ofShape (apply .multiply [_, a]) >>= fun q => Except.ok [some q, none]) = _
  rw [happly]
  rfl

end GradientRule

/-! ## Fitting partials to operands -/

namespace SweepContext

open Adjoint

variable {types : TypeMap} {op : Operation} {a p arg : Adjoint} {s out : TensorSpec}

/-- A partial of the spec of the result, collapsed to an operand that was stretched. -/
def fitted (out s : TensorSpec) (p arg : Adjoint) : Adjoint :=
  if out = s then p else .call .collapseSumLike [p, arg] s

theorem isTensor_fitted (hp : p.IsTensor types out) (harg : arg.IsTensor types s)
    (hd : s.dtype = out.dtype) (hs : Stretches s.shape.dims out.shape.dims) :
    (fitted out s p arg).IsTensor types s ∧
      (p.isZero = false → (fitted out s p arg).isZero = false) := by
  rw [fitted]
  split
  · next he => exact ⟨he ▸ hp, id⟩
  · exact ⟨(apply_two .collapseSumLike hp harg (Operation.collapseSpec_of_stretches hd hs)).2,
      fun _ => rfl⟩

/-- A partial of the spec of the operand is left as it is. -/
theorem fitPartial_eq_ok (c : SweepContext) (op : Operation) (hp : p.IsTensor types s)
    (harg : arg.IsTensor types s) : c.fitPartial op arg p = .ok p := by
  have hspec : p.spec? = arg.spec? := (spec?_of_type hp.2).trans (spec?_of_type harg.2).symm
  have hsame : ¬(op.broadcasts && p.spec? != arg.spec?) = true := by
    rw [hspec, bne_self_eq_false, Bool.and_false]
    exact Bool.false_ne_true
  rw [fitPartial, if_neg hsame]
  exact if_pos hspec

/-- **A partial of the spec of the result** is collapsed where the operand was stretched. -/
theorem fitPartial_stretched (c : SweepContext) (hop : op.broadcasts = true)
    (hp : p.IsTensor types out) (harg : arg.IsTensor types s) (hd : s.dtype = out.dtype)
    (hs : Stretches s.shape.dims out.shape.dims) :
    c.fitPartial op arg p = .ok (fitted out s p arg) := by
  rw [fitted]
  split
  · next he => exact fitPartial_eq_ok c op (he ▸ hp) harg
  · next hne =>
    have hbranch : (op.broadcasts && p.spec? != arg.spec?) = true := by
      rw [hop, Bool.true_and, spec?_of_type hp.2, spec?_of_type harg.2, bne_iff_ne]
      exact fun he => hne (Option.some.inj he)
    obtain ⟨happly, _⟩ :=
      apply_two .collapseSumLike hp harg (Operation.collapseSpec_of_stretches hd hs)
    rw [fitPartial, if_pos hbranch]
    show ((apply .collapseSumLike [p, arg]).mapError _ >>= fun fit =>
      if fit.spec? = arg.spec? then Except.ok fit else _) = _
    rw [happly]
    exact if_pos (spec?_of_type harg.2).symm

/-- **`partials`** -- what the operands of a call receive from the adjoint of its result, in
their own shapes. -/
def partials (op : Operation) (specs : List TensorSpec) (out : TensorSpec) (args : List Adjoint)
    (r a : Adjoint) : List (Option Adjoint) :=
  match op, specs, args with
  | .add, [sx, sy], [x, y] => [some (fitted out sx a x), some (fitted out sy a y)]
  | .subtract, [sx, sy], [x, y] =>
    [some (fitted out sx a x), some (fitted out sy (.call .negative [a] out) y)]
  | .multiply, [sx, sy], [x, y] =>
    [some (fitted out sx (.call .multiply [a, y] out) x),
      some (fitted out sy (.call .multiply [a, x] out) y)]
  | .divide, [sx, sy], [x, y] =>
    [some (fitted out sx (.call .divide [a, y] out) x),
      some (fitted out sy
        (.call .negative [.call .divide [.call .multiply [a, r] out, y] out] out) y)]
  | .negative, _, _ => [some (.call .negative [a] out)]
  | .exp, _, _ => [some (.call .multiply [a, r] out)]
  | .log, _, [x] => [some (.call .divide [a, x] out)]
  | .matmul, [⟨d, ⟨[m, k]⟩⟩, ⟨_, ⟨[_, n]⟩⟩], [x, y] =>
    [some (.call .matmul [a, .call (.transpose [1, 0]) [y] ⟨d, ⟨[n, k]⟩⟩] ⟨d, ⟨[m, k]⟩⟩),
      some (.call .matmul [.call (.transpose [1, 0]) [x] ⟨d, ⟨[k, m]⟩⟩, a] ⟨d, ⟨[k, n]⟩⟩)]
  | .transpose perm, [sx], _ => [some (.call (.transpose (inversePermutation perm)) [a] sx)]
  | .reshape _, [sx], _ => [some (.call (.reshape sx.shape.dims) [a] sx)]
  | .sum axes _, [sx], [x] =>
    [some (.call .multiply
      [(GradientRule.keptAdjoint axes sx out a).1, .call .onesLike [x] sx] sx)]
  | .softmaxCrossEntropy, sx :: _, [x, y] => [some (GradientRule.logitsAdjoint sx x y a), none]
  | .collapseSumLike, [sx, _], [x, _] =>
    [some (.call .multiply [a, .call .onesLike [x] sx] sx), none]
  | _, _, args => args.map fun _ => none

/-- What the rule of a call has for an operand: a partial that fits it and is not known to
be zero if the operand receives one, and nothing otherwise. -/
def Suits (c : SweepContext) (types : TypeMap) (op : Operation) (index : Nat) (arg : Adjoint)
    (s : TensorSpec) : Option Adjoint → Option Adjoint → Prop
  | none, none => op.receives index = false
  | some p, some fit => op.receives index = true ∧ c.fitPartial op arg p = .ok fit ∧
    fit.IsTensor types s ∧ fit.isZero = false
  | _, _ => False

theorem suits_of_type (c : SweepContext) {index : Nat} (hr : op.receives index = true)
    (hp : p.IsTensor types s) (harg : arg.IsTensor types s) (hz : p.isZero = false) :
    c.Suits types op index arg s (some p) (some p) :=
  ⟨hr, fitPartial_eq_ok c op hp harg, hp, hz⟩

theorem suits_stretched (c : SweepContext) {index : Nat} (hop : op.broadcasts = true)
    (hr : op.receives index = true) (hp : p.IsTensor types out) (harg : arg.IsTensor types s)
    (hd : s.dtype = out.dtype) (hs : Stretches s.shape.dims out.shape.dims)
    (hz : p.isZero = false) :
    c.Suits types op index arg s (some p) (some (fitted out s p arg)) := by
  obtain ⟨ht, hfz⟩ := isTensor_fitted hp harg hd hs
  exact ⟨hr, fitPartial_stretched c hop hp harg hd hs, ht, hfz hz⟩

/-- Three lists are suited to each other: the operands of a call, its partials, and what the
operands receive. -/
inductive SuitAll (c : SweepContext) (types : TypeMap) (op : Operation) :
    Nat → List Adjoint → List TensorSpec → List (Option Adjoint) → List (Option Adjoint) → Prop
  | nil {index : Nat} : SuitAll c types op index [] [] [] []
  | cons {index : Nat} {arg : Adjoint} {s : TensorSpec} {p fit : Option Adjoint}
      {args : List Adjoint} {specs : List TensorSpec} {ps fits : List (Option Adjoint)}
      (head : c.Suits types op index arg s p fit)
      (tail : SuitAll c types op (index + 1) args specs ps fits) :
      SuitAll c types op index (arg :: args) (s :: specs) (p :: ps) (fit :: fits)

theorem SuitAll.length_eq {c : SweepContext} {index : Nat} {args : List Adjoint}
    {specs : List TensorSpec} {ps fits : List (Option Adjoint)}
    (h : c.SuitAll types op index args specs ps fits) : ps.length = specs.length := by
  induction h with
  | nil => rfl
  | cons _ _ ih => exact congrArg Nat.succ ih

theorem suitAll_none (c : SweepContext) (hr : ∀ index, op.receives index = false)
    {args : List Adjoint} {specs : List TensorSpec}
    (h : List.Forall₂ (Adjoint.IsTensor types) args specs) (index : Nat) :
    c.SuitAll types op index args specs (args.map fun _ => none) (args.map fun _ => none) := by
  induction h generalizing index with
  | nil => exact .nil
  | cons _ _ ih => exact .cons (hr index) (ih (index + 1))

/-- **`Applies`** -- the rule of an operator applies to a call, and what it has for the operands
is suited to them. -/
def Applies (c : SweepContext) (types : TypeMap) (op : Operation) (specs : List TensorSpec)
    (out : TensorSpec) (args : List Adjoint) (r a : Adjoint) : Prop :=
  ∃ rule ps, GradientRule.builtin.lookup op.name = some rule ∧
    rule ⟨op, args, r, out⟩ a = .ok ps ∧
      c.SuitAll types op 0 args specs ps (partials op specs out args r a)

/-! ### Each rule -/

section Rules

variable (c : SweepContext) {a r x y : Adjoint} {sx sy out : TensorSpec}

theorem applies_add (hx : x.IsTensor types sx) (hy : y.IsTensor types sy)
    (hdx : sx.dtype = out.dtype) (hdy : sy.dtype = out.dtype)
    (hsx : Stretches sx.shape.dims out.shape.dims) (hsy : Stretches sy.shape.dims out.shape.dims)
    (ha : a.IsTensor types out) (hz : a.isZero = false) :
    c.Applies types .add [sx, sy] out [x, y] r a :=
  ⟨_, _, rfl, GradientRule.add_eq_ok,
    .cons (suits_stretched c rfl rfl ha hx hdx hsx hz)
      (.cons (suits_stretched c rfl rfl ha hy hdy hsy hz) .nil)⟩

theorem applies_subtract (hx : x.IsTensor types sx) (hy : y.IsTensor types sy)
    (hdx : sx.dtype = out.dtype) (hdy : sy.dtype = out.dtype)
    (hsx : Stretches sx.shape.dims out.shape.dims) (hsy : Stretches sy.shape.dims out.shape.dims)
    (ha : a.IsTensor types out) (hz : a.isZero = false) :
    c.Applies types .subtract [sx, sy] out [x, y] r a := by
  obtain ⟨hrule, hneg⟩ := GradientRule.subtract_eq_ok ha
  exact ⟨_, _, rfl, hrule,
    .cons (suits_stretched c rfl rfl ha hx hdx hsx hz)
      (.cons (suits_stretched c rfl rfl hneg hy hdy hsy rfl) .nil)⟩

theorem applies_multiply (hx : x.IsTensor types sx) (hy : y.IsTensor types sy)
    (hdx : sx.dtype = out.dtype) (hdy : sy.dtype = out.dtype)
    (hsx : Stretches sx.shape.dims out.shape.dims) (hsy : Stretches sy.shape.dims out.shape.dims)
    (ha : a.IsTensor types out) : c.Applies types .multiply [sx, sy] out [x, y] r a := by
  obtain ⟨hrule, hleft, hright⟩ := GradientRule.multiply_eq_ok ha hx hy hdx hdy hsx hsy
  exact ⟨_, _, rfl, hrule,
    .cons (suits_stretched c rfl rfl hleft hx hdx hsx rfl)
      (.cons (suits_stretched c rfl rfl hright hy hdy hsy rfl) .nil)⟩

theorem applies_divide (hx : x.IsTensor types sx) (hy : y.IsTensor types sy)
    (hdx : sx.dtype = out.dtype) (hdy : sy.dtype = out.dtype)
    (hsx : Stretches sx.shape.dims out.shape.dims) (hsy : Stretches sy.shape.dims out.shape.dims)
    (ha : a.IsTensor types out) (hr : r.IsTensor types out) :
    c.Applies types .divide [sx, sy] out [x, y] r a := by
  obtain ⟨hrule, hleft, hright⟩ := GradientRule.divide_eq_ok ha hr hy hdy hsy
  exact ⟨_, _, rfl, hrule,
    .cons (suits_stretched c rfl rfl hleft hx hdx hsx rfl)
      (.cons (suits_stretched c rfl rfl hright hy hdy hsy rfl) .nil)⟩

theorem applies_negative (hx : x.IsTensor types out) (ha : a.IsTensor types out) :
    c.Applies types .negative [out] out [x] r a := by
  obtain ⟨hrule, hp⟩ := GradientRule.negative_eq_ok ha
  exact ⟨_, _, rfl, hrule, .cons (suits_of_type c rfl hp hx rfl) .nil⟩

theorem applies_exp (hx : x.IsTensor types out) (ha : a.IsTensor types out)
    (hr : r.IsTensor types out) : c.Applies types .exp [out] out [x] r a := by
  obtain ⟨hrule, hp⟩ := GradientRule.exp_eq_ok ha hr
  exact ⟨_, _, rfl, hrule, .cons (suits_of_type c rfl hp hx rfl) .nil⟩

theorem applies_log (hx : x.IsTensor types out) (ha : a.IsTensor types out) :
    c.Applies types .log [out] out [x] r a := by
  obtain ⟨hrule, hp⟩ := GradientRule.log_eq_ok ha hx
  exact ⟨_, _, rfl, hrule, .cons (suits_of_type c rfl hp hx rfl) .nil⟩

theorem applies_matmul {d : DType} {m k n : Nat} (hx : x.IsTensor types ⟨d, ⟨[m, k]⟩⟩)
    (hy : y.IsTensor types ⟨d, ⟨[k, n]⟩⟩) (ha : a.IsTensor types ⟨d, ⟨[m, n]⟩⟩) :
    c.Applies types .matmul [⟨d, ⟨[m, k]⟩⟩, ⟨d, ⟨[k, n]⟩⟩] ⟨d, ⟨[m, n]⟩⟩ [x, y] r a := by
  obtain ⟨hrule, hleft, hright⟩ := GradientRule.matmul_eq_ok ha hx hy
  exact ⟨_, _, rfl, hrule,
    .cons (suits_of_type c rfl hleft hx rfl) (.cons (suits_of_type c rfl hright hy rfl) .nil)⟩

theorem applies_transpose {perm : List Nat} (hperm : IsPermutation perm sx.shape.rank)
    (hout : out = ⟨sx.dtype, ⟨permuted sx.shape.dims perm⟩⟩) (hx : x.IsTensor types sx)
    (ha : a.IsTensor types out) : c.Applies types (.transpose perm) [sx] out [x] r a := by
  obtain ⟨hrule, hp⟩ := GradientRule.transpose_eq_ok hperm hout ha
  exact ⟨_, _, rfl, hrule, .cons (suits_of_type c rfl hp hx rfl) .nil⟩

theorem applies_reshape {dims : List Nat} (hcount : out.elementCount = sx.elementCount)
    (hd : out.dtype = sx.dtype) (hx : x.IsTensor types sx) (ha : a.IsTensor types out) :
    c.Applies types (.reshape dims) [sx] out [x] r a := by
  obtain ⟨hrule, hp⟩ := GradientRule.reshape_eq_ok hx hcount hd ha
  exact ⟨_, _, rfl, hrule, .cons (suits_of_type c rfl hp hx rfl) .nil⟩

theorem applies_sum {axes : Option (List Nat)} {keepdims : Bool}
    (hout : out = ⟨sx.dtype, ⟨reducedDims axes keepdims sx.shape.dims⟩⟩)
    (hx : x.IsTensor types sx) (ha : a.IsTensor types out) :
    c.Applies types (.sum axes keepdims) [sx] out [x] r a := by
  obtain ⟨hrule, hp⟩ := GradientRule.sum_eq_ok hx hout ha
  exact ⟨_, _, rfl, hrule, .cons (suits_of_type c rfl hp hx rfl) .nil⟩

theorem applies_softmaxCrossEntropy (hx : x.IsTensor types sx) (hy : y.IsTensor types sy)
    (hd : sx.dtype = sy.dtype) (he : sx.shape = sy.shape) (hrank : sx.shape.rank ≠ 0)
    (hout : out = .scalar sx.dtype) (ha : a.IsTensor types out) :
    c.Applies types .softmaxCrossEntropy [sx, sy] out [x, y] r a := by
  obtain ⟨hrule, hp⟩ := GradientRule.softmaxCrossEntropy_eq_ok hx hy ha hd he hrank hout
  exact ⟨_, _, rfl, hrule, .cons (suits_of_type c rfl hp hx rfl) (.cons rfl .nil)⟩

theorem applies_collapseSumLike (hd : sx.dtype = out.dtype)
    (hst : Stretches out.shape.dims sx.shape.dims) (hx : x.IsTensor types sx)
    (ha : a.IsTensor types out) :
    c.Applies types .collapseSumLike [sx, out] out [x, y] r a := by
  obtain ⟨hrule, hp⟩ := GradientRule.collapseSumLike_eq_ok hx ha hd.symm hst
  exact ⟨_, _, rfl, hrule, .cons (suits_of_type c rfl hp hx rfl) (.cons rfl .nil)⟩

end Rules

/-- **Every rule applies** to a typed call of its operator, and what it has for the operands
is suited to them. -/
theorem exists_partials (c : SweepContext) {op : Operation} {specs : List TensorSpec}
    {args : List Adjoint} {a r : Adjoint} {out : TensorSpec} (hop : op.isCustom = false)
    (hsoft : ∀ axis, op ≠ .softmax axis)
    (ht : op.resultSpec specs (some (.tensor out)) = .ok out)
    (hargs : List.Forall₂ (Adjoint.IsTensor types) args specs) (ha : a.IsTensor types out)
    (hz : a.isZero = false) (hr : r.IsTensor types out) :
    c.Applies types op specs out args r a := by
  have single : ∀ {sx}, specs = [sx] → ∃ x, args = [x] ∧ x.IsTensor types sx :=
    fun hs => forall₂_singleton_right_iff.mp (hs ▸ hargs)
  have pair : ∀ {sx sy}, specs = [sx, sy] →
      ∃ x y, args = [x, y] ∧ x.IsTensor types sx ∧ y.IsTensor types sy :=
    fun hs => forall₂_pair_right_iff.mp (hs ▸ hargs)
  cases op with
  | customCall target => cases hop
  | softmax axis => exact absurd rfl (hsoft axis)
  | add =>
    obtain ⟨sx, sy, rfl, hdx, hdy, hsx, hsy⟩ := Operation.exists_of_broadcastSpec ht
    obtain ⟨x, y, rfl, hx, hy⟩ := pair rfl
    exact applies_add c hx hy hdx hdy hsx hsy ha hz
  | subtract =>
    obtain ⟨sx, sy, rfl, hdx, hdy, hsx, hsy⟩ := Operation.exists_of_broadcastSpec ht
    obtain ⟨x, y, rfl, hx, hy⟩ := pair rfl
    exact applies_subtract c hx hy hdx hdy hsx hsy ha hz
  | multiply =>
    obtain ⟨sx, sy, rfl, hdx, hdy, hsx, hsy⟩ := Operation.exists_of_broadcastSpec ht
    obtain ⟨x, y, rfl, hx, hy⟩ := pair rfl
    exact applies_multiply c hx hy hdx hdy hsx hsy ha
  | divide =>
    obtain ⟨sx, sy, rfl, hdx, hdy, hsx, hsy⟩ := Operation.exists_of_broadcastSpec ht
    obtain ⟨x, y, rfl, hx, hy⟩ := pair rfl
    exact applies_divide c hx hy hdx hdy hsx hsy ha hr
  | negative =>
    obtain rfl := Operation.single_eq_ok_iff.mp ht
    obtain ⟨x, rfl, hx⟩ := single rfl
    exact applies_negative c hx ha
  | exp =>
    obtain rfl := Operation.single_eq_ok_iff.mp ht
    obtain ⟨x, rfl, hx⟩ := single rfl
    exact applies_exp c hx ha hr
  | log =>
    obtain rfl := Operation.single_eq_ok_iff.mp ht
    obtain ⟨x, rfl, hx⟩ := single rfl
    exact applies_log c hx ha
  | matmul =>
    obtain ⟨⟨d, ⟨_⟩⟩, ⟨_, ⟨_⟩⟩, m, k, n, rfl, rfl, rfl, rfl, rfl⟩ :=
      Operation.matmulSpec_eq_ok_iff.mp ht
    obtain ⟨x, y, rfl, hx, hy⟩ := pair rfl
    exact applies_matmul c hx hy ha
  | transpose perm =>
    obtain ⟨sx, rfl, hperm, hout⟩ := Operation.transposeSpec_eq_ok_iff.mp ht
    obtain ⟨x, rfl, hx⟩ := single rfl
    exact applies_transpose c hperm hout hx ha
  | reshape dims =>
    obtain ⟨sx, rfl, hcount, hout⟩ := Operation.reshapeSpec_eq_ok_iff.mp ht
    obtain ⟨x, rfl, hx⟩ := single rfl
    exact applies_reshape c (hout ▸ hcount) (hout ▸ rfl) hx ha
  | sum axes keepdims =>
    obtain ⟨sx, rfl, _, hout⟩ := Operation.sumSpec_eq_ok_iff.mp ht
    obtain ⟨x, rfl, hx⟩ := single rfl
    exact applies_sum c hout hx ha
  | softmaxCrossEntropy =>
    obtain ⟨sx, sy, rfl, hd, he, hrank, hout⟩ := Operation.crossEntropySpec_eq_ok_iff.mp ht
    obtain ⟨x, y, rfl, hx, hy⟩ := pair rfl
    exact applies_softmaxCrossEntropy c hx hy hd he hrank hout ha
  | ones => exact ⟨_, _, rfl, rfl, suitAll_none c (fun _ => rfl) hargs 0⟩
  | zeros => exact ⟨_, _, rfl, rfl, suitAll_none c (fun _ => rfl) hargs 0⟩
  | onesLike => exact ⟨_, _, rfl, rfl, suitAll_none c (fun _ => rfl) hargs 0⟩
  | zerosLike => exact ⟨_, _, rfl, rfl, suitAll_none c (fun _ => rfl) hargs 0⟩
  | collapseSumLike =>
    obtain ⟨sx, rfl, hd, hb⟩ := Operation.collapseSpec_eq_ok_iff.mp ht
    obtain ⟨x, y, rfl, hx, hy⟩ := pair rfl
    exact applies_collapseSumLike c hd (stretches_of_broadcast? hb).2 hx ha

end SweepContext

end TensorGraph
