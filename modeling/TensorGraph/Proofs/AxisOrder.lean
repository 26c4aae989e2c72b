/-
# TensorGraph.Proofs.AxisOrder -- a transposition and the way back

A transposition by `perm` has at coordinates `c` the element of its operand whose coordinate on
axis `perm[a]` is `c[a]`. The coordinates of that element are those of the result in the order of
the inverse permutation, so a transposition by the inverse puts every element back where it was.
The types follow: the extents of the result are the operand's in the order of `perm`, and the
inverse restores these as well.
-/
import TensorGraph.Proofs.WordKernels

namespace TensorGraph

/-! ## Coordinates of the operand -/

/-- **`Selects`** -- coordinates `source` of an operand have on axis `perm[a]` what coordinates
`coords` of its transposition have on axis `a`. -/
def Selects (perm coords source : List Nat) : Prop :=
  ∀ a axis : Nat, perm[a]? = some axis → source[axis]? = coords[a]?

section Inverse

variable {perm : List Nat} {rank : Nat}

/-- The inverse sends each axis that the permutation names back to its position. -/
theorem inverse_of_getElem? (h : IsPermutation perm rank) {i axis : Nat}
    (hi : perm[i]? = some axis) : (inversePermutation perm)[axis]? = some i := by
  have hm : axis < rank := h.2.2 axis (List.mem_of_getElem? hi)
  rw [getElem?_inversePermutation h hm, idxOf_of_getElem? h hi]

/-- **The coordinates of the operand** are those of the transposition in the order of the
inverse. -/
theorem selects_iff (h : IsPermutation perm rank) {b c : List Nat} (hb : b.length = rank)
    (hc : c.length = rank) : Selects perm c b ↔ b = permuted c (inversePermutation perm) := by
  have h' := isPermutation_inverse h
  constructor
  · intro hsel
    apply List.ext_getElem?
    intro axis
    by_cases ha : axis < rank
    · rw [getElem?_permuted h' hc (getElem?_inversePermutation h ha)]
      exact hsel _ axis (getElem?_idxOf h ha)
    · rw [List.getElem?_eq_none (by omega),
        List.getElem?_eq_none (by rw [length_permuted h' hc]; omega)]
  · rintro rfl a axis ha
    exact getElem?_permuted h' hc (inverse_of_getElem? h ha)

/-- **Where coordinates of a transposition are read.** -/
theorem transposedPlace_dot (h : IsPermutation perm rank) {dims c : List Nat}
    (hl : dims.length = rank) (hc : List.Forall₂ (· < ·) c (permuted dims perm)) :
    transposedPlace dims perm (dot c (strides (permuted dims perm))) =
      dot (permuted c (inversePermutation perm)) (strides dims) := by
  have hclen : c.length = rank := hc.length_eq.trans (length_permuted h hl)
  rw [transposedPlace, coordinates_dot hc, dot_permuted h hclen (by rw [length_strides, hl])]

/-- The coordinates that are selected lie within the operand. -/
theorem forall₂_selected (h : IsPermutation perm rank) {dims c : List Nat}
    (hl : dims.length = rank) (hc : List.Forall₂ (· < ·) c (permuted dims perm)) :
    List.Forall₂ (· < ·) (permuted c (inversePermutation perm)) dims := by
  have hclen : c.length = rank := hc.length_eq.trans (length_permuted h hl)
  have hperm := forall₂_permuted (isPermutation_inverse h) hclen hc
  rwa [permuted_permuted_inverse h hl] at hperm

end Inverse

/-! ## The kernel -/

namespace Kernel

variable {α : Type} {perm : List Nat}

/-- **A transposition** has each of its elements from one place of the operand. -/
theorem exists_transpose {x : Tensor α} {sx out : TensorSpec} (hx : x.Fits sx)
    (h : IsPermutation perm sx.shape.rank)
    (hout : out.shape.dims = permuted sx.shape.dims perm) :
    ∃ y, transpose perm [x] out = .ok y ∧ y.Fits out ∧
      ∀ i < out.elementCount, y.data[i]? = x.data[transposedPlace sx.shape.dims perm i]? := by
  have hcount : out.elementCount = sx.elementCount := by
    rw [TensorSpec.elementCount, Shape.elementCount, hout]
    exact prod_permuted h rfl
  rcases Nat.eq_zero_or_pos out.elementCount with h0 | hpos
  · -- there is no element to be read, so the kernel makes an empty tensor
    refine ⟨⟨out, #[]⟩, ?_, ⟨rfl, h0.symm⟩, ?_⟩
    · show (if perm.length = x.spec.shape.dims.length then _ else _) = _
      rw [hx.1]
      show (if perm.length = sx.shape.rank then _ else _) = _
      have hnone : Sizes.exact.product out.shape.dims = .ok 0 := congrArg Except.ok h0
      rw [if_pos h.1, hnone]
      exact Tensor.ofData_eq_ok_iff.mpr ⟨h0.symm, rfl⟩
    · intro i hi
      omega
  · have hposx : 0 < sx.shape.dims.prod := by
      rw [hcount] at hpos
      exact hpos
    have hdata : 0 < x.data.size := by
      rw [hx.2]
      exact hposx
    refine ⟨_, transpose_eq_ok hx h hout x.data[0], Tensor.fits_tabulate _ rfl, ?_⟩
    intro i hi
    have hlt : transposedPlace sx.shape.dims perm i < x.data.size := by
      rw [hx.2]
      exact (coordinates_transposedPlace h rfl hposx i).1
    rw [getElem?_tabulate, if_pos hi, getElem?_eq_some_getD hlt x.data[0]]

/-- On the way back, operand and result change places. -/
theorem inverse_spec {sx out : TensorSpec} (h : IsPermutation perm sx.shape.rank)
    (hout : out.shape.dims = permuted sx.shape.dims perm) :
    IsPermutation (inversePermutation perm) out.shape.rank ∧
      sx.shape.dims = permuted out.shape.dims (inversePermutation perm) ∧
      out.elementCount = sx.elementCount := by
  refine ⟨?_, ?_, ?_⟩
  · have hrank : out.shape.rank = sx.shape.rank := by
      rw [Shape.rank, hout]
      exact length_permuted h rfl
    rw [hrank]
    exact isPermutation_inverse h
  · rw [hout, permuted_permuted_inverse h rfl]
  · rw [TensorSpec.elementCount, Shape.elementCount, hout]
    exact prod_permuted h rfl

/-- **The inverse undoes a transposition.** -/
theorem transpose_restores {x y : Tensor α} {sx out : TensorSpec} (hx : x.Fits sx)
    (h : IsPermutation perm sx.shape.rank)
    (hout : out.shape.dims = permuted sx.shape.dims perm)
    (hy : transpose perm [x] out = .ok y) :
    transpose (inversePermutation perm) [y] sx = .ok x := by
  obtain ⟨hinv, hback, hcount⟩ := inverse_spec h hout
  obtain ⟨y', hy', hfits, hread⟩ := exists_transpose hx h hout
  obtain rfl := Except.ok.inj (hy.symm.trans hy')
  obtain ⟨w, hw, hwfits, hwread⟩ := exists_transpose hfits hinv hback
  rw [hw]
  refine congrArg Except.ok (hwfits.ext hx ?_)
  intro i hi
  have hpos : 0 < out.elementCount := by
    rw [hcount]
    exact Nat.zero_lt_of_lt hi
  have hlt := (coordinates_transposedPlace hinv rfl hpos i).1
  rw [hwread i hi, hread _ hlt, hout, transposedPlace_of_inverse h rfl hi]

/-- **A transposition places** at coordinates `c` the element of the operand that they select, and
they select only one. -/
theorem exists_selected {x y : Tensor α} {sx out : TensorSpec} (hx : x.Fits sx)
    (h : IsPermutation perm sx.shape.rank)
    (hout : out.shape.dims = permuted sx.shape.dims perm)
    (hy : transpose perm [x] out = .ok y) {c : List Nat}
    (hc : List.Forall₂ (· < ·) c out.shape.dims) :
    ∃ b e, List.Forall₂ (· < ·) b sx.shape.dims ∧ Selects perm c b ∧
      (∀ b', b'.length = b.length → Selects perm c b' → b' = b) ∧
      x.data[dot b (strides sx.shape.dims)]? = some e ∧
      y.data[dot c (strides out.shape.dims)]? = some e := by
  obtain ⟨y', hy', _, hread⟩ := exists_transpose hx h hout
  obtain rfl := Except.ok.inj (hy.symm.trans hy')
  have hplace := hread _ (dot_strides_lt hc)
  rw [hout] at hc hplace ⊢
  have hclen : c.length = sx.shape.rank := hc.length_eq.trans (length_permuted h rfl)
  have hb := forall₂_selected h rfl hc
  have hblen : (permuted c (inversePermutation perm)).length = sx.shape.rank := hb.length_eq
  have hlt : dot (permuted c (inversePermutation perm)) (strides sx.shape.dims) < x.data.size := by
    rw [hx.2]
    exact dot_strides_lt hb
  refine ⟨_, _, hb, (selects_iff h hblen hclen).mpr rfl, ?_, Array.getElem?_eq_getElem hlt, ?_⟩
  · intro b' hb' hsel
    exact (selects_iff h (hb'.trans hblen) hclen).mp hsel
  · rw [hplace, transposedPlace_dot h rfl hc]
    exact Array.getElem?_eq_getElem hlt

/-- The types follow: transposed by the inverse, the result has the type of the operand. -/
theorem resultType_inverse {sx out : TensorSpec} (h : IsPermutation perm sx.shape.rank)
    (hout : out = ⟨sx.dtype, ⟨permuted sx.shape.dims perm⟩⟩) (declared : Option ValueType) :
    (Operation.transpose (inversePermutation perm)).resultType [.tensor out] declared =
      .ok (.tensor sx) := by
  have hrank : out.shape.rank = sx.shape.rank := by
    rw [hout]
    exact length_permuted h rfl
  refine (Operation.resultType_eq_ok_iff rfl).mpr ⟨[out], sx, rfl, ?_, rfl⟩
  refine Operation.transposeSpec_eq_ok_iff.mpr ⟨out, rfl, ?_, ?_⟩
  · rw [hrank]
    exact isPermutation_inverse h
  · rw [hout, permuted_permuted_inverse h rfl]

/-- **With checked words** a tensor is transposed exactly where the trailing extents that its
strides are made of fit, the leading extents of the result fit, and there is room. -/
theorem transpose_checked_iff {x : Tensor α} {sx out : TensorSpec} (hx : x.Fits sx)
    (h : IsPermutation perm sx.shape.rank)
    (hout : out.shape.dims = permuted sx.shape.dims perm) :
    (∃ y, transpose perm [x] out .checked = .ok y) ↔
      TrailingFit sx.shape.dims ∧ LeadingFit out.shape.dims ∧ out.elementCount < 2 ^ 60 := by
  constructor
  · rintro ⟨y, hy⟩
    have hdims : x.dims = sx.shape.dims := congrArg (·.shape.dims) hx.1
    simp only [transpose, single, ok_bind, hdims] at hy
    split at hy
    · obtain ⟨_, hsteps, hy⟩ := bind_eq_ok_iff.mp hy
      obtain ⟨_, hcount, hy⟩ := bind_eq_ok_iff.mp hy
      obtain ⟨hleading, rfl⟩ := Sizes.product_checked_eq_ok_iff.mp hcount
      obtain ⟨_, hroom, -⟩ := bind_eq_ok_iff.mp hy
      exact ⟨(Sizes.strides_checked_eq_ok_iff.mp hsteps).1, hleading,
        Sizes.room_checked_eq_ok_iff.mp hroom⟩
    · cases hy
  · rintro ⟨htrailing, hleading, hroom⟩
    obtain ⟨y, hy, -⟩ := exists_transpose hx h hout
    exact ⟨y, transpose_words .checked perm hx htrailing hleading hroom y hy⟩

/-- **Transposing back restores the tensor.** Wherever a transposition of a tensor has a type, the
inverse of its permutation is a permutation of the same axes, on either side. With checked words
the transposition succeeds exactly where the trailing extents of the tensor and the leading ones
of the result fit and there is room; there, in all sizes alike, it has at coordinates `c` the
element of the tensor that they select. The transposition by the inverse has the type of the
tensor. With checked words it succeeds exactly where the trailing extents of the result and the
leading ones of the tensor fit as well, and there it gives the tensor itself. -/
theorem transpose_inverse {x : Tensor α} (hx : x.data.size = x.spec.elementCount)
    {declared : Option ValueType} {ty : ValueType}
    (h : (Operation.transpose perm).resultType [.tensor x.spec] declared = .ok ty) :
    IsPermutation (inversePermutation perm) x.spec.shape.rank ∧
      (∀ i < x.spec.shape.rank, (perm[i]?.bind fun axis => (inversePermutation perm)[axis]?) =
        some i) ∧
      (∀ j < x.spec.shape.rank, ((inversePermutation perm)[j]?.bind fun i => perm[i]?) =
        some j) ∧
      ∃ out, ty = .tensor out ∧
        ((∃ y, transpose perm [x] out .checked = .ok y) ↔ TrailingFit x.spec.shape.dims ∧
          LeadingFit out.shape.dims ∧ out.elementCount < 2 ^ 60) ∧
        (TrailingFit x.spec.shape.dims → LeadingFit out.shape.dims →
          out.elementCount < 2 ^ 60 →
          ∃ y, (∀ sizes, transpose perm [x] out sizes = .ok y) ∧ y.Fits out ∧
            (∀ c, List.Forall₂ (· < ·) c out.shape.dims →
              ∃ b e, List.Forall₂ (· < ·) b x.spec.shape.dims ∧ Selects perm c b ∧
                (∀ b', b'.length = b.length → Selects perm c b' → b' = b) ∧
                x.data[dot b (strides x.spec.shape.dims)]? = some e ∧
                y.data[dot c (strides out.shape.dims)]? = some e) ∧
            (∀ declared', (Operation.transpose (inversePermutation perm)).resultType
              [.tensor y.spec] declared' = .ok (.tensor x.spec)) ∧
            ((∃ z, transpose (inversePermutation perm) [y] x.spec .checked = .ok z) ↔
              TrailingFit out.shape.dims ∧ LeadingFit x.spec.shape.dims) ∧
            (TrailingFit out.shape.dims → LeadingFit x.spec.shape.dims →
              ∀ sizes, transpose (inversePermutation perm) [y] x.spec sizes = .ok x)) := by
  obtain ⟨specs, out, hspecs, hout, rfl⟩ := (Operation.resultType_eq_ok_iff rfl).mp h
  obtain ⟨sx, rfl, hperm, hspec⟩ := Operation.transposeSpec_eq_ok_iff.mp hout
  obtain rfl : x.spec = sx := by simpa using hspecs
  have hdims : out.shape.dims = permuted x.spec.shape.dims perm := by
    rw [hspec]
  have hfits : x.Fits x.spec := ⟨rfl, hx⟩
  refine ⟨isPermutation_inverse hperm, ?_, ?_, out, rfl,
    transpose_checked_iff hfits hperm hdims, ?_⟩
  · intro i hi
    obtain ⟨axis, ha⟩ := exists_getElem? hperm hi
    rw [ha, Option.bind_some, inverse_of_getElem? hperm ha]
  · intro j hj
    rw [getElem?_inversePermutation hperm hj, Option.bind_some, getElem?_idxOf hperm hj]
  intro htrailing hleading hroom
  obtain ⟨y, hy, hyfits, _⟩ := exists_transpose hfits hperm hdims
  have hback := transpose_restores hfits hperm hdims hy
  obtain ⟨hinv, hdims', hcount⟩ := inverse_spec hperm hdims
  have hroom' : x.spec.elementCount < 2 ^ 60 := hcount ▸ hroom
  refine ⟨y, fun sizes => transpose_words sizes perm hfits htrailing hleading hroom y hy, hyfits,
    ?_, ?_, ?_, ?_⟩
  · intro c hc
    exact exists_selected hfits hperm hdims hy hc
  · intro declared'
    rw [hyfits.1]
    exact resultType_inverse hperm hspec declared'
  · rw [transpose_checked_iff hyfits hinv hdims', and_iff_left hroom']
  · intro htrailing' hleading' sizes
    exact transpose_words sizes _ hyfits htrailing' hleading' hroom' x hback

/-- A cycle of three axes, which is not its own inverse. -/
theorem transpose_inverse_cycle :
    (Operation.transpose [1, 2, 0]).resultType [.tensor ⟨.f32, ⟨[2, 1, 3]⟩⟩] none =
        .ok (.tensor ⟨.f32, ⟨[1, 3, 2]⟩⟩) ∧
      IsPermutation (inversePermutation [1, 2, 0]) 3 ∧ inversePermutation [1, 2, 0] = [2, 0, 1] ∧
      ∃ y, (∀ sizes, transpose [1, 2, 0] [⟨⟨.f32, ⟨[2, 1, 3]⟩⟩, #[1, 2, 3, 4, 5, 6]⟩]
          ⟨.f32, ⟨[1, 3, 2]⟩⟩ sizes = .ok y) ∧ y.data = #[1, 4, 2, 5, 3, 6] ∧
        ∀ sizes, transpose [2, 0, 1] [y] ⟨.f32, ⟨[2, 1, 3]⟩⟩ sizes =
          .ok ⟨⟨.f32, ⟨[2, 1, 3]⟩⟩, #[1, 2, 3, 4, 5, 6]⟩ := by
  have htype : (Operation.transpose [1, 2, 0]).resultType [.tensor ⟨.f32, ⟨[2, 1, 3]⟩⟩] none =
      .ok (.tensor ⟨.f32, ⟨[1, 3, 2]⟩⟩) := by rfl
  have hrun : transpose [1, 2, 0] [⟨⟨.f32, ⟨[2, 1, 3]⟩⟩, #[1, 2, 3, 4, 5, 6]⟩]
      ⟨.f32, ⟨[1, 3, 2]⟩⟩ = .ok ⟨⟨.f32, ⟨[1, 3, 2]⟩⟩, #[1, 4, 2, 5, 3, 6]⟩ := by rfl
  obtain ⟨hperm, _, _, out, hout, _, hwords⟩ := transpose_inverse
    (x := (⟨⟨.f32, ⟨[2, 1, 3]⟩⟩, #[1, 2, 3, 4, 5, 6]⟩ : Tensor Nat)) rfl htype
  cases hout
  obtain ⟨y, hy, _, _, _, _, hback⟩ := hwords (by decide) (by decide) (by decide)
  refine ⟨htype, hperm, rfl, y, hy, ?_, hback (by decide) (by decide)⟩
  exact congrArg Tensor.data (Except.ok.inj ((hy .exact).symm.trans hrun))

/-- **Not every transposition succeeds in words**, and not every way back restores the tensor.
Behind an empty axis the strides overflow where words are checked. Where they wrap around,
`63 * 7905747460161236407` elements count as nine, and two of these are lost on the way. -/
theorem transpose_beyondWords :
    ((Operation.transpose [1, 0, 2]).resultType [.tensor ⟨.f32, ⟨[0, 2 ^ 32, 2 ^ 32]⟩⟩] none =
        .ok (.tensor ⟨.f32, ⟨[2 ^ 32, 0, 2 ^ 32]⟩⟩) ∧
      transpose [1, 0, 2] [(⟨⟨.f32, ⟨[0, 2 ^ 32, 2 ^ 32]⟩⟩, #[]⟩ : Tensor Nat)]
        ⟨.f32, ⟨[2 ^ 32, 0, 2 ^ 32]⟩⟩ .checked = .error (.execution .overflow)) ∧
    (Operation.transpose [2, 1, 0, 3]).resultType
        [.tensor ⟨.f32, ⟨[3, 7905747460161236407, 3, 7]⟩⟩] none =
          .ok (.tensor ⟨.f32, ⟨[3, 7905747460161236407, 3, 7]⟩⟩) ∧
      inversePermutation [2, 1, 0, 3] = [2, 1, 0, 3] ∧
      ∃ x y z : Tensor Nat,
        Tensor.ofData ⟨.f32, ⟨[3, 7905747460161236407, 3, 7]⟩⟩ #[0, 1, 2, 3, 4, 5, 6, 7, 8]
          .wrapping = .ok x ∧
        transpose [2, 1, 0, 3] [x] ⟨.f32, ⟨[3, 7905747460161236407, 3, 7]⟩⟩ .wrapping = .ok y ∧
        transpose [2, 1, 0, 3] [y] ⟨.f32, ⟨[3, 7905747460161236407, 3, 7]⟩⟩ .wrapping = .ok z ∧
        z.data = #[0, 1, 2, 3, 4, 5, 6, 3, 4] :=
  ⟨⟨rfl, rfl⟩, rfl, rfl, _, _, _, rfl, rfl, rfl, rfl⟩

end Kernel

end TensorGraph
