/-
# TensorGraph.Proofs.Collapsing -- the collapse transposes the broadcast

A collapse adds each element of its data to one slot of the target. Its index arithmetic has
nothing in common with that of a broadcast, which copies blocks, yet both follow one map of
places: the slot of a place is where a broadcast of the target to the data reads that place
(`BroadcastReads`). In exact arithmetic the two are therefore transposes of each other; the
collapse takes what is paired with a stretched array back to the array before it was stretched.
-/
import TensorGraph.Proofs.Transposition
import TensorGraph.Proofs.WordKernels

namespace TensorGraph

open Finset (range)

/-! ## Where a broadcast reads -/

/-- **`BroadcastReads`** -- a broadcast has at place `i` of the result the element at place `j` of
the source, whatever elements the source has. -/
def BroadcastReads (source result : List Nat) (i j : Nat) (sizes : Sizes := .exact) : Prop :=
  ∀ (β : Type) (v : Array β), v.size = source.prod →
    ∃ w, broadcastData v source result sizes = .ok w ∧ w[i]? = v[j]?

/-- **A broadcast reads a place at one place only**: sources whose elements are their places
tell the places apart. -/
theorem broadcastReads_iff {source result : List Nat} (hs : Stretches source result) {i j : Nat}
    (hi : i < result.prod) (hj : j < source.prod) :
    BroadcastReads source result i j ↔ sourcePlace source result i = j := by
  constructor
  · intro h
    have hv : (tabulate source.prod id).size = source.prod := size_tabulate _ _
    obtain ⟨w, hw, hread⟩ := h Nat (tabulate source.prod id) hv
    obtain ⟨w', hw', _, hplace⟩ := exists_broadcastData hs hv
    obtain ⟨hlt, hread'⟩ := hplace i hi
    obtain rfl := Except.ok.inj (hw.symm.trans hw')
    rw [hread, getElem?_tabulate, if_pos hj, getElem?_tabulate, if_pos (hv ▸ hlt)] at hread'
    exact (Option.some.inj hread').symm
  · rintro rfl β v hv
    obtain ⟨w, hw, _, hplace⟩ := exists_broadcastData hs hv
    exact ⟨w, hw, (hplace i hi).2⟩

/-- A broadcast in words reads where one without bound does. -/
theorem broadcastReads_words (sizes : Sizes) {source result : List Nat}
    (hs : Stretches source result) (hfit : LeadingFit result) (hroom : result.prod < 2 ^ 60)
    (i j : Nat) :
    BroadcastReads source result i j sizes ↔ BroadcastReads source result i j := by
  refine forall_congr' fun β => forall_congr' fun v => forall_congr' fun hv => ?_
  rw [broadcastData_words sizes hs hv hfit (.inr hroom)]

namespace Kernel

/-! ## What a collapse adds -/

variable {α : Type}

/-- The elements of a slot, read where they stand. -/
theorem fiber_eq_filterMap (data : Array α) (σ : Nat → Nat) (slot : Nat) (z : α) :
    fiber data σ slot z data.size =
      ((List.range data.size).filter fun i => σ i = slot).filterMap fun i => data[i]? := by
  rw [fiber, ← List.filterMap_eq_map]
  refine List.filterMap_congr ?_
  intro i hi
  have hlt : i < data.size := List.mem_range.mp (List.mem_of_mem_filter hi)
  rw [getElem?_eq_some_getD hlt z, Function.comp]

/-- **A collapse adds** to each slot, in order, the elements whose places have it as their slot. -/
theorem exists_collapseSumLike (ar : Arithmetic α) {d y : Tensor α} {data target : TensorSpec}
    (hd : d.Fits data) (hs : Stretches target.shape.dims data.shape.dims) :
    ∃ c, collapseSumLike ar [d, y] target = .ok c ∧ c.Fits target ∧
      ∀ j < target.elementCount, c.data[j]? = some (total ar
        (((List.range data.elementCount).filter fun i =>
          sourcePlace target.shape.dims data.shape.dims i = j).filterMap fun i => d.data[i]?)) := by
  refine ⟨_, collapseSumLike_eq_ok ar hd hs ar.zero, Tensor.fits_tabulate _ rfl, ?_⟩
  intro j hj
  rw [getElem?_tabulate, if_pos hj, fiber_eq_filterMap, hd.2]

/-- **Transposes**: a collapse has against an array what its data has against the array
stretched. -/
theorem sum_collapseSumLike {R : Type} [CommSemiring R] {ar : Arithmetic R} (hzero : ar.zero = 0)
    (hadd : ∀ a b, ar.add a b = a + b) {d y : Tensor R} {v : Array R} {data target : TensorSpec}
    (hd : d.Fits data) (hv : v.size = target.elementCount)
    (hs : Stretches target.shape.dims data.shape.dims) :
    ∃ c w, collapseSumLike ar [d, y] target = .ok c ∧
      broadcastData v target.shape.dims data.shape.dims = .ok w ∧
      ∑ j ∈ range target.elementCount, c.data.getD j 0 * v.getD j 0 =
        ∑ i ∈ range data.elementCount, d.data.getD i 0 * w.getD i 0 := by
  refine ⟨_, _, collapseSumLike_eq_ok ar hd hs 0, broadcastData_eq_ok hs hv 0, ?_⟩
  have hplace : ∀ i < data.elementCount,
      sourcePlace target.shape.dims data.shape.dims i < target.elementCount := by
    intro i hi
    exact sourcePlace_lt hs (Nat.zero_lt_of_lt hi) i
  calc _ = ∑ j ∈ range target.elementCount, (∑ i ∈ range data.elementCount,
        if sourcePlace target.shape.dims data.shape.dims i = j then d.data.getD i 0 else 0) *
          v.getD j 0 := by
        refine Finset.sum_congr rfl ?_
        intro j hj
        rw [getD_tabulate _ (Finset.mem_range.mp hj), total_eq_sum hzero hadd, sum_fiber, hd.2]
    _ = ∑ i ∈ range data.elementCount,
        d.data.getD i 0 * v.getD (sourcePlace target.shape.dims data.shape.dims i) 0 :=
        sum_collapse hplace _ _
    _ = _ := by
        refine Finset.sum_congr rfl ?_
        intro i hi
        have hlt : i < data.shape.dims.prod := Finset.mem_range.mp hi
        rw [getD_tabulate _ hlt]

/-- **A collapse is the transpose of a broadcast.** Where a collapse of data to a target has a
type, it succeeds with checked words exactly where the target is in words. Where also the leading
extents of the data fit and there is room for the data, then in all sizes alike each place of the
data has one slot of the target, which is the only place at which a broadcast of the target to the
data reads it; and the collapse adds to each slot, from zero and in order, exactly the elements
whose places have it. Over any commutative ring, what the collapse has against an array is what
the data has against the array stretched. -/
theorem collapseSumLike_transposes {data target : TensorSpec} {declared : Option ValueType}
    {ty : ValueType}
    (h : Operation.collapseSumLike.resultType [.tensor data, .tensor target] declared = .ok ty) :
    ty = .tensor target ∧
      (∀ (β : Type) (ar : Arithmetic β) (d y : Tensor β), d.Fits data →
        ((∃ c, collapseSumLike ar [d, y] target .checked = .ok c) ↔ target.InWords)) ∧
      (target.InWords → LeadingFit data.shape.dims → data.elementCount < 2 ^ 60 →
        ∃ slotOf : Nat → Nat,
          (∀ i < data.elementCount,
            collapseSlot data.shape.dims target.shape.dims i = .ok (slotOf i) ∧
            slotOf i < target.elementCount ∧
            ∀ j < target.elementCount, ∀ sizes,
              BroadcastReads target.shape.dims data.shape.dims i j sizes ↔ slotOf i = j) ∧
          (∀ (β : Type) (ar : Arithmetic β) (d y : Tensor β), d.Fits data →
            ∃ c, (∀ sizes, collapseSumLike ar [d, y] target sizes = .ok c) ∧ c.Fits target ∧
              ∀ j < target.elementCount, c.data[j]? = some (total ar
                (((List.range data.elementCount).filter fun i => slotOf i = j).filterMap
                  fun i => d.data[i]?))) ∧
          ∀ (R : Type) [CommRing R] (ar : Arithmetic R), ar.zero = 0 →
            (∀ a b, ar.add a b = a + b) → ∀ (d y : Tensor R) (v : Array R), d.Fits data →
            v.size = target.elementCount →
            ∃ c w, (∀ sizes, collapseSumLike ar [d, y] target sizes = .ok c) ∧
              (∀ sizes, broadcastData v target.shape.dims data.shape.dims sizes = .ok w) ∧
              ∑ j ∈ range target.elementCount, c.data.getD j 0 * v.getD j 0 =
                ∑ i ∈ range data.elementCount, d.data.getD i 0 * w.getD i 0) := by
  obtain ⟨specs, out, hspecs, hout, rfl⟩ := (Operation.resultType_eq_ok_iff rfl).mp h
  obtain ⟨x, rfl, _, hjoin⟩ := Operation.collapseSpec_eq_ok_iff.mp hout
  obtain ⟨rfl, rfl⟩ : data = x ∧ target = out := by simpa using hspecs
  have hs : Stretches target.shape.dims data.shape.dims := (stretches_of_broadcast? hjoin).2
  refine ⟨rfl, fun β ar d y hd => ⟨fun ⟨_, hc⟩ => inWords_of_collapseSumLike hc, ?_⟩, ?_⟩
  · intro hin
    obtain ⟨c, hc, -⟩ := exists_collapseSumLike ar hd hs (y := y)
    exact ⟨c, collapseSumLike_words .checked ar d y hin c hc⟩
  intro hin hfit hroom
  refine ⟨sourcePlace target.shape.dims data.shape.dims, ?_, ?_, ?_⟩
  · intro i hi
    have hpos : 0 < data.shape.dims.prod := Nat.zero_lt_of_lt hi
    refine ⟨collapseSlot_eq_ok hs hpos i, sourcePlace_lt hs hpos i, fun j hj sizes => ?_⟩
    exact (broadcastReads_words sizes hs hfit hroom i j).trans (broadcastReads_iff hs hi hj)
  · intro β ar d y hd
    obtain ⟨c, hc, hrest⟩ := exists_collapseSumLike ar hd hs
    exact ⟨c, fun sizes => collapseSumLike_words sizes ar d y hin c hc, hrest⟩
  · intro R _ ar hzero hadd d y v hd hv
    obtain ⟨c, w, hc, hw, he⟩ := sum_collapseSumLike hzero hadd hd hv hs
    refine ⟨c, w, fun sizes => collapseSumLike_words sizes ar d y hin c hc, fun sizes => ?_, he⟩
    exact (broadcastData_words sizes hs hv hfit (.inr hroom)).trans hw

/-- The integers, of which sums and collapses use zero and addition only. -/
def wholeNumbers : Arithmetic ℤ where
  zero := 0
  one := 1
  add a b := a + b
  sub a b := a - b
  mul a b := a * b
  div a b := a / b
  neg a := -a
  exp a := a
  log a := a
  max a b := max a b
  lowest := 0
  ofWord _ := 0

/-- Two rows collapse to their sum, and a row stretched to two is the row twice. -/
theorem collapseSumLike_transposes_rows :
    Operation.collapseSumLike.resultType
        [.tensor ⟨.f32, ⟨[2, 3]⟩⟩, .tensor ⟨.f32, ⟨[3]⟩⟩] none = .ok (.tensor ⟨.f32, ⟨[3]⟩⟩) ∧
      ∃ slotOf : Nat → Nat,
        (∀ i < 6, collapseSlot [2, 3] [3] i = .ok (slotOf i) ∧ slotOf i < 3 ∧
          ∀ j < 3, ∀ sizes, BroadcastReads [3] [2, 3] i j sizes ↔ slotOf i = j) ∧
        ∃ c w, (∀ sizes, collapseSumLike wholeNumbers [⟨⟨.f32, ⟨[2, 3]⟩⟩, #[1, 2, 3, 4, 5, 6]⟩,
            ⟨⟨.f32, ⟨[3]⟩⟩, #[0, 0, 0]⟩] ⟨.f32, ⟨[3]⟩⟩ sizes = .ok c) ∧
          (∀ sizes, broadcastData #[1, 10, 100] [3] [2, 3] sizes = .ok w) ∧
          c.data = #[5, 7, 9] ∧ w = #[1, 10, 100, 1, 10, 100] ∧
          ∑ j ∈ range 3, c.data.getD j 0 * #[1, 10, 100].getD j 0 =
            ∑ i ∈ range 6, #[1, 2, 3, 4, 5, 6].getD i 0 * w.getD i 0 := by
  have htype : Operation.collapseSumLike.resultType
      [.tensor ⟨.f32, ⟨[2, 3]⟩⟩, .tensor ⟨.f32, ⟨[3]⟩⟩] none = .ok (.tensor ⟨.f32, ⟨[3]⟩⟩) := by
    rfl
  obtain ⟨slotOf, hslot, _, hsum⟩ :=
    (collapseSumLike_transposes htype).2.2 (by decide) (by decide) (by decide)
  obtain ⟨c, w, hc, hw, he⟩ := hsum ℤ wholeNumbers rfl (fun _ _ => rfl)
    ⟨⟨.f32, ⟨[2, 3]⟩⟩, #[1, 2, 3, 4, 5, 6]⟩ ⟨⟨.f32, ⟨[3]⟩⟩, #[0, 0, 0]⟩ #[1, 10, 100]
    ⟨rfl, rfl⟩ rfl
  have hc' : collapseSumLike wholeNumbers [⟨⟨.f32, ⟨[2, 3]⟩⟩, #[1, 2, 3, 4, 5, 6]⟩,
      ⟨⟨.f32, ⟨[3]⟩⟩, #[0, 0, 0]⟩] ⟨.f32, ⟨[3]⟩⟩ = .ok ⟨⟨.f32, ⟨[3]⟩⟩, #[5, 7, 9]⟩ := by rfl
  have hw' : broadcastData (#[1, 10, 100] : Array ℤ) [3] [2, 3] =
      .ok #[1, 10, 100, 1, 10, 100] := by rfl
  have hcdata : c.data = #[5, 7, 9] :=
    congrArg Tensor.data (Except.ok.inj ((hc .exact).symm.trans hc'))
  exact ⟨htype, slotOf, hslot, c, w, hc, hw, hcdata,
    Except.ok.inj ((hw .exact).symm.trans hw'), he⟩

/-- **Not every collapse succeeds in words**, and not every one is a transpose. Behind an empty
axis the strides of the target overflow where words are checked. Where they wrap around,
`3 * (2 ^ 64 - 1) ^ 2` elements count as three, of which the broadcast reads one in each slot
while the collapse adds all to the first. -/
theorem collapseSumLike_beyondWords :
    (Operation.collapseSumLike.resultType [.tensor ⟨.f32, ⟨[0, 2 ^ 32, 2 ^ 32]⟩⟩,
        .tensor ⟨.f32, ⟨[0, 2 ^ 32, 2 ^ 32]⟩⟩] none =
          .ok (.tensor ⟨.f32, ⟨[0, 2 ^ 32, 2 ^ 32]⟩⟩) ∧
      (⟨⟨.f32, ⟨[0, 2 ^ 32, 2 ^ 32]⟩⟩, #[]⟩ : Tensor ℤ).Fits ⟨.f32, ⟨[0, 2 ^ 32, 2 ^ 32]⟩⟩ ∧
      collapseSumLike wholeNumbers [⟨⟨.f32, ⟨[0, 2 ^ 32, 2 ^ 32]⟩⟩, #[]⟩,
        ⟨⟨.f32, ⟨[0, 2 ^ 32, 2 ^ 32]⟩⟩, #[]⟩] ⟨.f32, ⟨[0, 2 ^ 32, 2 ^ 32]⟩⟩ .checked =
          .error (.execution .overflow)) ∧
    Operation.collapseSumLike.resultType [.tensor ⟨.f32, ⟨[3, 2 ^ 64 - 1, 2 ^ 64 - 1]⟩⟩,
        .tensor ⟨.f32, ⟨[3, 1, 1]⟩⟩] none = .ok (.tensor ⟨.f32, ⟨[3, 1, 1]⟩⟩) ∧
      ∃ d, Tensor.ofData ⟨.f32, ⟨[3, 2 ^ 64 - 1, 2 ^ 64 - 1]⟩⟩ #[1, 2, 4] .wrapping = .ok d ∧
        collapseSumLike wholeNumbers [d, ⟨⟨.f32, ⟨[3, 1, 1]⟩⟩, #[0, 0, 0]⟩]
          ⟨.f32, ⟨[3, 1, 1]⟩⟩ .wrapping = .ok ⟨⟨.f32, ⟨[3, 1, 1]⟩⟩, #[7, 0, 0]⟩ ∧
        broadcastData (#[1, 10, 100] : Array ℤ) [3, 1, 1] [3, 2 ^ 64 - 1, 2 ^ 64 - 1] .wrapping =
          .ok #[1, 10, 100] :=
  ⟨⟨rfl, ⟨rfl, rfl⟩, rfl⟩, rfl, _, rfl, rfl, rfl⟩

end Kernel

end TensorGraph
