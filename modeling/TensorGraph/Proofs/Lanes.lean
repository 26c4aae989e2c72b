/-
# TensorGraph.Proofs.Lanes -- kernels along one axis

A tensor is cut into lanes along an axis. Every place of a lane lies within the tensor, so
the two softmax kernels read and write within bounds, and the division that finds the number
of lanes is by a positive number.
-/
import TensorGraph.Proofs.Kernels

namespace TensorGraph

variable {α : Type}

/-- The stride of an axis is the number of elements behind it. -/
theorem getElem?_strides {dims : List Nat} {axis : Nat} (h : axis < dims.length) :
    (strides dims)[axis]? = some (dims.drop (axis + 1)).prod := by
  induction dims generalizing axis with
  | nil => exact absurd h (Nat.not_lt_zero _)
  | cons d ds ih =>
    cases axis with
    | zero => rfl
    | succ axis => exact ih (Nat.lt_of_succ_lt_succ h)

/-- The elements of a tensor: the lanes in front, the axis, and the elements behind. -/
theorem prod_eq_of_axis {dims : List Nat} {axis : Nat} (h : axis < dims.length) :
    dims.prod = (dims.take axis).prod * (dims[axis] * (dims.drop (axis + 1)).prod) := by
  calc dims.prod = (dims.take axis ++ dims.drop axis).prod := by rw [List.take_append_drop]
    _ = _ := by rw [List.prod_append, List.drop_eq_getElem_cons h, List.prod_cons]

/-- A tensor without elements has no lanes. -/
theorem lanes_of_empty {dims : List Nat} {axis : Nat} (h : axis < dims.length)
    (h0 : dims.prod = 0) : lanes dims axis = .ok [] := by
  rw [lanes, Sizes.strides_exact, ok_bind, List.getElem?_eq_getElem h, getElem?_strides h]
  exact if_pos h0

/-- **The lanes along an axis**, for each choice of the coordinates in front and behind. -/
theorem lanes_eq {dims : List Nat} {axis : Nat} (h : axis < dims.length) (hpos : 0 < dims.prod) :
    lanes dims axis = .ok ((List.range (dims.take axis).prod).flatMap fun outer =>
      (List.range (dims.drop (axis + 1)).prod).map fun shift =>
        (List.range dims[axis]).map fun a =>
          outer * dims[axis] * (dims.drop (axis + 1)).prod + shift +
            a * (dims.drop (axis + 1)).prod) := by
  have hp := prod_eq_of_axis h
  have hblock : 0 < dims[axis] * (dims.drop (axis + 1)).prod := by
    refine Nat.pos_of_ne_zero ?_
    intro hz
    rw [hp, hz, Nat.mul_zero] at hpos
    exact Nat.lt_irrefl 0 hpos
  have hcount : dims.prod / (dims[axis] * (dims.drop (axis + 1)).prod) =
      (dims.take axis).prod := by
    rw [hp, Nat.mul_div_cancel _ hblock]
  rw [lanes, Sizes.strides_exact, ok_bind, List.getElem?_eq_getElem h, getElem?_strides h]
  dsimp only
  rw [Sizes.product_exact, ok_bind, if_neg hpos.ne', Sizes.word_exact, ok_bind,
    if_neg hblock.ne', hcount]
  rfl

/-- The places of a lane lie within the tensor. -/
theorem lane_lt {dims : List Nat} {axis : Nat} (h : axis < dims.length) {outer shift a : Nat}
    (ho : outer < (dims.take axis).prod) (hs : shift < (dims.drop (axis + 1)).prod)
    (ha : a < dims[axis]) :
    outer * dims[axis] * (dims.drop (axis + 1)).prod + shift + a * (dims.drop (axis + 1)).prod <
      dims.prod := by
  have hplace := (matrix_place ho (matrix_place ha hs).1).1
  rw [prod_eq_of_axis h, Nat.mul_assoc outer]
  omega

/-- **The lanes along an axis** exist, and their places lie within the tensor. -/
theorem exists_lanes {dims : List Nat} {axis : Nat} (h : axis < dims.length) :
    ∃ ls, lanes dims axis = .ok ls ∧ ∀ places ∈ ls, ∀ place ∈ places, place < dims.prod := by
  rcases Nat.eq_zero_or_pos dims.prod with h0 | hpos
  · exact ⟨[], lanes_of_empty h h0, fun _ hm => absurd hm List.not_mem_nil⟩
  · refine ⟨_, lanes_eq h hpos, fun places hplaces place hplace => ?_⟩
    obtain ⟨outer, ho, hplaces⟩ := List.mem_flatMap.mp hplaces
    obtain ⟨shift, hs, rfl⟩ := List.mem_map.mp hplaces
    obtain ⟨a, ha, rfl⟩ := List.mem_map.mp hplace
    exact lane_lt h (List.mem_range.mp ho) (List.mem_range.mp hs) (List.mem_range.mp ha)

namespace Kernel

/-- Elements at places within the data can be read. -/
theorem exists_mapM_element {data : Array α} {places : List Nat}
    (h : ∀ place ∈ places, place < data.size) :
    ∃ xs, places.mapM (element data) = .ok xs := by
  rcases Nat.eq_zero_or_pos data.size with h0 | hpos
  · have hnil : places = [] := List.eq_nil_iff_forall_not_mem.mpr fun place hm =>
      absurd (h0 ▸ h place hm) (Nat.not_lt_zero _)
    exact ⟨[], by rw [hnil]; rfl⟩
  · exact ⟨_, mapM_eq_ok_map fun place hm => element_eq_ok (h place hm) data[0]⟩

/-- Numbers can be written at places within the data, which keeps its size. -/
theorem exists_writeLane {data : Array α} {places : List Nat}
    (h : ∀ place ∈ places, place < data.size) (ys : List α) :
    ∃ data', writeLane data places ys = .ok data' ∧ data'.size = data.size := by
  refine exists_foldlM_eq_ok (fun data' : Array α => data'.size = data.size) rfl ?_
  rintro data' hsize ⟨place, y⟩ hm
  have hlt : place < data'.size := hsize ▸ h place (List.of_mem_zip hm).1
  exact ⟨_, if_pos hlt, by rw [Array.size_setIfInBounds, hsize]⟩

/-- **A softmax** along an axis of its operand has a result of the same size. -/
theorem exists_softmax (ar : Arithmetic α) {axis : Nat} {x : Tensor α} {output : TensorSpec}
    (hx : x.Fits output) (ha : axis < output.shape.dims.length) :
    ∃ t, softmax ar axis [x] output = .ok t ∧ t.Fits output := by
  obtain ⟨ls, hls, hplaces⟩ := exists_lanes ha
  obtain ⟨data, hdata, hsize⟩ := exists_foldlM_eq_ok
    (fun data : Array α => data.size = x.data.size) (l := ls) (b := x.data)
    (f := fun data places => do
      let xs ← places.mapM (element x.data)
      writeLane data places (laneSoftmax ar xs))
    rfl (fun data hsize places hm => by
      have hlt : ∀ place ∈ places, place < x.data.size := fun place hp =>
        hx.2 ▸ hplaces places hm place hp
      obtain ⟨xs, hxs⟩ := exists_mapM_element hlt
      have hlt' : ∀ place ∈ places, place < data.size := hsize ▸ hlt
      obtain ⟨data', hw, hs⟩ := exists_writeLane hlt' (laneSoftmax ar xs)
      exact ⟨data', bind_eq_ok_iff.mpr ⟨xs, hxs, hw⟩, hs.trans hsize⟩)
  refine ⟨⟨output, data⟩, ?_, rfl, hsize.trans hx.2⟩
  show (if axis < x.spec.shape.dims.length then _ else _) = _
  rw [hx.1, if_pos ha, Tensor.dims, hx.1, hls, ok_bind]
  exact bind_eq_ok_iff.mpr ⟨data, hdata, Tensor.ofData_eq_ok_iff.mpr ⟨hsize.trans hx.2, rfl⟩⟩

/-- **A cross entropy** of tensors of one shape with a class axis has a result. -/
theorem exists_softmaxCrossEntropy (ar : Arithmetic α) {x y : Tensor α}
    {sx sy output : TensorSpec} (hx : x.Fits sx) (hy : y.Fits sy) (hs : sx.shape = sy.shape)
    (hr : sx.shape.rank ≠ 0) (hout : output.elementCount = 1) :
    ∃ t, softmaxCrossEntropy ar [x, y] output = .ok t ∧ t.Fits output := by
  have hlast : sx.shape.dims.length - 1 < sx.shape.dims.length :=
    Nat.sub_lt (Nat.pos_of_ne_zero hr) Nat.one_pos
  obtain ⟨ls, hls, hplaces⟩ := exists_lanes hlast
  obtain ⟨loss, hloss, -⟩ := exists_foldlM_eq_ok (fun _ => True) (l := ls) (b := ar.zero)
    (f := fun loss places => do
      let xs ← places.mapM (element x.data)
      let ts ← places.mapM (element y.data)
      return laneLoss ar loss xs ts)
    trivial (fun loss _ places hm => by
      have hltx : ∀ place ∈ places, place < x.data.size := fun place hp =>
        hx.2 ▸ hplaces places hm place hp
      have hlty : ∀ place ∈ places, place < y.data.size := by
        intro place hp
        rw [hy.2, TensorSpec.elementCount, ← hs]
        exact hplaces places hm place hp
      obtain ⟨xs, hxs⟩ := exists_mapM_element hltx
      obtain ⟨ts, hts⟩ := exists_mapM_element hlty
      exact ⟨_, bind_eq_ok_iff.mpr ⟨xs, hxs, bind_eq_ok_iff.mpr ⟨ts, hts, rfl⟩⟩, trivial⟩)
  have hempty : ¬sx.shape.dims.isEmpty = true := fun he =>
    hr (congrArg List.length (List.isEmpty_iff.mp he))
  refine ⟨⟨output, #[loss]⟩, ?_, rfl, hout.symm⟩
  show (if x.spec.shape ≠ y.spec.shape then _ else if x.spec.shape.dims.isEmpty then _ else _) = _
  rw [hx.1, hy.1, if_neg (not_not.mpr hs), if_neg hempty, Tensor.dims, hx.1, hls, ok_bind]
  exact bind_eq_ok_iff.mpr ⟨loss, hloss, Tensor.ofData_eq_ok_iff.mpr ⟨hout.symm, rfl⟩⟩

end Kernel

end TensorGraph
