/-
# TensorGraph.Proofs.Rows -- kernels along the last axis

Along the last axis the lanes of a row-major tensor are its rows: stretches of as many elements
as the last extent says, one after the other. A softmax writes each row in its place, so that its
result is the rows' softmaxes side by side, and a cross entropy takes off the loss what each row
contributes, from the first to the last. The numbers are arbitrary.
-/
import TensorGraph.Proofs.Lanes
import TensorGraph.Proofs.Tiling

namespace TensorGraph

variable {α : Type}

/-! ## Rows -/

/-- **`rowOf`** -- a row of `n` elements. -/
def rowOf (data : Array α) (n row : Nat) (z : α) : List α :=
  (List.range n).map fun c => data.getD (row * n + c) z

/-- The places of a row of `n` elements. -/
def rowPlaces (n row : Nat) : List Nat := (List.range n).map fun c => row * n + c

theorem prod_rows (lead : List Nat) (n : Nat) : (lead ++ [n]).prod = lead.prod * n := by
  rw [List.prod_append, List.prod_singleton]

/-- A tensor with a last axis has its rows as elements. -/
theorem elementCount_rows {spec : TensorSpec} {lead : List Nat} {n : Nat}
    (h : spec.shape.dims = lead ++ [n]) : spec.elementCount = lead.prod * n := by
  rw [TensorSpec.elementCount, Shape.elementCount, h, prod_rows]

/-- **The lanes along the last axis** are the rows. -/
theorem lanes_rows {lead : List Nat} {n : Nat} (h : 0 < lead.prod * n) :
    lanes (lead ++ [n]) lead.length = .ok ((List.range lead.prod).map (rowPlaces n)) := by
  have hlast : lead.length < (lead ++ [n]).length := by
    rw [List.length_append, List.length_singleton]
    exact Nat.lt_succ_self _
  have hbehind : (lead ++ [n]).drop (lead.length + 1) = [] :=
    List.drop_eq_nil_of_le (by rw [List.length_append, List.length_singleton])
  rw [lanes_eq hlast (by rwa [prod_rows]), hbehind, List.take_left, List.getElem_concat_length rfl]
  simp only [List.prod_nil, List.range_one, List.map_singleton, Nat.mul_one, Nat.add_zero]
  exact congrArg Except.ok List.map_eq_flatMap.symm

namespace Kernel

theorem mapM_element_row {data : Array α} {m n row : Nat} (hd : data.size = m * n) (hr : row < m)
    (z : α) : (rowPlaces n row).mapM (element data) = .ok (rowOf data n row z) := by
  rw [rowPlaces, List.mapM_map, rowOf]
  refine mapM_eq_ok_map ?_
  intro c hc
  exact element_eq_ok (hd ▸ (matrix_place hr (List.mem_range.mp hc)).1) z

/-! ## Softmax -/

theorem length_laneSoftmax (ar : Arithmetic α) (xs : List α) :
    (laneSoftmax ar xs).length = xs.length := by
  rw [laneSoftmax, List.length_map, laneExp, List.length_map]

/-- A number written at a place fills one slot. -/
theorem exists_writeAt {out : Array α} {place : Nat} (f : Nat → α) (h : place < out.size) :
    ∃ out', writeAt out place (f 0) = .ok out' ∧ Filled out place 1 f out' := by
  refine ⟨_, if_pos h, Array.size_setIfInBounds, ?_, ?_⟩
  · intro i hi
    obtain rfl : i = 0 := by omega
    rw [Nat.add_zero, Array.getElem?_setIfInBounds_self_of_lt h]
  · intro j hj
    rw [Array.getElem?_setIfInBounds_ne (by omega)]

/-- **A row is written** in its place. -/
theorem exists_writeLane_row {out : Array α} {m n row : Nat} (hout : m * n ≤ out.size)
    (hr : row < m) (f : Nat → α) :
    ∃ out', writeLane out (rowPlaces n row) ((List.range n).map f) = .ok out' ∧
      Filled out (row * n) n f out' := by
  have hzip : (rowPlaces n row).zip ((List.range n).map f) =
      (List.range n).map fun c => (row * n + c, f c) := List.zip_map'
  have hrow : row * n + n * 1 ≤ out.size := by
    rw [Nat.mul_one]
    exact Nat.le_trans (row_end_le hr) hout
  have hsteps : ∀ c < n, ∀ out : Array α, row * n + n * 1 ≤ out.size →
      ∃ out', writeAt out (row * n + c) (f c) = .ok out' ∧
        Filled out (row * n + c * 1) 1 (fun j => f (c * 1 + j)) out' := by
    intro c hc out hout
    rw [Nat.mul_one]
    exact exists_writeAt (fun j => f (c + j)) (by omega)
  obtain ⟨out', hw, hfill⟩ := Filled.rows hsteps hrow
  rw [Nat.mul_one] at hfill
  refine ⟨out', ?_, hfill⟩
  rw [writeLane, hzip, List.foldlM_map]
  exact hw

/-- What a softmax along rows of `n` elements has at a place. -/
def softmaxAt (ar : Arithmetic α) (data : Array α) (n : Nat) (z : α) (place : Nat) : α :=
  (laneSoftmax ar (rowOf data n (place / n) z)).getD (place % n) z

theorem laneSoftmax_row (ar : Arithmetic α) (data : Array α) (n row : Nat) (z : α) :
    laneSoftmax ar (rowOf data n row z) =
      (List.range n).map fun c => softmaxAt ar data n z (row * n + c) := by
  apply List.ext_getElem?
  intro c
  rw [List.getElem?_map]
  have hlen : (laneSoftmax ar (rowOf data n row z)).length = n := by
    rw [length_laneSoftmax, rowOf, List.length_map, List.length_range]
  by_cases hc : c < n
  · obtain ⟨_, hdiv, hmod⟩ := matrix_place (Nat.lt_succ_self row) hc
    rw [List.getElem?_range hc, Option.map_some, softmaxAt, hdiv, hmod, List.getD_eq_getElem?_getD,
      List.getElem?_eq_getElem (hlen.symm ▸ hc), Option.getD_some]
  · rw [List.getElem?_eq_none (by omega),
      List.getElem?_eq_none (by rw [List.length_range]; omega), Option.map_none]

/-- **A softmax along the last axis** has in each row the softmax of that row. -/
theorem softmax_eq_ok (ar : Arithmetic α) {lead : List Nat} {n : Nat} {x : Tensor α}
    {output : TensorSpec} (hx : x.Fits output) (hdims : output.shape.dims = lead ++ [n]) (z : α) :
    softmax ar lead.length [x] output =
      .ok ⟨output, tabulate output.elementCount (softmaxAt ar x.data n z)⟩ := by
  have hcount : output.elementCount = lead.prod * n := elementCount_rows hdims
  have hlast : lead.length < (lead ++ [n]).length := by
    rw [List.length_append, List.length_singleton]
    exact Nat.lt_succ_self _
  show (if lead.length < x.spec.shape.dims.length then _ else _) = _
  rw [hx.1, Tensor.dims, hx.1, hdims, if_pos hlast]
  rcases Nat.eq_zero_or_pos output.elementCount with h0 | hpos
  · -- without elements there is nothing to be written
    have hempty : x.data = #[] := Array.eq_empty_of_size_eq_zero (hx.2.trans h0)
    rw [lanes_of_empty hlast (by rw [prod_rows, ← hcount, h0]), ok_bind, hempty, h0]
    exact Tensor.ofData_eq_ok_iff.mpr ⟨h0.symm, rfl⟩
  · rw [lanes_rows (by rwa [← hcount]), ok_bind, List.foldlM_map]
    have hsteps : ∀ row < lead.prod, ∀ out : Array α, 0 + lead.prod * n ≤ out.size →
        ∃ out', ((rowPlaces n row).mapM (element x.data) >>= fun xs =>
          writeLane out (rowPlaces n row) (laneSoftmax ar xs)) = .ok out' ∧
          Filled out (0 + row * n) n (fun c => softmaxAt ar x.data n z (row * n + c)) out' := by
      intro row hr out hout
      rw [mapM_element_row (hx.2.trans hcount) hr z, ok_bind, laneSoftmax_row, Nat.zero_add]
      exact exists_writeLane_row (by omega) hr _
    have hall : 0 + lead.prod * n ≤ x.data.size := by
      rw [hx.2, hcount, Nat.zero_add]
    obtain ⟨out', hw, hfill⟩ := Filled.rows hsteps hall
    rw [← hcount, ← hx.2] at hfill
    rw [hw, ok_bind, hfill.eq_tabulate, hx.2]
    exact Tensor.ofData_tabulate rfl _

/-! ## Cross entropy -/

/-- **A cross entropy** goes through the rows from the first to the last. -/
theorem softmaxCrossEntropy_eq_ok (ar : Arithmetic α) {lead : List Nat} {n : Nat}
    {x y : Tensor α} {sx sy output : TensorSpec} (hx : x.Fits sx) (hy : y.Fits sy)
    (hs : sx.shape = sy.shape) (hdims : sx.shape.dims = lead ++ [n])
    (hout : output.elementCount = 1) (z : α) :
    softmaxCrossEntropy ar [x, y] output =
      .ok ⟨output, #[(List.range lead.prod).foldl (fun loss row =>
        laneLoss ar loss (rowOf x.data n row z) (rowOf y.data n row z)) ar.zero]⟩ := by
  have hsx : x.data.size = lead.prod * n := hx.2.trans (elementCount_rows hdims)
  have hsy : y.data.size = lead.prod * n := hy.2.trans (elementCount_rows (hs ▸ hdims))
  have hlast : lead.length < (lead ++ [n]).length := by
    rw [List.length_append, List.length_singleton]
    exact Nat.lt_succ_self _
  have haxis : (lead ++ [n]).length - 1 = lead.length := by
    rw [List.length_append, List.length_singleton, Nat.add_sub_cancel]
  have hempty : ¬(lead ++ [n]).isEmpty = true := by
    rw [List.isEmpty_iff]
    exact List.append_ne_nil_of_right_ne_nil lead (List.cons_ne_nil n [])
  show (if x.spec.shape ≠ y.spec.shape then _ else if x.spec.shape.dims.isEmpty then _ else _) = _
  rw [hx.1, hy.1, if_neg (not_not.mpr hs), Tensor.dims, hx.1, hdims, if_neg hempty, haxis]
  rcases Nat.eq_zero_or_pos (lead.prod * n) with h0 | hpos
  · -- without elements no row contributes
    have hfold : (List.range lead.prod).foldl (fun loss row =>
        laneLoss ar loss (rowOf x.data n row z) (rowOf y.data n row z)) ar.zero = ar.zero := by
      rcases Nat.mul_eq_zero.mp h0 with hm | rfl
      · rw [hm, List.range_zero, List.foldl_nil]
      · exact List.foldl_fixed' (fun _ => rfl) _
    rw [lanes_of_empty hlast (by rw [prod_rows, h0]), ok_bind, hfold]
    exact Tensor.ofData_eq_ok_iff.mpr ⟨hout.symm, rfl⟩
  · rw [lanes_rows hpos, ok_bind, List.foldlM_map]
    have hsteps : ∀ row ∈ List.range lead.prod, ∀ loss,
        ((rowPlaces n row).mapM (element x.data) >>= fun xs =>
          (rowPlaces n row).mapM (element y.data) >>= fun ts =>
            (pure (laneLoss ar loss xs ts) : Except EvalError α)) =
          .ok (laneLoss ar loss (rowOf x.data n row z) (rowOf y.data n row z)) := by
      intro row hr loss
      have hr := List.mem_range.mp hr
      rw [mapM_element_row hsx hr z, ok_bind, mapM_element_row hsy hr z, ok_bind, pure_eq_ok]
    show (List.foldlM (fun loss row => (rowPlaces n row).mapM (element x.data) >>= fun xs =>
      (rowPlaces n row).mapM (element y.data) >>= fun ts =>
        (pure (laneLoss ar loss xs ts) : Except EvalError α)) ar.zero (List.range lead.prod) >>=
          fun loss => Tensor.ofData output #[loss]) = _
    rw [foldlM_eq_ok_foldl hsteps ar.zero, ok_bind]
    exact Tensor.ofData_eq_ok_iff.mpr ⟨hout.symm, rfl⟩

end Kernel

end TensorGraph
