/-
# TensorGraph.Proofs.Kernels -- what the kernels of exact and machine numbers compute

Each kernel, applied to tensors that a typed call may have, gives the array that a formula
over places gives: elementwise operators read their operands along `sourcePlace`, a sum and
a collapse add along it, and a matrix product sums over the shared extent. The numbers are
arbitrary, and sums keep the order in which the kernel adds. That a kernel has a result at
all says that none of its accesses is out of bounds and that no division in its index
arithmetic is by zero.
-/
import TensorGraph.Proofs.CallTyping
import TensorGraph.Proofs.Stretch

namespace TensorGraph

variable {α : Type}

/-! ## Sums along a map of places -/

namespace Kernel

/-- The elements whose places are sent to a slot, in order. -/
def fiber (data : Array α) (σ : Nat → Nat) (slot : Nat) (z : α) (count : Nat) : List α :=
  ((List.range count).filter fun i => σ i = slot).map fun i => data.getD i z

theorem fiber_succ (data : Array α) (σ : Nat → Nat) (slot : Nat) (z : α) (count : Nat) :
    fiber data σ slot z (count + 1) =
      fiber data σ slot z count ++ if σ count = slot then [data.getD count z] else [] := by
  rw [fiber, List.range_succ, List.filter_append, List.map_append, ← fiber]
  congr 1
  by_cases h : σ count = slot
  · rw [if_pos h, List.filter_cons_of_pos (by rw [decide_eq_true h]), List.filter_nil,
      List.map_singleton]
  · rw [if_neg h, List.filter_cons_of_neg (by rw [decide_eq_false h]; exact Bool.false_ne_true),
      List.filter_nil, List.map_nil]

theorem total_append_singleton (ar : Arithmetic α) (xs : List α) (x : α) :
    total ar (xs ++ [x]) = ar.add (total ar xs) x := by
  rw [total, List.foldl_append, List.foldl_cons, List.foldl_nil, total]

theorem toList_zipIdx_eq (data : Array α) (z : α) :
    data.toList.zipIdx = (List.range data.size).map fun i => (data.getD i z, i) := by
  apply List.ext_getElem?
  intro i
  rw [List.getElem?_zipIdx, List.getElem?_map, Array.getElem?_toList, Nat.zero_add]
  by_cases h : i < data.size
  · rw [List.getElem?_range h, getElem?_eq_some_getD h z, Option.map_some, Option.map_some]
  · rw [Array.getElem?_eq_none (Nat.le_of_not_lt h),
      List.getElem?_eq_none (by rw [List.length_range]; exact Nat.le_of_not_lt h)]
    rfl

/-- What a scatter has added after the first `count` elements. -/
theorem scatter_prefix (ar : Arithmetic α) {slots : Nat} {slotOf : Nat → Except EvalError Nat}
    {σ : Nat → Nat} {data : Array α} (z : α)
    (h : ∀ i < data.size, slotOf i = .ok (σ i) ∧ σ i < slots) {count : Nat}
    (hcount : count ≤ data.size) :
    ((List.range count).map fun i => (data.getD i z, i)).foldlM
        (fun sums (x, place) => do
          let slot ← slotOf place
          match sums[slot]? with
          | some sum => return sums.setIfInBounds slot (ar.add sum x)
          | none => throw (EvalError.execution .outOfBounds))
        (Array.replicate slots ar.zero) =
      .ok (tabulate slots fun j => total ar (fiber data σ j z count)) := by
  induction count with
  | zero =>
    show Except.ok _ = _
    congr 1
    refine eq_tabulate Array.size_replicate fun i hi => ?_
    rw [Array.getElem?_replicate, if_pos hi]
    rfl
  | succ count ih =>
    obtain ⟨hslot, hlt⟩ := h count hcount
    rw [List.range_succ, List.map_append, List.map_singleton, List.foldlM_append,
      ih (Nat.le_of_succ_le hcount), ok_bind, List.foldlM_cons]
    dsimp only
    rw [hslot, ok_bind, getElem?_tabulate, if_pos hlt]
    show Except.ok _ = _
    congr 1
    refine eq_tabulate (by rw [Array.size_setIfInBounds, size_tabulate]) fun j hj => ?_
    rw [Array.getElem?_setIfInBounds, size_tabulate, getElem?_tabulate, if_pos hj, fiber_succ]
    -- the new element lands in the slot `σ count` and leaves the others as they are
    by_cases he : σ count = j
    · rw [if_pos he, if_pos hlt, if_pos he, total_append_singleton, he]
    · rw [if_neg he, if_neg he, List.append_nil]

/-- **A scatter adds** to each slot the elements whose places are sent there. -/
theorem scatterAdd_eq_ok (ar : Arithmetic α) {slots : Nat} {slotOf : Nat → Except EvalError Nat}
    {σ : Nat → Nat} {data : Array α} (z : α)
    (h : ∀ i < data.size, slotOf i = .ok (σ i) ∧ σ i < slots) :
    scatterAdd ar slots slotOf data =
      .ok (tabulate slots fun j => total ar (fiber data σ j z data.size)) := by
  rw [scatterAdd, toList_zipIdx_eq data z]
  exact scatter_prefix ar z h (Nat.le_refl _)

/-! ## Slots of sums and collapses -/

theorem collapsedPlace_eq_ok {target result coords : List Nat}
    (hs : List.Forall₂ (fun d r => d = 1 ∨ d = r) target result)
    (hc : List.Forall₂ (· < ·) coords result) :
    collapsedPlace target coords = .ok (stretchedPlace target coords) := by
  induction hs generalizing coords with
  | nil =>
    cases hc
    rfl
  | @cons d r ds rs hd _ ih =>
    cases hc with
    | @cons c _ cs _ hc hcs =>
      rw [collapsedPlace, stretchedPlace, ih hcs]
      by_cases h1 : d = 1
      · rw [if_pos h1, if_pos h1, Nat.zero_add]
      · have hdr : d = r := hd.resolve_left h1
        rw [if_neg h1, if_neg h1, if_neg (by omega)]
        rfl

theorem collapseSlot_eq_ok {dims target : List Nat} (hs : Stretches target dims)
    (h : 0 < dims.prod) (place : Nat) :
    collapseSlot dims target place = .ok (sourcePlace target dims place) := by
  rw [collapseSlot, unravel_eq_ok h, ok_bind, drop_coordinates, sourcePlace_eq]
  exact collapsedPlace_eq_ok hs.2 (coordinates_lt (prod_drop_pos h _) place)

theorem length_keptDims (axes : Option (List Nat)) (dims : List Nat) :
    (keptDims axes dims).length = dims.length := by
  rw [keptDims, List.length_map, List.length_zipIdx]

/-- Kept extents, counted from some axis on, stretch to the extents that they come from. -/
theorem forall₂_keptDims (axes : Option (List Nat)) (dims : List Nat) (n : Nat) :
    List.Forall₂ (fun d r => d = 1 ∨ d = r)
      ((dims.zipIdx n).map fun (dim, axis) => if isReduced axes axis then 1 else dim) dims := by
  induction dims generalizing n with
  | nil => exact .nil
  | cons d ds ih =>
    refine .cons ?_ (ih (n + 1))
    show (if isReduced axes n then 1 else d) = 1 ∨ (if isReduced axes n then 1 else d) = d
    split
    · exact .inl rfl
    · exact .inr rfl

theorem stretches_keptDims (axes : Option (List Nat)) (dims : List Nat) :
    Stretches (keptDims axes dims) dims := by
  refine ⟨Nat.le_of_eq (length_keptDims axes dims), ?_⟩
  rw [length_keptDims, Nat.sub_self, List.drop_zero]
  exact forall₂_keptDims axes dims 0

/-- Coordinates without the reduced ones point, along the strides of the kept extents, where
these extents are read. -/
theorem dot_keptCoords (axes : Option (List Nat)) {coords dims : List Nat}
    (h : List.Forall₂ (· < ·) coords dims) (n : Nat) :
    dot ((coords.zipIdx n).map fun (c, axis) => if isReduced axes axis then 0 else c)
        (strides ((dims.zipIdx n).map fun (dim, axis) => if isReduced axes axis then 1 else dim)) =
      stretchedPlace
        ((dims.zipIdx n).map fun (dim, axis) => if isReduced axes axis then 1 else dim)
        coords := by
  induction h generalizing n with
  | nil => rfl
  | @cons c d cs ds hc _ ih =>
    rw [List.zipIdx_cons, List.zipIdx_cons, List.map_cons, List.map_cons, strides, dot_cons,
      stretchedPlace, ih]
    dsimp only
    congr 1
    by_cases hr : isReduced axes n = true
    · simp only [if_pos hr, if_true, Nat.zero_mul]
    · simp only [if_neg hr]
      by_cases h1 : d = 1
      · have hc0 : c = 0 := by omega
        rw [if_pos h1, hc0, Nat.zero_mul]
      · rw [if_neg h1]

/-- The slot of a sum is where the kept extents are read. -/
theorem sumSlot_eq_ok (axes : Option (List Nat)) {dims : List Nat} (h : 0 < dims.prod)
    (place : Nat) :
    sumSlot axes dims place = .ok (sourcePlace (keptDims axes dims) dims place) := by
  rw [sumSlot, unravel_eq_ok h, ok_bind, sourcePlace, length_keptDims, Nat.sub_self,
    List.drop_zero]
  exact congrArg Except.ok (dot_keptCoords axes (coordinates_lt h place) 0)

/-- Leaving out reduced extents and replacing them by 1 are the same to a product. -/
theorem prod_filterMap_kept (axes : Option (List Nat)) (extents : List (Nat × Nat)) :
    (extents.filterMap fun (dim, axis) => if isReduced axes axis then none else some dim).prod =
      (extents.map fun (dim, axis) => if isReduced axes axis then 1 else dim).prod := by
  induction extents with
  | nil => rfl
  | cons extent extents ih =>
    rw [List.filterMap_cons, List.map_cons, List.prod_cons, ← ih]
    by_cases hr : isReduced axes extent.2 = true
    · simp only [if_pos hr, Nat.one_mul]
    · simp only [if_neg hr, List.prod_cons]

/-- Reduced extents count as many elements as kept ones. -/
theorem prod_reducedDims (axes : Option (List Nat)) (keepdims : Bool) (dims : List Nat) :
    (reducedDims axes keepdims dims).prod = (keptDims axes dims).prod := by
  rw [reducedDims]
  split
  · rfl
  · exact prod_filterMap_kept axes dims.zipIdx

/-- When a sum leaves the rank as it is, it leaves the kept extents. -/
theorem reducedDims_eq_keptDims {axes : Option (List Nat)} {keepdims : Bool} {dims : List Nat}
    (h : (reducedDims axes keepdims dims).length = dims.length) :
    reducedDims axes keepdims dims = keptDims axes dims := by
  rw [reducedDims] at h ⊢
  by_cases hk : keepdims = true
  · rw [if_pos hk]
  · rw [if_neg hk] at h ⊢
    have hzip : ∀ (ds : List Nat) (n : Nat),
        ((ds.zipIdx n).filterMap fun p =>
          if isReduced axes p.2 then none else some p.1).length = ds.length →
        ((ds.zipIdx n).filterMap fun p => if isReduced axes p.2 then none else some p.1) =
          (ds.zipIdx n).map fun p => if isReduced axes p.2 then 1 else p.1 := by
      intro ds
      induction ds with
      | nil => exact fun n _ => rfl
      | cons d ds ih =>
        intro n hn
        have hle := List.length_filterMap_le
          (fun p : Nat × Nat => if isReduced axes p.2 then none else some p.1)
          (ds.zipIdx (n + 1))
        rw [List.length_zipIdx] at hle
        rw [List.zipIdx_cons, List.filterMap_cons] at hn
        rw [List.zipIdx_cons, List.filterMap_cons, List.map_cons]
        by_cases hr : isReduced axes n = true
        · simp only [if_pos hr, List.length_cons] at hn
          omega
        · simp only [if_neg hr, List.length_cons] at hn ⊢
          rw [ih (n + 1) (Nat.succ.inj hn)]
    exact hzip dims 0 h

end Kernel

/-! ## Specs of operands and results -/

/-- **The operands of an elementwise operator** have the element type of its result and stretch
to its shape. -/
theorem Operation.exists_of_broadcastSpec {op : Operation} {specs : List TensorSpec}
    {out : TensorSpec} (h : op.broadcastSpec specs = .ok out) :
    ∃ sx sy, specs = [sx, sy] ∧ sx.dtype = out.dtype ∧ sy.dtype = out.dtype ∧
      Stretches sx.shape.dims out.shape.dims ∧ Stretches sy.shape.dims out.shape.dims := by
  obtain ⟨sx, sy, hs, hd, hout, hj⟩ := broadcastSpec_eq_ok_iff.mp h
  obtain ⟨hsx, hsy⟩ := stretches_of_broadcast? hj
  exact ⟨sx, sy, hs, hout.symm, hd.symm.trans hout.symm, hsx, hsy⟩

theorem TensorSpec.elementCount_matrix {spec : TensorSpec} {m n : Nat}
    (h : spec.shape.dims = [m, n]) : spec.elementCount = m * n := by
  rw [elementCount, Shape.elementCount, h, List.prod_cons, List.prod_singleton]

/-- A sum has as many elements without its reduced axes as with them. -/
theorem TensorSpec.elementCount_reduced (dtype : DType) (axes : Option (List Nat))
    (keepdims : Bool) (dims : List Nat) :
    (TensorSpec.mk dtype ⟨reducedDims axes keepdims dims⟩).elementCount =
      (keptDims axes dims).prod :=
  Kernel.prod_reducedDims axes keepdims dims

/-! ## Tensors -/

/-- **`Tensor.Fits`** -- a tensor of a spec, with as many elements as the spec says. -/
def Tensor.Fits (t : Tensor α) (spec : TensorSpec) : Prop :=
  t.spec = spec ∧ t.data.size = spec.elementCount

theorem Tensor.fits_filled (spec : TensorSpec) (c : α) : (Tensor.filled spec c).Fits spec :=
  ⟨rfl, Tensor.size_filled _ _⟩

/-- The tensor that a function of places gives fits. -/
theorem Tensor.fits_tabulate {spec : TensorSpec} {n : Nat} (f : Nat → α)
    (hn : n = spec.elementCount) : (⟨spec, tabulate n f⟩ : Tensor α).Fits spec :=
  ⟨rfl, (size_tabulate n f).trans hn⟩

theorem Tensor.fits_of_ofData {spec : TensorSpec} {data : Array α} {t : Tensor α}
    (h : Tensor.ofData spec data = .ok t) : t.Fits spec := by
  obtain ⟨hsize, rfl⟩ := Tensor.ofData_eq_ok_iff.mp h
  exact ⟨rfl, hsize⟩

/-- Tensors of one spec are equal when their elements are. -/
theorem Tensor.Fits.ext {s t : Tensor α} {spec : TensorSpec} (hs : s.Fits spec)
    (ht : t.Fits spec) (h : ∀ i < spec.elementCount, s.data[i]? = t.data[i]?) : s = t := by
  have hdata : s.data = t.data := by
    apply Array.ext_getElem?
    intro i
    by_cases hi : i < spec.elementCount
    · exact h i hi
    · rw [Array.getElem?_eq_none (by rw [hs.2]; omega),
        Array.getElem?_eq_none (by rw [ht.2]; omega)]
  cases s with
  | mk sspec sdata =>
    cases t with
    | mk tspec tdata =>
      obtain rfl : sdata = tdata := hdata
      rw [show sspec = spec from hs.1, show tspec = spec from ht.1]

theorem Tensor.ofData_tabulate {spec : TensorSpec} {n : Nat} (h : n = spec.elementCount)
    (f : Nat → α) : Tensor.ofData spec (tabulate n f) = .ok ⟨spec, tabulate n f⟩ :=
  Tensor.ofData_eq_ok_iff.mpr ⟨by rw [size_tabulate, h], rfl⟩

theorem Tensor.filled_eq (spec : TensorSpec) (c : α) :
    Tensor.filled spec c = ⟨spec, tabulate spec.elementCount fun _ => c⟩ := by
  rw [Tensor.filled]
  congr 1
  refine eq_tabulate Array.size_replicate fun i hi => ?_
  rw [Array.getElem?_replicate, if_pos hi]

namespace Kernel

/-! ## Elementwise kernels -/

theorem zipWith_tabulate (n : Nat) (f : α → α → α) (g h : Nat → α) :
    (tabulate n g).zipWith f (tabulate n h) = tabulate n fun i => f (g i) (h i) := by
  refine eq_tabulate (by rw [Array.size_zipWith, size_tabulate, size_tabulate, Nat.min_self])
    fun i hi => ?_
  rw [Array.getElem?_zipWith, getElem?_tabulate, getElem?_tabulate, if_pos hi, if_pos hi]

/-- **A binary kernel** combines elements read along the places of both operands. -/
theorem binary_eq_ok (f : α → α → α) {x y : Tensor α} {sx sy output : TensorSpec}
    (hx : x.Fits sx) (hy : y.Fits sy) (hsx : Stretches sx.shape.dims output.shape.dims)
    (hsy : Stretches sy.shape.dims output.shape.dims) (z : α) :
    binary f [x, y] output = .ok ⟨output, tabulate output.elementCount fun i =>
      f (x.data.getD (sourcePlace sx.shape.dims output.shape.dims i) z)
        (y.data.getD (sourcePlace sy.shape.dims output.shape.dims i) z)⟩ := by
  have ha := broadcastData_eq_ok hsx hx.2 z
  have hb := broadcastData_eq_ok hsy hy.2 z
  show (broadcastData x.data x.spec.shape.dims output.shape.dims >>= fun a =>
    broadcastData y.data y.spec.shape.dims output.shape.dims >>= fun b =>
      Tensor.ofData output (a.zipWith f b)) = _
  rw [hx.1, hy.1, ha, ok_bind, hb, ok_bind, zipWith_tabulate]
  exact Tensor.ofData_tabulate rfl _

theorem map_tabulate (n : Nat) (f : α → α) (g : Nat → α) :
    (tabulate n g).map f = tabulate n fun i => f (g i) := by
  refine eq_tabulate (by rw [Array.size_map, size_tabulate]) fun i hi => ?_
  rw [Array.getElem?_map, getElem?_tabulate, if_pos hi, Option.map_some]

theorem unary_eq_ok (f : α → α) {x : Tensor α} {output : TensorSpec} (hx : x.Fits output)
    (z : α) :
    unary f [x] output = .ok ⟨output, tabulate output.elementCount fun i =>
      f (x.data.getD i z)⟩ := by
  show Tensor.ofData output (x.data.map f) = _
  rw [eq_tabulate_getD x.data z, hx.2, map_tabulate]
  rw [Tensor.ofData_tabulate rfl]
  congr 2
  refine tabulate_congr fun i hi => ?_
  rw [getD_tabulate _ hi]

theorem constantLike_eq_ok (c : α) (x : Tensor α) (output : TensorSpec) :
    constantLike c [x] output = .ok ⟨output, tabulate output.elementCount fun _ => c⟩ := by
  show Except.ok (Tensor.filled output c) = _
  rw [Tensor.filled_eq]

theorem reshape_eq_ok {x : Tensor α} {output : TensorSpec}
    (hx : x.data.size = output.elementCount) : reshape [x] output = .ok ⟨output, x.data⟩ :=
  if_pos hx

/-! ## Sums -/

/-- **A sum** adds up the elements that have a place in common when reduced axes are
ignored. -/
theorem sum_eq_ok (ar : Arithmetic α) (axes : Option (List Nat)) {x : Tensor α}
    {sx output : TensorSpec} (hx : x.Fits sx)
    (hout : output.elementCount = (keptDims axes sx.shape.dims).prod) (z : α) :
    sum ar axes [x] output = .ok ⟨output, tabulate output.elementCount fun j =>
      total ar (fiber x.data (sourcePlace (keptDims axes sx.shape.dims) sx.shape.dims) j z
        x.data.size)⟩ := by
  show (scatterAdd ar (keptDims axes x.spec.shape.dims).prod (sumSlot axes x.spec.shape.dims)
    x.data >>= Tensor.ofData output) = _
  have hslot : ∀ i < x.data.size,
      sumSlot axes sx.shape.dims i =
        .ok (sourcePlace (keptDims axes sx.shape.dims) sx.shape.dims i) ∧
      sourcePlace (keptDims axes sx.shape.dims) sx.shape.dims i <
        (keptDims axes sx.shape.dims).prod := by
    intro i hi
    have hpos : 0 < sx.shape.dims.prod := by
      rw [hx.2] at hi
      exact Nat.zero_lt_of_lt hi
    exact ⟨sumSlot_eq_ok axes hpos i, sourcePlace_lt (stretches_keptDims axes _) hpos i⟩
  rw [hx.1, scatterAdd_eq_ok ar z hslot, ok_bind, ← hout]
  exact Tensor.ofData_tabulate rfl _

/-- **A collapse** adds up the elements that are read at one place of the target. -/
theorem collapseSumLike_eq_ok (ar : Arithmetic α) {x y : Tensor α} {sx output : TensorSpec}
    (hx : x.Fits sx) (hs : Stretches output.shape.dims sx.shape.dims) (z : α) :
    collapseSumLike ar [x, y] output = .ok ⟨output, tabulate output.elementCount fun j =>
      total ar (fiber x.data (sourcePlace output.shape.dims sx.shape.dims) j z x.data.size)⟩ := by
  show (if x.spec.shape.dims.length < output.shape.dims.length then _ else
    scatterAdd ar output.elementCount (collapseSlot x.spec.shape.dims output.shape.dims) x.data
      >>= Tensor.ofData output) = _
  have hslot : ∀ i < x.data.size,
      collapseSlot sx.shape.dims output.shape.dims i =
        .ok (sourcePlace output.shape.dims sx.shape.dims i) ∧
      sourcePlace output.shape.dims sx.shape.dims i < output.elementCount := by
    intro i hi
    have hpos : 0 < sx.shape.dims.prod := by
      rw [hx.2] at hi
      exact Nat.zero_lt_of_lt hi
    exact ⟨collapseSlot_eq_ok hs hpos i, sourcePlace_lt hs hpos i⟩
  rw [hx.1, if_neg (Nat.not_lt.mpr hs.1), scatterAdd_eq_ok ar z hslot, ok_bind]
  exact Tensor.ofData_tabulate rfl _

/-! ## Matrix products -/

/-- The terms of one element of a matrix product. -/
def matmulTerms (ar : Arithmetic α) (x y : Array α) (k n i j : Nat) (z : α) : List α :=
  (List.range k).map fun p => ar.mul (x.getD (i * k + p) z) (y.getD (p * n + j) z)

theorem matmulEntry_eq_ok (ar : Arithmetic α) {x y : Array α} {m k n i j : Nat}
    (hx : x.size = m * k) (hy : y.size = k * n) (hi : i < m) (hj : j < n) (z : α) :
    matmulEntry ar x y k n i j = .ok (total ar (matmulTerms ar x y k n i j z)) := by
  have hread : ∀ p < k, i * k + p < x.size ∧ p * n + j < y.size := by
    intro p hp
    rw [hx, hy]
    exact ⟨(matrix_place hi hp).1, (matrix_place hp hj).1⟩
  rw [matmulEntry, total, matmulTerms, List.foldl_map]
  refine foldlM_eq_ok_foldl ?_ ar.zero
  intro p hp a
  obtain ⟨hleft, hright⟩ := hread p (List.mem_range.mp hp)
  rw [element_eq_ok hleft z, ok_bind, element_eq_ok hright z, ok_bind]
  rfl

/-- **A matrix product** has at each place the product of a row and a column. -/
theorem matmul_eq_ok (ar : Arithmetic α) {x y : Tensor α} {sx sy output : TensorSpec}
    {m k n : Nat} (hx : x.Fits sx) (hy : y.Fits sy) (hdx : sx.shape.dims = [m, k])
    (hdy : sy.shape.dims = [k, n]) (hout : output.elementCount = m * n) (z : α) :
    matmul ar [x, y] output = .ok ⟨output, tabulate output.elementCount fun e =>
      total ar (matmulTerms ar x.data y.data k n (e / n) (e % n) z)⟩ := by
  have hsx : x.data.size = m * k := by
    rw [hx.2, TensorSpec.elementCount_matrix hdx]
  have hsy : y.data.size = k * n := by
    rw [hy.2, TensorSpec.elementCount_matrix hdy]
  have hentries : ((List.range m).mapM fun i =>
      (List.range n).mapM fun j => matmulEntry ar x.data y.data k n i j) =
      .ok ((List.range m).map fun i => (List.range n).map fun j =>
        total ar (matmulTerms ar x.data y.data k n ((i * n + j) / n) ((i * n + j) % n) z)) := by
    refine mapM_eq_ok_map fun i hi => mapM_eq_ok_map fun j hj => ?_
    have hi := List.mem_range.mp hi
    have hj := List.mem_range.mp hj
    obtain ⟨_, hdiv, hmod⟩ := matrix_place hi hj
    rw [matmulEntry_eq_ok ar hsx hsy hi hj z, hdiv, hmod]
  have hdx' : x.dims = [m, k] := by rw [Tensor.dims, hx.1, hdx]
  have hdy' : y.dims = [k, n] := by rw [Tensor.dims, hy.1, hdy]
  simp only [matmul, pair, ok_bind, hdx', hdy', Sizes.word_exact, Sizes.room_exact, if_true]
  rw [if_neg (Nat.not_lt.mpr hsx.ge)]
  rw [hentries, ok_bind, flatten_map_range m n fun e =>
    total ar (matmulTerms ar x.data y.data k n (e / n) (e % n) z), hout]
  exact Tensor.ofData_tabulate hout.symm _

/-! ## Whatever comes out -/

section Results

variable {inputs : List (Tensor α)} {output : TensorSpec} {t : Tensor α}

theorem fits_of_binary {f : α → α → α} (h : binary f inputs output = .ok t) : t.Fits output := by
  obtain ⟨_, _, h⟩ := bind_eq_ok_iff.mp h
  obtain ⟨_, _, h⟩ := bind_eq_ok_iff.mp h
  obtain ⟨_, _, h⟩ := bind_eq_ok_iff.mp h
  exact Tensor.fits_of_ofData h

theorem fits_of_unary {f : α → α} (h : unary f inputs output = .ok t) : t.Fits output := by
  obtain ⟨_, _, h⟩ := bind_eq_ok_iff.mp h
  exact Tensor.fits_of_ofData h

theorem fits_of_constantLike {c : α} (h : constantLike c inputs output = .ok t) :
    t.Fits output := by
  obtain ⟨_, _, h⟩ := bind_eq_ok_iff.mp h
  cases h
  exact Tensor.fits_filled output c

/-- **The result of a kernel** has the spec that it was asked for and is complete, whatever the
kernel was given. -/
theorem fits_of_run {ar : Arithmetic α} {custom : CustomKernels α} {op : Operation}
    (h : run ar custom op inputs output = .ok t) (hop : op.isCustom = false) :
    t.Fits output := by
  cases op with
  | add => exact fits_of_binary h
  | subtract => exact fits_of_binary h
  | multiply => exact fits_of_binary h
  | divide => exact fits_of_binary h
  | negative => exact fits_of_unary h
  | exp => exact fits_of_unary h
  | log => exact fits_of_unary h
  | onesLike => exact fits_of_constantLike h
  | zerosLike => exact fits_of_constantLike h
  | ones =>
    cases h
    exact Tensor.fits_filled output _
  | zeros =>
    cases h
    exact Tensor.fits_filled output _
  | customCall target => cases hop
  | matmul =>
    obtain ⟨⟨x, y⟩, _, h⟩ := bind_eq_ok_iff.mp h
    dsimp only at h
    split at h
    · split at h
      · rw [Sizes.word_exact, ok_bind, Sizes.room_exact, ok_bind, if_pos rfl] at h
        split at h
        · simp at h
        · obtain ⟨_, _, h⟩ := bind_eq_ok_iff.mp h
          exact Tensor.fits_of_ofData h
      · simp at h
    · simp at h
  | transpose perm =>
    obtain ⟨x, _, h⟩ := bind_eq_ok_iff.mp h
    split at h
    · simp only [Sizes.strides_exact, Sizes.product_exact, Sizes.room_exact, ok_bind] at h
      obtain ⟨_, _, h⟩ := bind_eq_ok_iff.mp h
      exact Tensor.fits_of_ofData h
    · simp at h
  | reshape dims =>
    obtain ⟨x, _, h⟩ := bind_eq_ok_iff.mp h
    rw [Sizes.product_exact, ok_bind] at h
    split at h
    · next hsize =>
      cases h
      exact ⟨rfl, hsize⟩
    · simp at h
  | sum axes keepdims =>
    obtain ⟨x, _, h⟩ := bind_eq_ok_iff.mp h
    simp only [Sizes.strides_exact, Sizes.product_exact, Sizes.room_exact, ok_bind] at h
    obtain ⟨_, _, h⟩ := bind_eq_ok_iff.mp h
    exact Tensor.fits_of_ofData h
  | collapseSumLike =>
    obtain ⟨⟨x, y⟩, _, h⟩ := bind_eq_ok_iff.mp h
    dsimp only at h
    split at h
    · simp at h
    · simp only [Sizes.strides_exact, Sizes.product_exact, Sizes.room_exact, ok_bind] at h
      obtain ⟨_, _, h⟩ := bind_eq_ok_iff.mp h
      exact Tensor.fits_of_ofData h
  | softmax axis =>
    obtain ⟨x, _, h⟩ := bind_eq_ok_iff.mp h
    split at h
    · obtain ⟨_, _, h⟩ := bind_eq_ok_iff.mp h
      obtain ⟨_, _, h⟩ := bind_eq_ok_iff.mp h
      exact Tensor.fits_of_ofData h
    · simp at h
  | softmaxCrossEntropy =>
    obtain ⟨⟨x, y⟩, _, h⟩ := bind_eq_ok_iff.mp h
    dsimp only at h
    split at h
    · simp at h
    · split at h
      · simp at h
      · obtain ⟨_, _, h⟩ := bind_eq_ok_iff.mp h
        obtain ⟨_, _, h⟩ := bind_eq_ok_iff.mp h
        exact Tensor.fits_of_ofData h

end Results

end Kernel

end TensorGraph
