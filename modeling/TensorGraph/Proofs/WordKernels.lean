/-
# TensorGraph.Proofs.WordKernels -- the kernels in machine words

A kernel computes in words what it computes in numbers without bound, as long as the extents
that it multiplies fit (`LeadingFit`, `TrailingFit`) and there is room for its result. Its
places then fit as well: where an access succeeds, the place is one of the data. The kernels
whose index arithmetic goes through places carry their results over (`Below`); for the others
both computations are the same.

With checked words the conditions cannot be weakened: a product that does not fit stops the
kernel, also where an empty axis leaves nothing to be done.
-/
import TensorGraph.Proofs.Lanes
import TensorGraph.Proofs.Permuted
import TensorGraph.Proofs.Words

namespace TensorGraph

variable {α : Type} (sizes : Sizes)

/-! ## Tensors of one number -/

theorem Tensor.ofData_words {spec : TensorSpec} (h : LeadingFit spec.shape.dims)
    (data : Array α) : Tensor.ofData spec data sizes = Tensor.ofData spec data := by
  rw [ofData, ofData, sizes.product_eq_ok h, Sizes.product_exact]

theorem Tensor.fill_words {spec : TensorSpec} (h : LeadingFit spec.shape.dims)
    (hroom : spec.elementCount < 2 ^ 60) (c : α) :
    Tensor.fill spec c sizes = .ok (Tensor.filled spec c) := by
  have hcount : spec.shape.dims.prod < 2 ^ 60 := hroom
  rw [fill, sizes.product_eq_ok h, ok_bind, sizes.room_eq_ok hcount]
  rfl

/-! ## Broadcasting -/

/-- A tensor is not larger than what it is stretched to. -/
theorem prod_le_of_stretched {source result : List Nat}
    (hs : List.Forall₂ (fun d r => d = 1 ∨ d = r) source result) (h : 0 < result.prod) :
    source.prod ≤ result.prod := by
  induction hs with
  | nil => exact Nat.le_refl _
  | @cons d r ds rs hd _ ih =>
    rw [List.prod_cons] at h ⊢
    rw [List.prod_cons]
    refine Nat.mul_le_mul ?_ (ih (Nat.pos_of_mul_pos_left h))
    rcases hd with rfl | rfl
    · exact Nat.pos_of_mul_pos_right h
    · exact Nat.le_refl _

theorem stretchBlock_words {data : Array α} {source result : List Nat} {start : Nat}
    (hs : List.Forall₂ (fun d r => d = 1 ∨ d = r) source result) (hpos : 0 < result.prod)
    (h : start + source.prod ≤ data.size) (hresult : result.prod < 2 ^ 64)
    (hdata : data.size < 2 ^ 64) :
    stretchBlock data source result start sizes = stretchBlock data source result start := by
  induction hs generalizing start with
  | nil => rfl
  | @cons d r ds rs hd hds ih =>
    have hcount := sizes.product_eq_ok (leadingFit_of_pos hpos hresult)
    have hsource := prod_pos_of_stretched (.cons hd hds) hpos
    rw [List.prod_cons] at hpos hresult hsource
    have hposDs : 0 < ds.prod := Nat.pos_of_mul_pos_left hsource
    have hposRs : 0 < rs.prod := Nat.pos_of_mul_pos_left hpos
    have hle : rs.prod ≤ r * rs.prod := Nat.le_mul_of_pos_left _ (Nat.pos_of_mul_pos_right hpos)
    have hrow : ∀ i < r, start + i * (if d = 1 then 0 else ds.prod) + ds.prod ≤ data.size :=
      fun i hi => row_within hd hi h
    have hbehind : sizes.product ds = .ok ds.prod := by
      have hfirst := hrow 0 (Nat.pos_of_mul_pos_right hpos)
      exact sizes.product_eq_ok (leadingFit_of_pos hposDs (by omega))
    -- the rows of the block start within the data, so that their places are the numbers
    have hrows : ((List.range r).mapM fun i => stretchBlock data ds rs
          (sizes.place (start + i * (if d = 1 then 0 else ds.prod))) sizes) =
        (List.range r).mapM fun i => stretchBlock data ds rs
          (Sizes.exact.place (start + i * (if d = 1 then 0 else ds.prod))) := by
      refine mapM_congr fun i hi => ?_
      have hi := hrow i (List.mem_range.mp hi)
      rw [sizes.place_eq (by omega), Sizes.place_exact, ih hposRs hi (by omega)]
    rw [stretchBlock, stretchBlock, hcount, hbehind, Sizes.product_exact, Sizes.product_exact]
    simp only [ok_bind]
    rw [hrows]

theorem broadcastData_words {data : Array α} {source result : List Nat}
    (hs : Stretches source result) (hd : data.size = source.prod) (hfit : LeadingFit result)
    (hroom : source = result ∨ result.prod < 2 ^ 60) :
    broadcastData data source result sizes = broadcastData data source result := by
  rw [broadcastData, broadcastData, sizes.product_eq_ok hfit, Sizes.product_exact, ok_bind,
    ok_bind]
  by_cases h0 : result.prod = 0
  · rw [if_pos h0, if_pos h0]
  · by_cases he : source = result
    · rw [if_neg h0, if_neg h0, if_pos he, if_pos he]
    · have hpos : 0 < result.prod := Nat.pos_of_ne_zero h0
      have hstart : 0 + (alignedDims result.length source).prod ≤ data.size := by
        rw [prod_alignedDims, hd, Nat.zero_add]
      have hle := prod_le_of_stretched hs.aligned hpos
      rw [prod_alignedDims, ← hd] at hle
      have hblock := stretchBlock_words sizes hs.aligned hpos hstart hfit.prod_lt
        (Nat.lt_of_le_of_lt hle hfit.prod_lt)
      dsimp only
      rw [sizes.room_eq_ok (hroom.resolve_left he), Sizes.room_exact, hblock]

/-- **With checked words** a tensor is stretched exactly where the extents of the result fit and
there is room for its elements. -/
theorem broadcastData_checked_iff {data : Array α} {source result : List Nat}
    (hs : Stretches source result) (hd : data.size = source.prod) :
    (∃ ys, broadcastData data source result .checked = .ok ys) ↔
      LeadingFit result ∧ (source = result ∨ result.prod < 2 ^ 60) := by
  constructor
  · rintro ⟨ys, hys⟩
    rw [broadcastData] at hys
    obtain ⟨count, hcount, hys⟩ := bind_eq_ok_iff.mp hys
    obtain ⟨hfit, rfl⟩ := Sizes.product_checked_eq_ok_iff.mp hcount
    refine ⟨hfit, ?_⟩
    by_cases h0 : result.prod = 0
    · rw [h0]
      exact .inr (by decide)
    · by_cases he : source = result
      · exact .inl he
      · rw [if_neg h0, if_neg he, if_neg (Nat.not_lt.mpr hs.1), if_pos hs.all_zip] at hys
        obtain ⟨_, hroom, -⟩ := bind_eq_ok_iff.mp hys
        exact .inr (Sizes.room_checked_eq_ok_iff.mp hroom)
  · rintro ⟨hfit, hroom⟩
    obtain ⟨ys, hys, -⟩ := exists_broadcastData hs hd
    exact ⟨ys, (broadcastData_words .checked hs hd hfit hroom).trans hys⟩

/-! ## Lanes -/

section Lanes

variable {dims : List Nat} {axis : Nat}

theorem lanes_words (h : axis < dims.length) (htrailing : TrailingFit dims)
    (hleading : LeadingFit dims) (hroom : dims.prod = 0 ∨ dims[axis] < 2 ^ 60) :
    lanes dims axis sizes = lanes dims axis := by
  rcases Nat.eq_zero_or_pos dims.prod with h0 | hpos
  -- without elements there are no lanes, but the strides and the count are formed before
  · rw [lanes_of_empty h h0, lanes, sizes.strides_eq_ok htrailing, sizes.product_eq_ok hleading,
      ok_bind, List.getElem?_eq_getElem h, getElem?_strides h]
    exact if_pos h0
  · have hp := prod_eq_of_axis h
    have hblock : 0 < dims[axis] * (dims.drop (axis + 1)).prod :=
      Nat.pos_of_mul_pos_left (hp ▸ hpos)
    have hfront : 0 < (dims.take axis).prod := Nat.pos_of_mul_pos_right (hp ▸ hpos)
    have hword : dims[axis] * (dims.drop (axis + 1)).prod < 2 ^ 64 :=
      Nat.lt_of_le_of_lt (hp ▸ Nat.le_mul_of_pos_left _ hfront) hleading.prod_lt
    have hcount : dims.prod / (dims[axis] * (dims.drop (axis + 1)).prod) =
        (dims.take axis).prod := by
      rw [hp, Nat.mul_div_cancel _ hblock]
    rw [lanes_eq h hpos, lanes, sizes.strides_eq_ok htrailing, sizes.product_eq_ok hleading,
      ok_bind, List.getElem?_eq_getElem h, getElem?_strides h]
    dsimp only
    rw [ok_bind, if_neg hpos.ne', sizes.word_eq_ok hword, ok_bind, if_neg hblock.ne',
      sizes.room_eq_ok (hroom.resolve_left hpos.ne'), ok_bind, hcount]
    -- the places of a lane are places of the data
    refine congrArg Except.ok (List.flatMap_congr fun outer ho => ?_)
    refine List.map_congr_left fun shift hs => List.map_congr_left fun a ha => ?_
    have hlt := lane_lt h (List.mem_range.mp ho) (List.mem_range.mp hs) (List.mem_range.mp ha)
    exact sizes.place_eq (Nat.lt_trans hlt hleading.prod_lt)

/-- **With checked words** there are lanes exactly where the extents fit and there is room for a
lane, if there is one. -/
theorem lanes_checked_iff (h : axis < dims.length) :
    (∃ ls, lanes dims axis .checked = .ok ls) ↔
      TrailingFit dims ∧ LeadingFit dims ∧ (dims.prod = 0 ∨ dims[axis] < 2 ^ 60) := by
  constructor
  · rintro ⟨ls, hls⟩
    rw [lanes] at hls
    obtain ⟨steps, hsteps, hls⟩ := bind_eq_ok_iff.mp hls
    obtain ⟨htrailing, rfl⟩ := Sizes.strides_checked_eq_ok_iff.mp hsteps
    rw [List.getElem?_eq_getElem h, getElem?_strides h] at hls
    obtain ⟨count, hcount, hls⟩ := bind_eq_ok_iff.mp hls
    obtain ⟨hleading, rfl⟩ := Sizes.product_checked_eq_ok_iff.mp hcount
    refine ⟨htrailing, hleading, ?_⟩
    by_cases h0 : dims.prod = 0
    · exact .inl h0
    · rw [if_neg h0] at hls
      obtain ⟨block, -, hls⟩ := bind_eq_ok_iff.mp hls
      split at hls
      · cases hls
      · obtain ⟨_, hroom, -⟩ := bind_eq_ok_iff.mp hls
        exact .inr (Sizes.room_checked_eq_ok_iff.mp hroom)
  · rintro ⟨htrailing, hleading, hroom⟩
    obtain ⟨ls, hls, -⟩ := exists_lanes h
    exact ⟨ls, (lanes_words .checked h htrailing hleading hroom).trans hls⟩

end Lanes

/-! ## Specs -/

/-- **`TensorSpec.InWords`** -- every size that a kernel forms of such a tensor fits, and there
is room for its elements. -/
structure TensorSpec.InWords (spec : TensorSpec) : Prop where
  leading : LeadingFit spec.shape.dims
  trailing : TrailingFit spec.shape.dims
  room : spec.elementCount < 2 ^ 60

namespace TensorSpec

variable {spec : TensorSpec}

theorem inWords_iff : spec.InWords ↔ LeadingFit spec.shape.dims ∧ TrailingFit spec.shape.dims ∧
    spec.elementCount < 2 ^ 60 :=
  ⟨fun h => ⟨h.leading, h.trailing, h.room⟩, fun ⟨hl, ht, hr⟩ => ⟨hl, ht, hr⟩⟩

instance (spec : TensorSpec) : Decidable spec.InWords := decidable_of_iff' _ inWords_iff

/-- **Without empty axes** there is only the number of elements to be bounded. -/
theorem inWords_iff_of_pos (hpos : 0 < spec.elementCount) :
    spec.InWords ↔ spec.elementCount < 2 ^ 60 := by
  refine ⟨InWords.room, fun h => ?_⟩
  have hlt : spec.shape.dims.prod < 2 ^ 64 := Nat.lt_trans h (by decide)
  exact ⟨leadingFit_of_pos hpos hlt, trailingFit_of_pos hpos hlt, h⟩

/-- No axis is longer than there is room for, if there is an element at all. -/
theorem InWords.lane (h : spec.InWords) {axis : Nat} (ha : axis < spec.shape.dims.length) :
    spec.shape.dims.prod = 0 ∨ spec.shape.dims[axis] < 2 ^ 60 := by
  rcases Nat.eq_zero_or_pos spec.shape.dims.prod with h0 | hpos
  · exact .inl h0
  · have hdvd : spec.shape.dims[axis] ∣ spec.shape.dims.prod :=
      List.dvd_prod (List.getElem_mem ha)
    exact .inr (Nat.lt_of_le_of_lt (Nat.le_of_dvd hpos hdvd) h.room)

end TensorSpec

/-- Where the extents that a sum leaves fit, those that it keeps with axes of extent 1 fit. -/
theorem leadingFit_keptDims {axes : Option (List Nat)} {keepdims : Bool} {dims : List Nat}
    (h : LeadingFit (reducedDims axes keepdims dims)) : LeadingFit (keptDims axes dims) := by
  rw [reducedDims] at h
  split at h
  · exact h
  · intro front hfront
    obtain ⟨extents, hextents, rfl⟩ := List.prefix_map_iff.mp hfront
    rw [← Kernel.prod_filterMap_kept]
    exact h _ (hextents.filterMap _)

theorem trailingFit_keptDims {axes : Option (List Nat)} {keepdims : Bool} {dims : List Nat}
    (h : TrailingFit (reducedDims axes keepdims dims)) : TrailingFit (keptDims axes dims) := by
  rw [reducedDims] at h
  split at h
  · exact h
  · intro back hback
    obtain ⟨extents, hextents, rfl⟩ := List.suffix_map_iff.mp hback
    rw [← Kernel.prod_filterMap_kept]
    exact h _ (hextents.filterMap _)

namespace Kernel

variable {x y : Tensor α} {sx sy output : TensorSpec}

/-! ## Elementwise kernels -/

theorem binary_words (f : α → α → α) (hx : x.Fits sx) (hy : y.Fits sy)
    (hsx : Stretches sx.shape.dims output.shape.dims)
    (hsy : Stretches sy.shape.dims output.shape.dims) (hout : output.InWords) :
    binary f [x, y] output sizes = binary f [x, y] output := by
  have hxs : Stretches x.dims output.shape.dims := by rw [Tensor.dims, hx.1]; exact hsx
  have hys : Stretches y.dims output.shape.dims := by rw [Tensor.dims, hy.1]; exact hsy
  have hxd : x.data.size = x.dims.prod := by rw [Tensor.dims, hx.1]; exact hx.2
  have hyd : y.data.size = y.dims.prod := by rw [Tensor.dims, hy.1]; exact hy.2
  simp only [binary, pair, ok_bind, Tensor.ofData_words sizes hout.leading,
    broadcastData_words sizes hxs hxd hout.leading (.inr hout.room),
    broadcastData_words sizes hys hyd hout.leading (.inr hout.room)]

theorem unary_words (f : α → α) (inputs : List (Tensor α)) (hout : output.InWords) :
    unary f inputs output sizes = unary f inputs output := by
  simp only [unary, Tensor.ofData_words sizes hout.leading]

theorem constantLike_words (c : α) (inputs : List (Tensor α)) (hout : output.InWords) :
    constantLike c inputs output sizes = constantLike c inputs output := by
  simp only [constantLike, Tensor.fill_words sizes hout.leading hout.room, Tensor.fill_exact]

/-! ## Rearrangement -/

theorem reshape_words (inputs : List (Tensor α)) (hout : output.InWords) :
    reshape inputs output sizes = reshape inputs output := by
  simp only [reshape, sizes.product_eq_ok hout.leading, Sizes.product_exact]

/-- A place of the data is a word. -/
theorem element_place {data : Array α} (hdata : data.size ≤ 2 ^ 64) (place : Nat) :
    Below (element data place) (element data (sizes.place place)) := by
  intro e he
  have hlt : place < data.size := by
    unfold element at he
    split at he
    · next hget => exact (Array.getElem?_eq_some_iff.mp hget).1
    · cases he
  rw [sizes.place_eq (by omega)]
  exact he

/-- A transposition reads where the numbers without bound say, as these are places of its
operand. -/
theorem transpose_words (perm : List Nat) (hx : x.Fits sx) (hsx : TrailingFit sx.shape.dims)
    (hout : LeadingFit output.shape.dims) (hroom : output.elementCount < 2 ^ 60) :
    Below (transpose perm [x] output) (transpose perm [x] output sizes) := by
  have hdims : x.dims = sx.shape.dims := congrArg (·.shape.dims) hx.1
  have hdata : x.data.size ≤ 2 ^ 64 := hx.2 ▸ (hsx _ List.suffix_rfl).le
  have hcount : output.shape.dims.prod < 2 ^ 60 := hroom
  simp only [transpose, single, ok_bind, hdims, sizes.strides_eq_ok hsx, Sizes.strides_exact,
    sizes.product_eq_ok hout, Sizes.product_exact, sizes.room_eq_ok hcount, Sizes.room_exact,
    Tensor.ofData_words sizes hout]
  split
  · refine Below.bind (Below.mapM fun place _ => ?_) fun _ _ => Below.refl _
    refine Below.bind (Below.refl _) fun coords _ => Below.bind (Below.refl _) fun p _ => ?_
    exact element_place sizes hdata p
  · exact Below.refl _

/-! ## Sums -/

/-- A scatter adds where the numbers without bound say, as these are slots. -/
theorem scatterAdd_words (ar : Arithmetic α) {slots : Nat} (hslots : slots ≤ 2 ^ 64)
    (slotOf : Nat → Except EvalError Nat) (data : Array α) :
    Below (scatterAdd ar slots slotOf data) (scatterAdd ar slots slotOf data sizes) := by
  -- as many sums as slots throughout, so that a slot that is found is a word
  refine Below.foldlM (fun sums => sums.size = slots) Array.size_replicate ?_
  rintro sums hsize ⟨x, place⟩ -
  constructor
  · refine Below.bind (Below.refl _) fun slot _ c hc => ?_
    dsimp only [Sizes.place_exact] at hc ⊢
    have hlt : slot < slots := by
      by_contra hge
      rw [Array.getElem?_eq_none (by omega)] at hc
      cases hc
    rw [sizes.place_eq (by omega)]
    exact hc
  · intro c hc
    obtain ⟨slot, -, hc⟩ := bind_eq_ok_iff.mp hc
    dsimp only at hc
    split at hc
    · cases hc
      rw [Array.size_setIfInBounds]
      exact hsize
    · cases hc

theorem sum_words (ar : Arithmetic α) (axes : Option (List Nat)) {keepdims : Bool}
    (hx : x.Fits sx) (hdims : output.shape.dims = reducedDims axes keepdims sx.shape.dims)
    (hout : output.InWords) :
    Below (sum ar axes [x] output) (sum ar axes [x] output sizes) := by
  have hx : x.dims = sx.shape.dims := congrArg (·.shape.dims) hx.1
  have hleading : LeadingFit (keptDims axes sx.shape.dims) :=
    leadingFit_keptDims (hdims ▸ hout.leading)
  have htrailing : TrailingFit (keptDims axes sx.shape.dims) :=
    trailingFit_keptDims (hdims ▸ hout.trailing)
  have hroom : (keptDims axes sx.shape.dims).prod < 2 ^ 60 := by
    rw [← prod_reducedDims axes keepdims, ← hdims]
    exact hout.room
  simp only [sum, single, ok_bind, hx, sizes.strides_eq_ok htrailing, Sizes.strides_exact,
    sizes.product_eq_ok hleading, Sizes.product_exact, sizes.room_eq_ok hroom, Sizes.room_exact,
    Tensor.ofData_words sizes hout.leading]
  exact Below.bind (scatterAdd_words sizes ar (by omega) _ _) fun _ _ => Below.refl _

theorem collapseSumLike_words (ar : Arithmetic α) (x y : Tensor α) (hout : output.InWords) :
    Below (collapseSumLike ar [x, y] output) (collapseSumLike ar [x, y] output sizes) := by
  have hroom : output.shape.dims.prod < 2 ^ 60 := hout.room
  simp only [collapseSumLike, pair, ok_bind, sizes.strides_eq_ok hout.trailing,
    Sizes.strides_exact, sizes.product_eq_ok hout.leading, Sizes.product_exact,
    sizes.room_eq_ok hroom, Sizes.room_exact, Tensor.ofData_words sizes hout.leading]
  split
  · exact Below.refl _
  · exact Below.bind (scatterAdd_words sizes ar (by omega) _ _) fun _ _ => Below.refl _

/-- **With checked words** a collapse succeeds only where the extents of its target fit and there
is room for its slots. -/
theorem inWords_of_collapseSumLike {ar : Arithmetic α} {c : Tensor α}
    (h : collapseSumLike ar [x, y] output .checked = .ok c) : output.InWords := by
  simp only [collapseSumLike, pair, ok_bind] at h
  split at h
  · cases h
  · obtain ⟨_, hsteps, h⟩ := bind_eq_ok_iff.mp h
    obtain ⟨_, hcount, h⟩ := bind_eq_ok_iff.mp h
    obtain ⟨hleading, rfl⟩ := Sizes.product_checked_eq_ok_iff.mp hcount
    obtain ⟨_, hroom, -⟩ := bind_eq_ok_iff.mp h
    exact ⟨hleading, (Sizes.strides_checked_eq_ok_iff.mp hsteps).1,
      Sizes.room_checked_eq_ok_iff.mp hroom⟩

/-! ## Matrix products -/

theorem matmul_words (ar : Arithmetic α) {m k n : Nat} (hx : x.Fits sx) (hy : y.Fits sy)
    (hdx : sx.shape.dims = [m, k]) (hdy : sy.shape.dims = [k, n])
    (hdims : output.shape.dims = [m, n]) (hout : output.InWords) :
    matmul ar [x, y] output sizes = matmul ar [x, y] output := by
  have hx : x.dims = [m, k] := (congrArg (·.shape.dims) hx.1).trans hdx
  have hy : y.dims = [k, n] := (congrArg (·.shape.dims) hy.1).trans hdy
  have hroom : m * n < 2 ^ 60 := TensorSpec.elementCount_matrix hdims ▸ hout.room
  simp only [matmul, pair, ok_bind, hx, hy, sizes.word_eq_ok (Nat.lt_trans hroom (by decide)),
    Sizes.word_exact, sizes.room_eq_ok hroom, Sizes.room_exact,
    Tensor.ofData_words sizes hout.leading]

/-! ## Softmax -/

theorem softmax_words (ar : Arithmetic α) {dims : List Nat} {axis : Nat} (hx : x.dims = dims)
    (ha : axis < dims.length) (htrailing : TrailingFit dims) (hleading : LeadingFit dims)
    (hroom : dims.prod = 0 ∨ dims[axis] < 2 ^ 60) (hout : LeadingFit output.shape.dims) :
    softmax ar axis [x] output sizes = softmax ar axis [x] output := by
  simp only [softmax, single, ok_bind, hx, lanes_words sizes ha htrailing hleading hroom,
    Tensor.ofData_words sizes hout]

theorem softmaxCrossEntropy_words (ar : Arithmetic α) (hx : x.Fits sx) (hr : sx.shape.rank ≠ 0)
    (y : Tensor α) (hsx : sx.InWords) (hout : LeadingFit output.shape.dims) :
    softmaxCrossEntropy ar [x, y] output sizes = softmaxCrossEntropy ar [x, y] output := by
  have hlast : sx.shape.dims.length - 1 < sx.shape.dims.length :=
    Nat.sub_lt (Nat.pos_of_ne_zero hr) Nat.one_pos
  have hx : x.dims = sx.shape.dims := congrArg (·.shape.dims) hx.1
  simp only [softmaxCrossEntropy, pair, ok_bind, hx,
    lanes_words sizes hlast hsx.trailing hsx.leading (hsx.lane hlast),
    Tensor.ofData_words sizes hout]

/-! ## All operators -/

/-- **The kernel of a typed call** computes in words what it computes without bound. -/
theorem run_words (ar : Arithmetic α) (custom : CustomKernels α) {op : Operation}
    {inputs : List (Tensor α)} {specs : List TensorSpec}
    (hin : List.Forall₂ Tensor.Fits inputs specs)
    (h : op.resultSpec specs (some (.tensor output)) = .ok output)
    (hspecs : ∀ spec ∈ specs, spec.InWords) (hout : output.InWords) :
    Below (run ar custom op inputs output) (run ar custom op inputs output sizes) := by
  -- what the typing of a call says of its specs, said of its inputs
  have one : ∀ {x}, specs = [x] → x.InWords ∧ ∃ t, inputs = [t] ∧ t.Fits x := by
    rintro x rfl
    exact ⟨hspecs x (List.mem_singleton.mpr rfl), forall₂_singleton_right_iff.mp hin⟩
  have two : ∀ {x y}, specs = [x, y] →
      x.InWords ∧ ∃ t u, inputs = [t, u] ∧ t.Fits x ∧ u.Fits y := by
    rintro x y rfl
    exact ⟨hspecs x List.mem_cons_self, forall₂_pair_right_iff.mp hin⟩
  have elementwise : ∀ f : α → α → α, op.broadcastSpec specs = .ok output →
      binary f inputs output sizes = binary f inputs output := by
    intro f hb
    obtain ⟨x, y, hs, _, _, hsx, hsy⟩ := Operation.exists_of_broadcastSpec hb
    obtain ⟨-, t, u, rfl, ht, hu⟩ := two hs
    exact binary_words sizes f ht hu hsx hsy hout
  cases op with
  | add => exact .of_eq (elementwise ar.add h)
  | subtract => exact .of_eq (elementwise ar.sub h)
  | multiply => exact .of_eq (elementwise ar.mul h)
  | divide => exact .of_eq (elementwise ar.div h)
  | negative => exact .of_eq (unary_words sizes ar.neg inputs hout)
  | exp => exact .of_eq (unary_words sizes ar.exp inputs hout)
  | log => exact .of_eq (unary_words sizes ar.log inputs hout)
  | matmul =>
    obtain ⟨x, y, m, k, n, hs, _, hdx, hdy, rfl⟩ := Operation.matmulSpec_eq_ok_iff.mp h
    obtain ⟨-, t, u, rfl, ht, hu⟩ := two hs
    exact .of_eq (matmul_words sizes ar ht hu hdx hdy rfl hout)
  | transpose perm =>
    obtain ⟨x, hs, -, -⟩ := Operation.transposeSpec_eq_ok_iff.mp h
    obtain ⟨hx, t, rfl, ht⟩ := one hs
    exact transpose_words sizes perm ht hx.trailing hout.leading hout.room
  | reshape dims => exact .of_eq (reshape_words sizes inputs hout)
  | sum axes keepdims =>
    obtain ⟨x, hs, _, rfl⟩ := Operation.sumSpec_eq_ok_iff.mp h
    obtain ⟨-, t, rfl, ht⟩ := one hs
    exact sum_words sizes ar axes ht rfl hout
  | softmax axis =>
    obtain ⟨hs, ha⟩ := Operation.softmaxSpec_eq_ok_iff.mp h
    obtain ⟨hx, t, rfl, ht⟩ := one hs
    exact .of_eq (softmax_words sizes ar (congrArg (·.shape.dims) ht.1) ha hx.trailing hx.leading
      (hx.lane ha) hout.leading)
  | softmaxCrossEntropy =>
    obtain ⟨x, y, hs, _, _, hr, -⟩ := Operation.crossEntropySpec_eq_ok_iff.mp h
    obtain ⟨hx, t, u, rfl, ht, -⟩ := two hs
    exact .of_eq (softmaxCrossEntropy_words sizes ar ht hr u hx hout.leading)
  | ones => exact .of_eq (Tensor.fill_words sizes hout.leading hout.room ar.one)
  | zeros => exact .of_eq (Tensor.fill_words sizes hout.leading hout.room ar.zero)
  | onesLike => exact .of_eq (constantLike_words sizes ar.one inputs hout)
  | zerosLike => exact .of_eq (constantLike_words sizes ar.zero inputs hout)
  | collapseSumLike =>
    obtain ⟨x, hs, -, -⟩ := Operation.collapseSpec_eq_ok_iff.mp h
    obtain ⟨-, t, u, rfl, -, -⟩ := two hs
    exact collapseSumLike_words sizes ar t u hout
  | customCall target => exact .refl _

end Kernel

end TensorGraph
