/-
# TensorGraph.Proofs.Stretch -- broadcasting as reading along places

Broadcasting copies whole blocks where it can. Its result is the array that holds at each
place of the result the element of the source at `sourcePlace`; in particular no access of
the blocks is out of bounds and the blocks fill the result.
-/
import TensorGraph.Proofs.Outcome
import TensorGraph.Proofs.Places

namespace TensorGraph

variable {α : Type}

/-! ## Arrays given by functions -/

/-- **`tabulate`** -- the array that a function of places gives. -/
def tabulate (n : Nat) (f : Nat → α) : Array α := ((List.range n).map f).toArray

@[simp] theorem size_tabulate (n : Nat) (f : Nat → α) : (tabulate n f).size = n := by
  rw [tabulate, List.size_toArray, List.length_map, List.length_range]

@[simp] theorem getElem?_tabulate (n : Nat) (f : Nat → α) (i : Nat) :
    (tabulate n f)[i]? = if i < n then some (f i) else none := by
  rw [tabulate, List.getElem?_toArray, List.getElem?_map]
  split
  · next h => rw [List.getElem?_range h, Option.map_some]
  · next h =>
    rw [List.getElem?_eq_none (by rw [List.length_range]; exact Nat.le_of_not_lt h),
      Option.map_none]

theorem getD_tabulate {n : Nat} (f : Nat → α) {i : Nat} (h : i < n) (z : α) :
    (tabulate n f).getD i z = f i := by
  rw [Array.getD_eq_getD_getElem?, getElem?_tabulate, if_pos h, Option.getD_some]

theorem getElem?_eq_some_getD {data : Array α} {i : Nat} (h : i < data.size) (z : α) :
    data[i]? = some (data.getD i z) := by
  rw [Array.getD_eq_getD_getElem?, Array.getElem?_eq_getElem h, Option.getD_some]

/-- An array is the one that its elements give. -/
theorem eq_tabulate {data : Array α} {n : Nat} {f : Nat → α} (hs : data.size = n)
    (h : ∀ i < n, data[i]? = some (f i)) : data = tabulate n f := by
  apply Array.ext_getElem?
  intro i
  rw [getElem?_tabulate]
  split
  · next hi => exact h i hi
  · next hi => exact Array.getElem?_eq_none (by rw [hs]; exact Nat.le_of_not_lt hi)

theorem eq_tabulate_getD (data : Array α) (z : α) :
    data = tabulate data.size fun i => data.getD i z :=
  eq_tabulate rfl fun _ hi => getElem?_eq_some_getD hi z

theorem tabulate_congr {n : Nat} {f g : Nat → α} (h : ∀ i < n, f i = g i) :
    tabulate n f = tabulate n g := by
  refine eq_tabulate (size_tabulate n f) fun i hi => ?_
  rw [getElem?_tabulate, if_pos hi, h i hi]

theorem element_eq_ok {data : Array α} {i : Nat} (h : i < data.size) (z : α) :
    element data i = .ok (data.getD i z) := by
  rw [element, getElem?_eq_some_getD h z]

/-- The places of a matrix, row by row. -/
theorem flatten_map_range (m n : Nat) (f : Nat → α) :
    ((List.range m).map fun i => (List.range n).map fun j => f (i * n + j)).flatten =
      (List.range (m * n)).map f := by
  induction m with
  | zero => rw [Nat.zero_mul]; rfl
  | succ m ih =>
    rw [List.range_succ, List.map_append, List.flatten_append, ih, Nat.succ_mul, List.range_add,
      List.map_append, List.map_map, List.map_singleton, List.flatten_singleton]
    rfl

/-! ## Blocks -/

theorem slice_eq_ok {data : Array α} {start count : Nat} (h : start + count ≤ data.size)
    (z : α) :
    slice data start count = .ok ((List.range count).map fun i => data.getD (start + i) z) := by
  rw [slice, if_pos h]
  congr 1
  apply List.ext_getElem?
  intro i
  rw [Array.getElem?_toList, Array.getElem?_extract, List.getElem?_map]
  by_cases hi : i < count
  · rw [if_pos (by omega), List.getElem?_range hi, Option.map_some,
      getElem?_eq_some_getD (by omega) z]
  · rw [if_neg (by omega),
      List.getElem?_eq_none (by rw [List.length_range]; exact Nat.le_of_not_lt hi), Option.map_none]

/-- The source of a row of the block lies within the source of the block. -/
theorem row_within {d r i start size : Nat} {ds : List Nat} (hd : d = 1 ∨ d = r) (hi : i < r)
    (h : start + (d :: ds).prod ≤ size) :
    start + i * (if d = 1 then 0 else ds.prod) + ds.prod ≤ size := by
  rw [List.prod_cons] at h
  by_cases h1 : d = 1
  · rw [if_pos h1, Nat.mul_zero]
    rw [h1, Nat.one_mul] at h
    exact h
  · rw [if_neg h1]
    have hdr : d = r := hd.resolve_left h1
    have hle : i * ds.prod + ds.prod ≤ d * ds.prod := row_end_le (hdr ▸ hi)
    omega

/-- Where a row of the block is read. -/
theorem row_place (d : Nat) (ds : List Nat) {r i j start : Nat} {rs : List Nat} (hi : i < r)
    (hj : j < rs.prod) :
    start + i * (if d = 1 then 0 else ds.prod) + stretchedPlace ds (coordinates rs j) =
      start + stretchedPlace (d :: ds) (coordinates (r :: rs) (i * rs.prod + j)) := by
  rw [coordinates_cons_mul_add hi hj, stretchedPlace, Nat.add_assoc]
  congr 2
  split
  · rw [Nat.mul_zero]
  · rfl

/-- **A block of the result** holds what the source has at the places of its coordinates. -/
theorem stretchBlock_eq_ok {data : Array α} {source result : List Nat} {start : Nat}
    (hs : List.Forall₂ (fun d r => d = 1 ∨ d = r) source result) (hpos : 0 < result.prod)
    (h : start + source.prod ≤ data.size) (z : α) :
    stretchBlock data source result start =
      .ok ((List.range result.prod).map fun i =>
        data.getD (start + stretchedPlace source (coordinates result i)) z) := by
  induction hs generalizing start with
  | nil =>
    rw [stretchBlock, element_eq_ok h z]
    · rfl
    · intro _ _ _ _ h
      cases h
  | @cons d r ds rs hd hds ih =>
    have hpos' : 0 < rs.prod := by
      rw [List.prod_cons] at hpos
      exact Nat.pos_of_mul_pos_left hpos
    have hsource := prod_pos_of_stretched (.cons hd hds) hpos
    rw [stretchBlock]
    split
    · -- the same extents: the block is copied
      next he =>
      rw [← he, Sizes.product_exact, ok_bind, slice_eq_ok h z]
      congr 1
      refine List.map_congr_left fun i hi => ?_
      have hi := List.mem_range.mp hi
      rw [stretchedPlace_self (coordinates_lt hsource i), dot_coordinates_of_lt hi]
    · split
      · -- nothing but extents 1: one element fills the block
        next hone =>
        have hall : ∀ d' ∈ d :: ds, d' = 1 := fun d' hd' =>
          beq_iff_eq.mp (List.all_eq_true.mp hone d' hd')
        rw [Sizes.product_exact, ok_bind, element_eq_ok (by omega) z]
        show Except.ok _ = _
        congr 1
        symm
        rw [List.eq_replicate_iff, List.length_map, List.length_range]
        refine ⟨rfl, fun x hx => ?_⟩
        obtain ⟨i, _, rfl⟩ := List.mem_map.mp hx
        rw [stretchedPlace_all_one _ hall, Nat.add_zero]
      · -- the leading axis is walked through
        have hblock : ∀ i ∈ List.range r,
            stretchBlock data ds rs (start + i * (if d = 1 then 0 else ds.prod)) =
              .ok ((List.range rs.prod).map fun j =>
                data.getD (start + stretchedPlace (d :: ds)
                  (coordinates (r :: rs) (i * rs.prod + j))) z) := by
          intro i hi
          have hi := List.mem_range.mp hi
          rw [ih hpos' (row_within hd hi h)]
          congr 1
          refine List.map_congr_left fun j hj => ?_
          rw [row_place d ds hi (List.mem_range.mp hj)]
        show ((List.range r).mapM (fun i => stretchBlock data ds rs
          (start + i * (if d = 1 then 0 else ds.prod))) >>= fun blocks =>
            Except.ok blocks.flatten) = _
        rw [mapM_eq_ok_map hblock, ok_bind, List.prod_cons]
        congr 1
        exact flatten_map_range r rs.prod fun i =>
          data.getD (start + stretchedPlace (d :: ds) (coordinates (r :: rs) i)) z

/-! ## Broadcasting -/

theorem stretchedPlace_aligned (n : Nat) (source coords : List Nat) (h : n ≤ coords.length) :
    stretchedPlace (List.replicate n 1 ++ source) coords =
      stretchedPlace source (coords.drop n) := by
  induction n generalizing coords with
  | zero => rfl
  | succ n ih =>
    cases coords with
    | nil => exact absurd h (Nat.not_succ_le_zero _)
    | cons c cs =>
      rw [List.replicate_succ, List.cons_append, stretchedPlace, if_pos rfl, Nat.zero_add,
        ih cs (Nat.le_of_succ_le_succ h), List.drop_succ_cons]

/-- Axes of extent 1 in front do not count. -/
theorem stretchedPlace_alignedDims (source result : List Nat) (place : Nat) :
    stretchedPlace (alignedDims result.length source) (coordinates result place) =
      sourcePlace source result place := by
  rw [alignedDims, stretchedPlace_aligned, sourcePlace]
  rw [length_coordinates]
  exact Nat.sub_le _ _

theorem Stretches.aligned {source result : List Nat} (hs : Stretches source result) :
    List.Forall₂ (fun d r => d = 1 ∨ d = r) (alignedDims result.length source) result := by
  have hfront : List.Forall₂ (fun d r => d = 1 ∨ d = r)
      (List.replicate (result.length - source.length) 1)
      (result.take (result.length - source.length)) := by
    rw [List.forall₂_iff_get]
    refine ⟨?_, fun i hi _ => .inl ?_⟩
    · rw [List.length_replicate, List.length_take]
      omega
    · rw [List.get_eq_getElem, List.getElem_replicate]
  have happend : List.Forall₂ (fun d r => d = 1 ∨ d = r) (alignedDims result.length source)
      (result.take (result.length - source.length) ++
        result.drop (result.length - source.length)) := List.rel_append hfront hs.2
  rwa [List.take_append_drop] at happend

theorem prod_alignedDims (rank : Nat) (source : List Nat) :
    (alignedDims rank source).prod = source.prod := by
  rw [alignedDims, List.prod_append, List.prod_replicate, one_pow, one_mul]

theorem Stretches.all_zip {source result : List Nat} (hs : Stretches source result) :
    ((alignedDims result.length source).zip result).all (fun (d, r) => d == 1 || d == r) =
      true := by
  rw [List.all_eq_true]
  rintro ⟨d, r⟩ hdr
  have := List.forall₂_zip hs.aligned hdr
  rwa [Bool.or_eq_true, beq_iff_eq, beq_iff_eq]

/-- **Broadcasting reads along `sourcePlace`.** It succeeds whenever the source stretches to
the result. -/
theorem broadcastData_eq_ok {data : Array α} {source result : List Nat}
    (hs : Stretches source result) (hd : data.size = source.prod) (z : α) :
    broadcastData data source result =
      .ok (tabulate result.prod fun i => data.getD (sourcePlace source result i) z) := by
  rw [broadcastData, Sizes.product_exact, ok_bind]
  by_cases h0 : result.prod = 0
  · rw [if_pos h0, h0]
    rfl
  · have hpos : 0 < result.prod := Nat.pos_of_ne_zero h0
    rw [if_neg h0]
    by_cases he : source = result
    · rw [if_pos he]
      congr 1
      refine eq_tabulate (he ▸ hd) fun i hi => ?_
      rw [he, sourcePlace_self hi]
      exact getElem?_eq_some_getD (by rw [hd, he]; exact hi) z
    · have hstart : 0 + (alignedDims result.length source).prod ≤ data.size := by
        rw [prod_alignedDims, hd, Nat.zero_add]
      have hblock := stretchBlock_eq_ok hs.aligned hpos hstart z
      rw [if_neg he, if_neg (Nat.not_lt.mpr hs.1), if_pos hs.all_zip, Sizes.room_exact, ok_bind,
        hblock, ok_bind]
      rw [if_pos (by rw [List.length_map, List.length_range])]
      show Except.ok (List.toArray _) = Except.ok (List.toArray _)
      congr 2
      refine List.map_congr_left fun i _ => ?_
      rw [Nat.zero_add, stretchedPlace_alignedDims]

/-- **What a broadcast holds** is read in the source, which has an element wherever the result
has one. -/
theorem exists_broadcastData {data : Array α} {source result : List Nat}
    (hs : Stretches source result) (hd : data.size = source.prod) :
    ∃ ys, broadcastData data source result = .ok ys ∧ ys.size = result.prod ∧
      ∀ i < result.prod, sourcePlace source result i < data.size ∧
        ys[i]? = data[sourcePlace source result i]? := by
  by_cases h0 : result.prod = 0
  · refine ⟨#[], if_pos h0, h0.symm, ?_⟩
    intro i hi
    omega
  · have hpos : 0 < result.prod := Nat.pos_of_ne_zero h0
    have hdata : 0 < data.size := hd ▸ hs.prod_pos hpos
    refine ⟨_, broadcastData_eq_ok hs hd data[0], size_tabulate _ _, ?_⟩
    intro i hi
    have hlt : sourcePlace source result i < data.size := hd ▸ sourcePlace_lt hs hpos i
    rw [getElem?_tabulate, getElem?_eq_some_getD hlt data[0]]
    exact ⟨hlt, if_pos hi⟩

end TensorGraph
