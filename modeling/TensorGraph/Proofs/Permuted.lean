/-
# TensorGraph.Proofs.Permuted -- transposition and its inverse

A permutation of axes rearranges extents, coordinates and strides alike. The inverse
permutation undoes each of these, so the maps of places that belong to a permutation and to
its inverse undo each other. A transposition reads the operand along the first.
-/
import Mathlib.Data.List.GetD
import Mathlib.Data.List.Nodup
import Mathlib.Data.List.Perm.Subperm
import TensorGraph.Proofs.Kernels

namespace TensorGraph

variable {α : Type}

/-! ## Permutations of axes -/

namespace IsPermutation

variable {perm : List Nat} {rank : Nat}

/-- A permutation lists the axes. -/
theorem perm_range (h : IsPermutation perm rank) : perm.Perm (List.range rank) := by
  have hsub : perm.Subperm (List.range rank) :=
    h.2.1.subperm fun axis ha => List.mem_range.mpr (h.2.2 axis ha)
  exact hsub.perm_of_length_le (by rw [List.length_range, h.1])

theorem mem_iff (h : IsPermutation perm rank) {axis : Nat} : axis ∈ perm ↔ axis < rank :=
  h.perm_range.mem_iff.trans List.mem_range

end IsPermutation

private theorem getElem?_foldl_set (perm : List Nat) (hn : perm.Nodup) (k : Nat)
    (init : List Nat) {b : Nat} (hb : b < init.length) :
    ((perm.zipIdx k).foldl (fun inverse (axis, i) => inverse.set axis i) init)[b]? =
      if b ∈ perm then some (k + perm.idxOf b) else init[b]? := by
  induction perm generalizing k init with
  | nil => rfl
  | cons x xs ih =>
    obtain ⟨hx, hxs⟩ := List.nodup_cons.mp hn
    rw [List.zipIdx_cons, List.foldl_cons, ih hxs (k + 1) (init.set x k)
      (by rwa [List.length_set])]
    by_cases he : x = b
    · subst he
      rw [if_neg hx, if_pos List.mem_cons_self, List.idxOf_cons_self, Nat.add_zero,
        List.getElem?_set_self hb]
    · have he' : ¬b = x := fun h => he h.symm
      rw [List.getElem?_set_ne he, List.idxOf_cons_ne _ he]
      by_cases hm : b ∈ xs
      · rw [if_pos hm, if_pos (List.mem_cons_of_mem x hm)]
        congr 1
        omega
      · rw [if_neg hm, if_neg fun h => (List.mem_cons.mp h).elim he' hm]

theorem length_inversePermutation (perm : List Nat) :
    (inversePermutation perm).length = perm.length := by
  rw [inversePermutation]
  have hlen : ∀ (ps : List (Nat × Nat)) (init : List Nat),
      (ps.foldl (fun inverse (axis, i) => inverse.set axis i) init).length = init.length := by
    intro ps
    induction ps with
    | nil => intro init; rfl
    | cons p ps ih =>
      intro init
      rw [List.foldl_cons, ih, List.length_set]
  rw [hlen, List.length_replicate]

section Inverse

variable {perm : List Nat} {rank : Nat}

/-- **The inverse holds for each axis its position.** -/
theorem getElem?_inversePermutation (h : IsPermutation perm rank) {axis : Nat}
    (ha : axis < rank) : (inversePermutation perm)[axis]? = some (perm.idxOf axis) := by
  rw [inversePermutation, getElem?_foldl_set perm h.2.1 0 _ (by rwa [List.length_replicate, h.1]),
    if_pos (h.mem_iff.mpr ha), Nat.zero_add]

theorem getElem?_idxOf (h : IsPermutation perm rank) {axis : Nat} (ha : axis < rank) :
    perm[perm.idxOf axis]? = some axis := by
  have hm := h.mem_iff.mpr ha
  rw [List.getElem?_eq_getElem (List.idxOf_lt_length_of_mem hm), List.getElem_idxOf]

theorem exists_getElem? (h : IsPermutation perm rank) {i : Nat} (hi : i < rank) :
    ∃ axis, perm[i]? = some axis := ⟨_, List.getElem?_eq_getElem (h.1.symm ▸ hi)⟩

theorem idxOf_of_getElem? (h : IsPermutation perm rank) {i axis : Nat}
    (hi : perm[i]? = some axis) : perm.idxOf axis = i := by
  obtain ⟨hlt, he⟩ := List.getElem?_eq_some_iff.mp hi
  rw [← he]
  exact h.2.1.idxOf_getElem i hlt

/-- **The inverse is a permutation** of the same rank. -/
theorem isPermutation_inverse (h : IsPermutation perm rank) :
    IsPermutation (inversePermutation perm) rank := by
  have hget : ∀ i (hi : i < (inversePermutation perm).length),
      (inversePermutation perm)[i] = perm.idxOf i ∧ i < rank := by
    intro i hi
    have hr : i < rank := by rwa [length_inversePermutation, h.1] at hi
    have := getElem?_inversePermutation h hr
    rw [List.getElem?_eq_getElem hi] at this
    exact ⟨Option.some.inj this, hr⟩
  refine ⟨(length_inversePermutation perm).trans h.1, ?_, fun axis ha => ?_⟩
  · rw [List.nodup_iff_injective_getElem]
    rintro ⟨i, hi⟩ ⟨j, hj⟩ hij
    obtain ⟨hi', hri⟩ := hget i hi
    obtain ⟨hj', hrj⟩ := hget j hj
    have he : perm.idxOf i = perm.idxOf j := by
      rw [← hi', ← hj']
      exact hij
    have := (getElem?_idxOf h hri).symm.trans (he ▸ getElem?_idxOf h hrj)
    exact Fin.ext (Option.some.inj this)
  · obtain ⟨i, hi, rfl⟩ := List.getElem_of_mem ha
    obtain ⟨hi', hri⟩ := hget i hi
    rw [hi', ← h.1]
    exact List.idxOf_lt_length_of_mem (h.mem_iff.mpr hri)

/-- **The inverse of the inverse** is the permutation. -/
theorem inversePermutation_inverse (h : IsPermutation perm rank) :
    inversePermutation (inversePermutation perm) = perm := by
  have h' := isPermutation_inverse h
  apply List.ext_getElem?
  intro i
  by_cases hi : i < rank
  · obtain ⟨axis, hp⟩ := exists_getElem? h hi
    have hm : axis < rank := h.2.2 axis (List.mem_of_getElem? hp)
    have hq : (inversePermutation perm)[axis]? = some i := by
      rw [getElem?_inversePermutation h hm, idxOf_of_getElem? h hp]
    rw [getElem?_inversePermutation h' hi, idxOf_of_getElem? h' hq, hp]
  · rw [List.getElem?_eq_none (by rw [length_inversePermutation, h'.1]; omega),
      List.getElem?_eq_none (by rw [h.1]; omega)]

/-! ## Rearranged lists -/

theorem permuted_eq_map (h : IsPermutation perm rank) {xs : List Nat} (hl : xs.length = rank) :
    permuted xs perm = perm.map fun axis => xs.getD axis 0 := by
  rw [permuted, ← List.filterMap_eq_map]
  refine List.filterMap_congr fun axis ha => ?_
  have hlt : axis < xs.length := hl ▸ h.2.2 axis ha
  rw [List.getElem?_eq_getElem hlt, Function.comp, List.getD_eq_getElem _ _ hlt]

theorem length_permuted (h : IsPermutation perm rank) {xs : List Nat} (hl : xs.length = rank) :
    (permuted xs perm).length = rank := by
  rw [permuted_eq_map h hl, List.length_map, h.1]

theorem getElem?_permuted (h : IsPermutation perm rank) {xs : List Nat} (hl : xs.length = rank)
    {i axis : Nat} (hi : perm[i]? = some axis) : (permuted xs perm)[i]? = xs[axis]? := by
  have hlt : axis < xs.length := hl ▸ h.2.2 axis (List.mem_of_getElem? hi)
  rw [permuted_eq_map h hl, List.getElem?_map, hi, Option.map_some, List.getElem?_eq_getElem hlt,
    List.getD_eq_getElem _ _ hlt]

/-- **The inverse restores the order.** -/
theorem permuted_permuted_inverse (h : IsPermutation perm rank) {xs : List Nat}
    (hl : xs.length = rank) : permuted (permuted xs perm) (inversePermutation perm) = xs := by
  have h' := isPermutation_inverse h
  have hl' := length_permuted h hl
  apply List.ext_getElem?
  intro i
  by_cases hi : i < rank
  · rw [getElem?_permuted h' hl' (getElem?_inversePermutation h hi),
      getElem?_permuted h hl (getElem?_idxOf h hi)]
  · rw [List.getElem?_eq_none (by rw [length_permuted h' hl']; omega),
      List.getElem?_eq_none (by omega)]

theorem permuted_inverse_permuted (h : IsPermutation perm rank) {xs : List Nat}
    (hl : xs.length = rank) : permuted (permuted xs (inversePermutation perm)) perm = xs := by
  have := permuted_permuted_inverse (isPermutation_inverse h) hl
  rwa [inversePermutation_inverse h] at this

theorem prod_permuted (h : IsPermutation perm rank) {xs : List Nat} (hl : xs.length = rank) :
    (permuted xs perm).prod = xs.prod := by
  rw [permuted_eq_map h hl]
  have hperm : (perm.map fun axis => xs.getD axis 0).Perm
      ((List.range rank).map fun axis => xs.getD axis 0) := h.perm_range.map _
  rw [hperm.prod_eq]
  congr 1
  apply List.ext_getElem?
  intro i
  rw [List.getElem?_map]
  by_cases hi : i < rank
  · rw [List.getElem?_range hi, Option.map_some, List.getElem?_eq_getElem (hl ▸ hi),
      List.getD_eq_getElem _ _ (hl ▸ hi)]
  · rw [List.getElem?_eq_none (by rw [List.length_range]; omega),
      List.getElem?_eq_none (by omega), Option.map_none]

theorem dot_eq_sum {xs ys : List Nat} {n : Nat} (hx : xs.length = n) (hy : ys.length = n) :
    dot xs ys = ((List.range n).map fun i => xs.getD i 0 * ys.getD i 0).sum := by
  rw [dot]
  congr 1
  apply List.ext_getElem?
  intro i
  rw [List.getElem?_zipWith, List.getElem?_map]
  by_cases hi : i < n
  · rw [List.getElem?_range hi, List.getElem?_eq_getElem (hx ▸ hi),
      List.getElem?_eq_getElem (hy ▸ hi), Option.map_some, List.getD_eq_getElem _ _ (hx ▸ hi),
      List.getD_eq_getElem _ _ (hy ▸ hi)]
  · rw [List.getElem?_eq_none (by omega), List.getElem?_eq_none (l := List.range n)
      (by rw [List.length_range]; omega), Option.map_none]

/-- **A rearrangement moves from one factor to the other** as its inverse. -/
theorem dot_permuted (h : IsPermutation perm rank) {xs ys : List Nat} (hx : xs.length = rank)
    (hy : ys.length = rank) :
    dot xs (permuted ys perm) = dot (permuted xs (inversePermutation perm)) ys := by
  have h' := isPermutation_inverse h
  rw [dot_eq_sum hx (length_permuted h hy), dot_eq_sum (length_permuted h' hx) hy]
  have hterms : ∀ i ∈ List.range rank, xs.getD i 0 * (permuted ys perm).getD i 0 =
      (fun axis => (permuted xs (inversePermutation perm)).getD axis 0 * ys.getD axis 0)
        (perm.getD i 0) := by
    intro i hi
    have hi := List.mem_range.mp hi
    obtain ⟨axis, hp⟩ := exists_getElem? h hi
    have hm : axis < rank := h.2.2 axis (List.mem_of_getElem? hp)
    have hq : (inversePermutation perm)[axis]? = some i := by
      rw [getElem?_inversePermutation h hm, idxOf_of_getElem? h hp]
    simp only [List.getD_eq_getElem?_getD]
    rw [getElem?_permuted h hy hp, hp, Option.getD_some, getElem?_permuted h' hx hq]
  have hlist : (List.range rank).map (fun i => perm.getD i 0) = perm := by
    apply List.ext_getElem?
    intro i
    rw [List.getElem?_map]
    by_cases hi : i < rank
    · rw [List.getElem?_range hi, Option.map_some, List.getElem?_eq_getElem (h.1 ▸ hi),
        List.getD_eq_getElem _ _ (h.1 ▸ hi)]
    · rw [List.getElem?_eq_none (by rw [List.length_range]; omega),
        List.getElem?_eq_none (by rw [h.1]; omega), Option.map_none]
  rw [List.map_congr_left hterms]
  calc _ = (((List.range rank).map fun i => perm.getD i 0).map fun axis =>
        (permuted xs (inversePermutation perm)).getD axis 0 * ys.getD axis 0).sum := by
        rw [List.map_map]
        rfl
    _ = _ := by
        rw [hlist]
        exact (h.perm_range.map _).sum_eq

/-! ## Places -/

/-- **`transposedPlace`** -- where a place of the transposed tensor is read. -/
def transposedPlace (dims perm : List Nat) (place : Nat) : Nat :=
  dot (coordinates (permuted dims perm) place) (permuted (strides dims) perm)

theorem forall₂_permuted (h : IsPermutation perm rank) {xs ys : List Nat}
    (hx : xs.length = rank) (hxy : List.Forall₂ (· < ·) xs ys) :
    List.Forall₂ (· < ·) (permuted xs perm) (permuted ys perm) := by
  have hy : ys.length = rank := hxy.length_eq ▸ hx
  rw [permuted_eq_map h hx, permuted_eq_map h hy, List.forall₂_map_left_iff,
    List.forall₂_map_right_iff, List.forall₂_same]
  intro axis ha
  have hax : axis < xs.length := hx ▸ h.2.2 axis ha
  have hay : axis < ys.length := hy ▸ h.2.2 axis ha
  rw [List.getD_eq_getElem _ _ hax, List.getD_eq_getElem _ _ hay]
  exact (List.forall₂_iff_get.mp hxy).2 axis hax hay

/-- **The coordinates that are read** are those of the transposed tensor in the order of
the inverse. -/
theorem coordinates_transposedPlace (h : IsPermutation perm rank) {dims : List Nat}
    (hl : dims.length = rank) (hpos : 0 < dims.prod) (place : Nat) :
    transposedPlace dims perm place < dims.prod ∧
      coordinates dims (transposedPlace dims perm place) =
        permuted (coordinates (permuted dims perm) place) (inversePermutation perm) := by
  have hc : (coordinates (permuted dims perm) place).length = rank := by
    rw [length_coordinates, length_permuted h hl]
  have hlt : List.Forall₂ (· < ·)
      (permuted (coordinates (permuted dims perm) place) (inversePermutation perm)) dims := by
    have := forall₂_permuted (isPermutation_inverse h) hc
      (coordinates_lt (by rwa [prod_permuted h hl]) place)
    rwa [permuted_permuted_inverse h hl] at this
  rw [transposedPlace, dot_permuted h hc (by rw [length_strides, hl])]
  exact ⟨dot_strides_lt hlt, coordinates_dot hlt⟩

/-- **The place map of the inverse undoes the place map.** -/
theorem transposedPlace_inverse (h : IsPermutation perm rank) {dims : List Nat}
    (hl : dims.length = rank) {place : Nat} (hp : place < (permuted dims perm).prod) :
    transposedPlace (permuted dims perm) (inversePermutation perm)
      (transposedPlace dims perm place) = place := by
  have h' := isPermutation_inverse h
  have hpos : 0 < dims.prod := by
    rw [← prod_permuted h hl]
    exact Nat.zero_lt_of_lt hp
  have hl' := length_permuted h hl
  have hc : (coordinates (permuted dims perm) place).length = rank := by
    rw [length_coordinates, hl']
  have hread := (coordinates_transposedPlace h hl hpos place).2
  rw [transposedPlace, permuted_permuted_inverse h hl, hread,
    dot_permuted h' (length_permuted h' hc) (by rw [length_strides, hl']),
    inversePermutation_inverse h, permuted_inverse_permuted h hc, dot_coordinates_of_lt hp]

/-- **The place map of the permutation undoes that of the inverse.** -/
theorem transposedPlace_of_inverse (h : IsPermutation perm rank) {dims : List Nat}
    (hl : dims.length = rank) {place : Nat} (hp : place < dims.prod) :
    transposedPlace dims perm
      (transposedPlace (permuted dims perm) (inversePermutation perm) place) = place := by
  have hback := permuted_permuted_inverse h hl
  have hp' : place <
      (permuted (permuted dims perm) (inversePermutation perm)).prod := by rwa [hback]
  have hplace := transposedPlace_inverse (isPermutation_inverse h) (length_permuted h hl) hp'
  rwa [hback, inversePermutation_inverse h] at hplace

/-! ## The kernel -/

namespace Kernel

theorem permutedPlace_eq_ok (h : IsPermutation perm rank) {inputStrides coords : List Nat}
    (hs : inputStrides.length = rank) (hc : coords.length = rank) :
    permutedPlace inputStrides perm coords = .ok (dot coords (permuted inputStrides perm)) := by
  rw [permutedPlace, dot_eq_sum hc (length_permuted h hs)]
  refine bind_eq_ok_iff.mpr
    ⟨coords.zipIdx.map fun p => p.1 * (permuted inputStrides perm).getD p.2 0,
      mapM_eq_ok_map ?_, ?_⟩
  · rintro ⟨c, axis⟩ hm
    have hlt : axis < rank := by
      have := List.snd_lt_of_mem_zipIdx hm
      rwa [hc] at this
    obtain ⟨source, hp⟩ := exists_getElem? h hlt
    have hin : source < inputStrides.length := hs ▸ h.2.2 source (List.mem_of_getElem? hp)
    dsimp only
    rw [hp, Option.bind_some, List.getD_eq_getElem?_getD, getElem?_permuted h hs hp,
      List.getElem?_eq_getElem hin]
    rfl
  · show Except.ok _ = Except.ok _
    congr 2
    apply List.ext_getElem?
    intro i
    rw [List.getElem?_map, List.getElem?_map, List.getElem?_zipIdx, Nat.zero_add]
    by_cases hi : i < rank
    · rw [List.getElem?_range hi, List.getElem?_eq_getElem (hc ▸ hi), Option.map_some,
        Option.map_some, Option.map_some, List.getD_eq_getElem coords _ (hc ▸ hi)]
    · rw [List.getElem?_eq_none (by omega), List.getElem?_eq_none (l := List.range rank)
        (by rw [List.length_range]; omega), Option.map_none, Option.map_none, Option.map_none]

/-- **A transposition** reads the operand along `transposedPlace`. -/
theorem transpose_eq_ok {x : Tensor α} {sx output : TensorSpec} (hx : x.Fits sx)
    (h : IsPermutation perm sx.shape.rank)
    (hout : output.shape.dims = permuted sx.shape.dims perm) (z : α) :
    transpose perm [x] output = .ok ⟨output, tabulate output.elementCount fun i =>
      x.data.getD (transposedPlace sx.shape.dims perm i) z⟩ := by
  have hl : sx.shape.dims.length = sx.shape.rank := rfl
  have hcount : output.elementCount = sx.shape.dims.prod := by
    rw [TensorSpec.elementCount, Shape.elementCount, hout, prod_permuted h hl]
  have hread : ∀ i ∈ List.range output.elementCount,
      (do
        let coords ← unravel output.shape.dims i
        element x.data (← permutedPlace (strides sx.shape.dims) perm coords)) =
      Except.ok (x.data.getD (transposedPlace sx.shape.dims perm i) z) := by
    intro i hi
    have hpos : 0 < sx.shape.dims.prod := by
      rw [← hcount]
      exact Nat.zero_lt_of_lt (List.mem_range.mp hi)
    have hpos' : 0 < output.shape.dims.prod := by rwa [hout, prod_permuted h hl]
    rw [unravel_eq_ok hpos', ok_bind, permutedPlace_eq_ok h (by rw [length_strides, hl])
      (by rw [length_coordinates, hout, length_permuted h hl]), ok_bind, hout,
      ← transposedPlace, element_eq_ok _ z]
    rw [hx.2]
    exact (coordinates_transposedPlace h hl hpos i).1
  show (if perm.length = x.spec.shape.dims.length then _ else _) = _
  rw [hx.1, if_pos (h.1.trans hl.symm), Tensor.dims, hx.1]
  show ((List.range output.elementCount).mapM (fun i => do
    let coords ← unravel output.shape.dims i
    element x.data (← permutedPlace (strides sx.shape.dims) perm coords)) >>= fun data =>
      Tensor.ofData output data.toArray) = _
  rw [mapM_eq_ok_map hread, ok_bind]
  exact Tensor.ofData_tabulate rfl _

end Kernel

end Inverse

end TensorGraph
