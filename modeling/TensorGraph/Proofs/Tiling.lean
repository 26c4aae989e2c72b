/-
# TensorGraph.Proofs.Tiling -- broadcasting as a map of coordinates

The fast stretch takes whole blocks: it copies a block of the source where the remaining axes
agree, repeats one element where the source has none left that matters, and otherwise walks
through an axis. Written into a buffer, each at its own slots, the blocks tile the buffer: no
slot is left and none outside the block changes (`Filled`). What comes out is the coordinate
definition of a broadcast, which takes the coordinates of a place of the result, forgets the
leading ones, sets those on axes of extent 1 to 0, and reads there.
-/
import TensorGraph.Proofs.WordKernels

namespace TensorGraph

variable {α : Type}

/-! ## Writing blocks into a buffer -/

/-- Writes elements into the slots from `slot` on. -/
def overwrite (out : Array α) (slot : Nat) (xs : List α) : Except EvalError (Array α) :=
  if slot + xs.length ≤ out.size then
    .ok (out.extract 0 slot ++ xs.toArray ++ out.extract (slot + xs.length) out.size)
  else .error (.execution .outOfBounds)

/-- **`stretchInto`** -- `stretchBlock` with a buffer: each block goes into the slots from
`slot` on, and an axis that is walked through leaves the extents behind it between the slots
of its blocks. -/
def stretchInto (data : Array α) :
    (source result : List Nat) → (slot start : Nat) → Array α → Except EvalError (Array α)
  | d :: ds, r :: rs, slot, start, out =>
    if d :: ds = r :: rs then do
      let xs ← slice data start (r :: rs).prod
      overwrite out slot xs
    else if (d :: ds).all (· == 1) then do
      let x ← element data start
      overwrite out slot (List.replicate (r :: rs).prod x)
    else
      let step := if d = 1 then 0 else ds.prod
      (List.range r).foldlM
        (fun out i => stretchInto data ds rs (slot + i * rs.prod) (start + i * step) out) out
  | _, _, slot, start, out => do
    let x ← element data start
    overwrite out slot [x]

/-- **`Filled`** -- a buffer in which the `count` slots from `slot` on have been written, and no
others. -/
structure Filled (out : Array α) (slot count : Nat) (f : Nat → α) (out' : Array α) : Prop where
  /-- The buffer keeps its size. -/
  size_eq : out'.size = out.size
  /-- Every slot of the range holds its element. -/
  inside : ∀ i < count, out'[slot + i]? = some (f i)
  /-- Every other slot holds what it held. -/
  outside : ∀ j, j < slot ∨ slot + count ≤ j → out'[j]? = out[j]?

namespace Filled

variable {out mid out' : Array α} {slot m n : Nat} {f g : Nat → α}

theorem nothing (out : Array α) (slot : Nat) (f : Nat → α) : Filled out slot 0 f out :=
  ⟨rfl, fun _ hi => absurd hi (Nat.not_lt_zero _), fun _ _ => rfl⟩

theorem congr (h : Filled out slot n f out') (hfg : ∀ i < n, f i = g i) :
    Filled out slot n g out' := by
  refine ⟨h.size_eq, ?_, h.outside⟩
  intro i hi
  rw [h.inside i hi, hfg i hi]

/-- **Ranges that meet** make one range. -/
theorem append (h₁ : Filled out slot m f mid)
    (h₂ : Filled mid (slot + m) n (fun i => f (m + i)) out') : Filled out slot (m + n) f out' := by
  refine ⟨h₂.size_eq.trans h₁.size_eq, ?_, ?_⟩
  · intro i hi
    by_cases him : i < m
    · rw [h₂.outside (slot + i) (by omega), h₁.inside i him]
    · have hread := h₂.inside (i - m) (by omega)
      rwa [show slot + m + (i - m) = slot + i by omega, show m + (i - m) = i by omega] at hread
  · intro j hj
    rw [h₂.outside j (by omega), h₁.outside j (by omega)]

/-- **Rows one after the other** fill what they take together. -/
theorem rows {step : Array α → Nat → Except EvalError (Array α)}
    (h : ∀ i < m, ∀ out, slot + m * n ≤ out.size → ∃ out', step out i = .ok out' ∧
      Filled out (slot + i * n) n (fun j => f (i * n + j)) out')
    (hout : slot + m * n ≤ out.size) :
    ∃ out', (List.range m).foldlM step out = .ok out' ∧ Filled out slot (m * n) f out' := by
  have hprefix : ∀ k ≤ m, ∃ out', (List.range k).foldlM step out = .ok out' ∧
      Filled out slot (k * n) f out' := by
    intro k
    induction k with
    | zero =>
      intro _
      refine ⟨out, rfl, ?_⟩
      rw [Nat.zero_mul]
      exact nothing out slot f
    | succ k ih =>
      intro hk
      obtain ⟨mid, hmid, hfill⟩ := ih (by omega)
      obtain ⟨out', hstep, hrow⟩ := h k hk mid (by rw [hfill.size_eq]; exact hout)
      refine ⟨out', ?_, ?_⟩
      · rw [List.range_succ]
        exact foldlM_append_eq_ok_iff.mpr ⟨mid, hmid, foldlM_cons_eq_ok_iff.mpr ⟨out', hstep, rfl⟩⟩
      · rw [Nat.succ_mul]
        exact hfill.append hrow
  exact hprefix m (Nat.le_refl m)

/-- **A buffer filled throughout** is the array of its elements, whatever it held before. -/
theorem eq_tabulate (h : Filled out 0 out.size f out') : out' = tabulate out.size f := by
  refine TensorGraph.eq_tabulate h.size_eq ?_
  intro i hi
  have hread := h.inside i hi
  rwa [Nat.zero_add] at hread

end Filled

/-- A block that lies within the buffer is written. -/
theorem exists_overwrite {out : Array α} {slot n : Nat} (f : Nat → α)
    (h : slot + n ≤ out.size) :
    ∃ out', overwrite out slot ((List.range n).map f) = .ok out' ∧ Filled out slot n f out' := by
  have hlen : ((List.range n).map f).length = n := by
    rw [List.length_map, List.length_range]
  have hfront : (out.extract 0 slot).size = slot := by
    rw [Array.size_extract]
    omega
  have hblock : (out.extract 0 slot ++ ((List.range n).map f).toArray).size = slot + n := by
    rw [Array.size_append, hfront, List.size_toArray, hlen]
  refine ⟨_, if_pos (by rwa [hlen]), ?_⟩
  rw [hlen]
  refine ⟨?_, ?_, ?_⟩
  · rw [Array.size_append, hblock, Array.size_extract]
    omega
  · intro i hi
    rw [Array.getElem?_append_left (by omega), Array.getElem?_append_right (by omega), hfront,
      Nat.add_sub_cancel_left, List.getElem?_toArray, List.getElem?_map, List.getElem?_range hi,
      Option.map_some]
  · intro j hj
    rcases hj with hj | hj
    · rw [Array.getElem?_append_left (by omega), Array.getElem?_append_left (by omega),
        Array.getElem?_extract, if_pos (by omega), Nat.zero_add]
    · rw [Array.getElem?_append_right (by omega), hblock, Array.getElem?_extract]
      by_cases hin : j < out.size
      · rw [if_pos (by omega), Nat.add_sub_cancel' hj]
      · rw [if_neg (by omega), Array.getElem?_eq_none (by omega)]

/-! ## The blocks tile the buffer -/

/-- **A stretch into a buffer** writes the whole block of the result, at its own slots. -/
theorem exists_stretchInto {data out : Array α} {source result : List Nat} {slot start : Nat}
    (hs : List.Forall₂ (fun d r => d = 1 ∨ d = r) source result) (hpos : 0 < result.prod)
    (h : start + source.prod ≤ data.size) (hout : slot + result.prod ≤ out.size) (z : α) :
    ∃ out', stretchInto data source result slot start out = .ok out' ∧
      Filled out slot result.prod
        (fun i => data.getD (start + stretchedPlace source (coordinates result i)) z) out' := by
  induction hs generalizing slot start out with
  | nil =>
    obtain ⟨out', hw, hfill⟩ :=
      exists_overwrite (fun i => data.getD (start + stretchedPlace [] (coordinates [] i)) z) hout
    refine ⟨out', ?_, hfill⟩
    rw [stretchInto, element_eq_ok h z]
    · exact hw
    · intro _ _ _ _ h
      cases h
  | @cons d r ds rs hd hds ih =>
    have hpos' : 0 < rs.prod := by
      rw [List.prod_cons] at hpos
      exact Nat.pos_of_mul_pos_left hpos
    have hsource := prod_pos_of_stretched (.cons hd hds) hpos
    rw [stretchInto]
    split
    · -- the same extents: the block is copied
      next he =>
      rw [← he] at hout ⊢
      obtain ⟨out', hw, hfill⟩ := exists_overwrite (fun i => data.getD (start + i) z) hout
      refine ⟨out', ?_, hfill.congr ?_⟩
      · rw [slice_eq_ok h z, ok_bind, hw]
      · intro i hi
        rw [stretchedPlace_self (coordinates_lt hsource i), dot_coordinates_of_lt hi]
    · split
      · -- nothing but extents 1: one element fills the block
        next hone =>
        have hall : ∀ d' ∈ d :: ds, d' = 1 := fun d' hd' =>
          beq_iff_eq.mp (List.all_eq_true.mp hone d' hd')
        obtain ⟨out', hw, hfill⟩ := exists_overwrite (fun _ => data.getD start z) hout
        refine ⟨out', ?_, hfill.congr ?_⟩
        · rw [element_eq_ok (by omega) z, ok_bind, ← hw, List.map_const', List.length_range]
        · intro i _
          rw [stretchedPlace_all_one _ hall, Nat.add_zero]
      · -- the leading axis is walked through: each step fills the next row
        rw [List.prod_cons] at hout ⊢
        refine Filled.rows ?_ hout
        intro i hi out hout
        have hrow : slot + i * rs.prod + rs.prod ≤ out.size := by
          have hle : i * rs.prod + rs.prod ≤ r * rs.prod := row_end_le hi
          omega
        obtain ⟨out', hw, hfill⟩ := ih hpos' (row_within hd hi h) hrow
        refine ⟨out', hw, hfill.congr ?_⟩
        intro j hj
        rw [row_place d ds hi hj]

/-! ## Coordinates -/

/-- The place in a source is that of the coordinates with 0 on the axes of extent 1. -/
theorem stretchedPlace_eq_dot (source coords : List Nat) :
    stretchedPlace source coords =
      dot (List.zipWith (fun d c => if d = 1 then 0 else c) source coords) (strides source) := by
  induction source generalizing coords with
  | nil => rfl
  | cons d ds ih =>
    cases coords with
    | nil => rfl
    | cons c cs =>
      rw [stretchedPlace, List.zipWith_cons_cons, strides, dot_cons, ih]
      split
      · rw [Nat.zero_mul]
      · rfl

/-- What is broadcast is read by coordinates, in numbers without bound. -/
theorem exists_broadcastData_coordinates {source result : List Nat}
    (hs : Stretches source result) {data : Array α} (hd : data.size = source.prod) :
    ∃ ys, broadcastData data source result = .ok ys ∧ ys.size = result.prod ∧
      ∀ i < result.prod, ∃ coords, unravel result i = .ok coords ∧
        List.Forall₂ (· < ·) coords result ∧ dot coords (strides result) = i ∧
        let kept := List.zipWith (fun d c => if d = 1 then 0 else c) source
          (coords.drop (result.length - source.length))
        dot kept (strides source) < data.size ∧ ys[i]? = data[dot kept (strides source)]? := by
  obtain ⟨ys, hys, hsize, hread⟩ := exists_broadcastData hs hd
  refine ⟨ys, hys, hsize, fun i hi => ?_⟩
  have hpos : 0 < result.prod := Nat.zero_lt_of_lt hi
  refine ⟨_, unravel_eq_ok hpos, coordinates_lt hpos i, dot_coordinates_of_lt hi, ?_⟩
  have hplace : sourcePlace source result i = dot _ (strides source) :=
    stretchedPlace_eq_dot source _
  dsimp only
  rw [← hplace]
  exact hread i hi

/-- The blocks fill any buffer of the size of the result with what is broadcast. -/
theorem stretchInto_eq_ok {source result : List Nat} (hs : Stretches source result)
    {data ys out : Array α} (hd : data.size = source.prod)
    (hys : broadcastData data source result = .ok ys) (hout : out.size = result.prod)
    (hpos : 0 < out.size) :
    stretchInto data (alignedDims result.length source) result 0 0 out = .ok ys := by
  have hdata : 0 < data.size := hd ▸ hs.prod_pos (hout ▸ hpos)
  have hblock : 0 + (alignedDims result.length source).prod ≤ data.size := by
    rw [prod_alignedDims, hd, Nat.zero_add]
  have hfit : 0 + result.prod ≤ out.size := by
    rw [hout, Nat.zero_add]
  obtain ⟨out', hw, hfill⟩ :=
    exists_stretchInto hs.aligned (hout ▸ hpos) hblock hfit data[0]
  have hrun := broadcastData_eq_ok hs hd data[0]
  rw [← hout] at hfill hrun
  rw [hw, hfill.eq_tabulate, ← hys, hrun]
  congr 1
  refine tabulate_congr fun i _ => ?_
  rw [Nat.zero_add, stretchedPlace_alignedDims]

/-- **Broadcasting is reading by coordinates.** With checked words, a source that stretches to the
result is broadcast exactly where the leading extents of the result fit and there is room for the
result, or the result is the source. There it is broadcast in all sizes alike: the element at a
place of the result is the one whose coordinates in the source are those of the place without the
leading ones, and 0 on each axis of extent 1. The same array comes out of any buffer into which the
blocks are written, so every slot is written. -/
theorem broadcastData_reads {source result : Shape} (h : source.broadcast? result = some result)
    {data : Array α} (hd : data.size = source.elementCount) :
    ((∃ ys, broadcastData data source.dims result.dims .checked = .ok ys) ↔
      LeadingFit result.dims ∧
        (source.dims = result.dims ∨ result.elementCount < 2 ^ 60)) ∧
      (LeadingFit result.dims → (source.dims = result.dims ∨ result.elementCount < 2 ^ 60) →
        ∃ ys, (∀ sizes, broadcastData data source.dims result.dims sizes = .ok ys) ∧
          ys.size = result.elementCount ∧
          (∀ i < result.elementCount, ∃ coords, unravel result.dims i = .ok coords ∧
            List.Forall₂ (· < ·) coords result.dims ∧ dot coords (strides result.dims) = i ∧
            let kept := List.zipWith (fun d c => if d = 1 then 0 else c) source.dims
              (coords.drop (result.rank - source.rank))
            dot kept (strides source.dims) < data.size ∧
              ys[i]? = data[dot kept (strides source.dims)]?) ∧
          ∀ out : Array α, out.size = result.elementCount → 0 < out.size →
            stretchInto data (alignedDims result.rank source.dims) result.dims 0 0 out =
              .ok ys) := by
  have hs : Stretches source.dims result.dims := (stretches_of_broadcast? h).1
  refine ⟨broadcastData_checked_iff hs hd, fun hfit hroom => ?_⟩
  obtain ⟨ys, hys, hsize, hread⟩ := exists_broadcastData_coordinates hs hd
  refine ⟨ys, fun sizes => ?_, hsize, hread, fun out hout hpos => ?_⟩
  · exact (broadcastData_words sizes hs hd hfit hroom).trans hys
  · exact stretchInto_eq_ok hs hd hys hout hpos

/-- A column of two, stretched to two matrices of three columns: each row is filled with one
element, whatever the buffer held. -/
theorem broadcastData_reads_column :
    (Shape.mk [2, 1]).broadcast? ⟨[2, 2, 3]⟩ = some ⟨[2, 2, 3]⟩ ∧
      ∃ ys, (∀ sizes, broadcastData #[7, 9] [2, 1] [2, 2, 3] sizes = .ok ys) ∧ ys.size = 12 ∧
        (∀ i < 12, ∃ coords, unravel [2, 2, 3] i = .ok coords ∧
          List.Forall₂ (· < ·) coords [2, 2, 3] ∧ dot coords [6, 3, 1] = i ∧
          let kept := List.zipWith (fun d c => if d = 1 then 0 else c) [2, 1] (coords.drop 1)
          dot kept [1, 1] < 2 ∧ ys[i]? = #[7, 9][dot kept [1, 1]]?) ∧
        (∀ out : Array Nat, out.size = 12 → 0 < out.size →
          stretchInto #[7, 9] [1, 2, 1] [2, 2, 3] 0 0 out = .ok ys) ∧
        ys = #[7, 7, 7, 9, 9, 9, 7, 7, 7, 9, 9, 9] := by
  have hjoin : (Shape.mk [2, 1]).broadcast? ⟨[2, 2, 3]⟩ = some ⟨[2, 2, 3]⟩ := by decide
  have hrun : broadcastData #[7, 9] [2, 1] [2, 2, 3] =
      .ok #[7, 7, 7, 9, 9, 9, 7, 7, 7, 9, 9, 9] := by rfl
  have hsize : (#[7, 9] : Array Nat).size = (Shape.mk [2, 1]).elementCount := rfl
  obtain ⟨ys, hys, hcount, hread, hwrite⟩ :=
    (broadcastData_reads hjoin hsize).2 (by decide) (.inr (by decide))
  exact ⟨hjoin, ys, hys, hcount, hread, hwrite, Except.ok.inj ((hys .exact).symm.trans hrun)⟩

/-- **Not every broadcast succeeds in words.** Before an empty axis the number of elements
overflows where words are checked; where they wrap around, `2 ^ 66` elements count as none. -/
theorem broadcastData_beyondWords :
    ((Shape.mk [2 ^ 32, 1, 0]).broadcast? ⟨[2 ^ 32, 2 ^ 32, 0]⟩ = some ⟨[2 ^ 32, 2 ^ 32, 0]⟩ ∧
      (#[] : Array Nat).size = (Shape.mk [2 ^ 32, 1, 0]).elementCount ∧
      broadcastData (#[] : Array Nat) [2 ^ 32, 1, 0] [2 ^ 32, 2 ^ 32, 0] .checked =
        .error (.execution .overflow)) ∧
    (Shape.mk [1]).broadcast? ⟨[2 ^ 33, 2 ^ 33]⟩ = some ⟨[2 ^ 33, 2 ^ 33]⟩ ∧
      (#[7] : Array Nat).size = (Shape.mk [1]).elementCount ∧
      (Shape.mk [2 ^ 33, 2 ^ 33]).elementCount = 2 ^ 66 ∧
      broadcastData #[7] [1] [2 ^ 33, 2 ^ 33] .wrapping = .ok #[] :=
  ⟨⟨by decide, rfl, rfl⟩, by decide, rfl, rfl, rfl⟩

end TensorGraph
