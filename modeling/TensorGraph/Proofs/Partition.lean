/-
# TensorGraph.Proofs.Partition -- lanes cut a tensor into disjoint pieces

The places of a lane are found by products and strides and not by coordinates. Their coordinates
are those of a block in front, a number that counts along the axis, and those of a shift behind
(`coordinates_lanePlace`); every place of the tensor arises in this way. There are as many places
in the lanes as in the tensor, so that each of them occurs once.

A softmax goes through the lanes and writes each place twice, first the exponential and then the
quotient (`Kernel.LaneWrite`). Because no two lanes meet, a later lane leaves what an earlier one
has written, and what stands in a lane in the end is made of the input in that lane.
-/
import TensorGraph.Proofs.WordKernels

namespace TensorGraph

/-! ## Coordinates along a lane -/

section Coordinates

variable {front back : List Nat} {d outer shift a place : Nat}

/-- The coordinates of the axes in front are those of the block, and the axes behind do not look
at the block. -/
theorem coordinates_append (front back : List Nat) (place : Nat) :
    coordinates (front ++ back) place =
      coordinates front (place / back.prod) ++ coordinates back place := by
  induction front with
  | nil => rfl
  | cons x front ih =>
    rw [List.cons_append, coordinates_cons, coordinates_cons, ih, List.cons_append,
      List.prod_append, Nat.div_div_eq_div_mul, Nat.mul_comm back.prod]

/-- **The coordinates of a place in a lane**: those of the block, the number along the axis, and
those of the shift. -/
theorem coordinates_lanePlace (hs : shift < back.prod) (ha : a < d) (outer : Nat) :
    coordinates (front ++ d :: back) (outer * d * back.prod + shift + a * back.prod) =
      coordinates front outer ++ a :: coordinates back shift := by
  obtain ⟨hlt, -, -⟩ := matrix_place ha hs
  have hplace : outer * d * back.prod + shift + a * back.prod =
      outer * (d :: back).prod + (a * back.prod + shift) := by
    rw [List.prod_cons, Nat.mul_assoc]
    omega
  have hblock : (outer * (d :: back).prod + (a * back.prod + shift)) / (d :: back).prod =
      outer := by
    rw [← List.prod_cons] at hlt
    exact (matrix_place (Nat.lt_succ_self outer) hlt).2.1
  rw [hplace, coordinates_append, hblock, coordinates_mul_add, coordinates_cons_mul_add ha hs]

/-- **Every place is in a lane.** -/
theorem exists_lanePlace (h : place < (front ++ d :: back).prod) :
    ∃ outer < front.prod, ∃ shift < back.prod, ∃ a < d,
      place = outer * d * back.prod + shift + a * back.prod := by
  rw [List.prod_append, List.prod_cons] at h
  have hblock : 0 < d * back.prod := Nat.pos_of_mul_pos_left (Nat.zero_lt_of_lt h)
  have hback : 0 < back.prod := Nat.pos_of_mul_pos_left hblock
  refine ⟨place / (d * back.prod), Nat.div_lt_of_lt_mul (by rwa [Nat.mul_comm]),
    place % (d * back.prod) % back.prod, Nat.mod_lt _ hback,
    place % (d * back.prod) / back.prod,
    (Nat.div_lt_iff_lt_mul hback).mpr (Nat.mod_lt _ hblock), ?_⟩
  have houter := Nat.div_add_mod' place (d * back.prod)
  have hinner := Nat.div_add_mod' (place % (d * back.prod)) back.prod
  rw [Nat.mul_assoc]
  omega

/-- Coordinates determine a place. -/
theorem eq_of_coordinates {dims : List Nat} {p q : Nat} (hp : p < dims.prod) (hq : q < dims.prod)
    (h : coordinates dims p = coordinates dims q) : p = q := by
  rw [← dot_coordinates_of_lt hp, h, dot_coordinates_of_lt hq]

/-- Without the axis, the coordinates in a lane are those of the block and of the shift. -/
theorem eraseIdx_coordinates (outer shift a : Nat) :
    (coordinates front outer ++ a :: coordinates back shift).eraseIdx front.length =
      coordinates front outer ++ coordinates back shift := by
  have hfront : (coordinates front outer).length ≤ front.length := (length_coordinates _ _).le
  rw [List.eraseIdx_append_of_length_le hfront, length_coordinates, Nat.sub_self,
    List.eraseIdx_cons_zero]

end Coordinates

/-! ## Lanes -/

/-- **`IsLane`** -- the places whose coordinates agree off an axis, in the order of their
coordinates on it. -/
structure IsLane (dims : List Nat) (axis : Nat) (lane : List Nat) : Prop where
  /-- A lane is as long as the axis. -/
  length : dims[axis]? = some lane.length
  /-- Along the lane the coordinate on the axis counts from 0. -/
  counts : ∀ a place, lane[a]? = some place → (coordinates dims place)[axis]? = some a
  /-- With a place, a lane has all the places that agree with it off the axis, and no others. -/
  members : ∀ place ∈ lane, ∀ other, other ∈ lane ↔ other < dims.prod ∧
    (coordinates dims other).eraseIdx axis = (coordinates dims place).eraseIdx axis

section Lanes

variable {front back : List Nat} {d : Nat}

/-- The lane of a block and a shift. -/
def laneOf (d : Nat) (back : List Nat) (outer shift : Nat) : List Nat :=
  (List.range d).map fun a => outer * d * back.prod + shift + a * back.prod

theorem isLane_laneOf {outer shift : Nat} (ho : outer < front.prod) (hs : shift < back.prod) :
    IsLane (front ++ d :: back) front.length (laneOf d back outer shift) where
  length := by
    rw [laneOf, List.length_map, List.length_range, List.getElem?_append_right (Nat.le_refl _),
      Nat.sub_self, List.getElem?_cons_zero]
  counts := by
    intro a place hplace
    obtain ⟨hlt, rfl⟩ := List.getElem?_eq_some_iff.mp hplace
    have ha : a < d := by simpa [laneOf] using hlt
    simp only [laneOf, List.getElem_map, List.getElem_range]
    rw [coordinates_lanePlace hs ha, List.getElem?_append_right (length_coordinates _ _).le,
      length_coordinates, Nat.sub_self, List.getElem?_cons_zero]
  members := by
    intro place hplace other
    obtain ⟨a, ha, rfl⟩ := List.mem_map.mp hplace
    have ha := List.mem_range.mp ha
    rw [coordinates_lanePlace hs ha, eraseIdx_coordinates]
    constructor
    · intro hother
      obtain ⟨a', ha', rfl⟩ := List.mem_map.mp hother
      have ha' := List.mem_range.mp ha'
      refine ⟨?_, by rw [coordinates_lanePlace hs ha', eraseIdx_coordinates]⟩
      have hlt := (matrix_place ho (matrix_place ha' hs).1).1
      rw [List.prod_append, List.prod_cons, Nat.mul_assoc outer]
      omega
    · rintro ⟨hlt, hagree⟩
      obtain ⟨outer', ho', shift', hs', a', ha', rfl⟩ := exists_lanePlace hlt
      rw [coordinates_lanePlace hs' ha', eraseIdx_coordinates] at hagree
      obtain ⟨hfront, hback⟩ := List.append_inj hagree (by rw [length_coordinates,
        length_coordinates])
      obtain rfl := eq_of_coordinates ho' ho hfront
      obtain rfl := eq_of_coordinates hs' hs hback
      exact List.mem_map.mpr ⟨a', List.mem_range.mpr ha', rfl⟩

/-- The lanes of all blocks and shifts. -/
def allLanes (front : List Nat) (d : Nat) (back : List Nat) : List (List Nat) :=
  (List.range front.prod).flatMap fun outer => (List.range back.prod).map (laneOf d back outer)

theorem lanes_eq_allLanes (hpos : 0 < (front ++ d :: back).prod) :
    lanes (front ++ d :: back) front.length = .ok (allLanes front d back) := by
  have haxis : front.length < (front ++ d :: back).length := by simp
  have hbehind : (front ++ d :: back).drop (front.length + 1) = back := by simp
  rw [lanes_eq haxis hpos, List.take_left, hbehind, List.getElem_append_right (Nat.le_refl _)]
  simp only [Nat.sub_self, List.getElem_cons_zero]
  rfl

theorem mem_allLanes {lane : List Nat} :
    lane ∈ allLanes front d back ↔
      ∃ outer < front.prod, ∃ shift < back.prod, lane = laneOf d back outer shift := by
  simp only [allLanes, List.mem_flatMap, List.mem_map, List.mem_range, eq_comm]

/-- The lanes have as many places as the tensor. -/
theorem length_flatten_allLanes (front : List Nat) (d : Nat) (back : List Nat) :
    (allLanes front d back).flatten.length = (front ++ d :: back).prod := by
  have hcount : (allLanes front d back).length = front.prod * back.prod := by
    simp only [allLanes, List.length_flatMap, List.length_map, List.length_range, List.map_const',
      List.sum_replicate_nat]
  have hlengths : (allLanes front d back).map List.length =
      List.replicate (front.prod * back.prod) d := by
    refine List.eq_replicate_iff.mpr ⟨by rw [List.length_map, hcount], ?_⟩
    rw [List.forall_mem_map]
    intro lane hlane
    obtain ⟨outer, -, shift, -, rfl⟩ := mem_allLanes.mp hlane
    rw [laneOf, List.length_map, List.length_range]
  rw [List.length_flatten, hlengths, List.sum_replicate_nat, List.prod_append,
    List.prod_cons, Nat.mul_assoc, Nat.mul_comm d]

/-- **Each place is in one lane, and there once**: every place of the tensor is found in the
lanes, which have no more places than the tensor. -/
theorem perm_flatten_allLanes (front : List Nat) (d : Nat) (back : List Nat) :
    (allLanes front d back).flatten.Perm (List.range (front ++ d :: back).prod) := by
  have hfound : List.range (front ++ d :: back).prod ⊆ (allLanes front d back).flatten := by
    intro place hplace
    obtain ⟨outer, ho, shift, hs, a, ha, rfl⟩ := exists_lanePlace (List.mem_range.mp hplace)
    exact List.mem_flatten.mpr ⟨_, mem_allLanes.mpr ⟨outer, ho, shift, hs, rfl⟩,
      List.mem_map.mpr ⟨a, List.mem_range.mpr ha, rfl⟩⟩
  refine ((List.subperm_of_subset List.nodup_range hfound).perm_of_length_le ?_).symm
  rw [length_flatten_allLanes, List.length_range]

/-- **The lanes along an axis** partition the places of a tensor. -/
theorem exists_partition {dims : List Nat} {axis : Nat} (h : axis < dims.length) :
    ∃ ls, lanes dims axis = .ok ls ∧ (∀ lane ∈ ls, IsLane dims axis lane) ∧
      ls.flatten.Perm (List.range dims.prod) ∧ (0 ∈ dims → ls = []) := by
  rcases Nat.eq_zero_or_pos dims.prod with h0 | hpos
  · refine ⟨[], lanes_of_empty h h0, fun _ hm => absurd hm List.not_mem_nil, ?_, fun _ => rfl⟩
    rw [h0]
    exact .refl []
  · obtain ⟨front, d, back, rfl, rfl⟩ : ∃ front d back, dims = front ++ d :: back ∧
        front.length = axis :=
      ⟨dims.take axis, dims[axis], dims.drop (axis + 1), by simp, by
        rw [List.length_take, Nat.min_eq_left h.le]⟩
    refine ⟨_, lanes_eq_allLanes hpos, fun lane hlane => ?_, perm_flatten_allLanes front d back,
      fun hzero => ?_⟩
    · obtain ⟨outer, ho, shift, hs, rfl⟩ := mem_allLanes.mp hlane
      exact isLane_laneOf ho hs
    · exact absurd (forall_pos_of_prod_pos hpos 0 hzero) (Nat.lt_irrefl 0)

end Lanes

/-! ## Writing at the places of a lane -/

section Placing

variable {α : Type} {data out mid out' : Array α} {places : List Nat} {ys zs : List α}

/-- The elements at places within the data. -/
def elementsAt (data : Array α) (places : List Nat) : List α :=
  places.filterMap fun place => data[place]?

theorem elementsAt_cons {place : Nat} {x : α} (h : data[place]? = some x) (places : List Nat) :
    elementsAt data (place :: places) = x :: elementsAt data places :=
  List.filterMap_cons_some h

theorem mapM_element_eq (h : ∀ place ∈ places, place < data.size) :
    places.mapM (element data) = .ok (elementsAt data places) := by
  induction places with
  | nil => rfl
  | cons place places ih =>
    obtain ⟨hplace, hplaces⟩ := List.forall_mem_cons.mp h
    have hget := Array.getElem?_eq_getElem hplace
    rw [elementsAt_cons hget]
    exact mapM_cons_eq_ok_iff.mpr ⟨_, _, by rw [element, hget], ih hplaces, rfl⟩

theorem elementsAt_congr (h : ∀ place ∈ places, out'[place]? = out[place]?) :
    elementsAt out' places = elementsAt out places := List.filterMap_congr h

theorem length_elementsAt (h : ∀ place ∈ places, place < data.size) :
    (elementsAt data places).length = places.length := by
  induction places with
  | nil => rfl
  | cons place places ih =>
    obtain ⟨hplace, hplaces⟩ := List.forall_mem_cons.mp h
    rw [elementsAt_cons (Array.getElem?_eq_getElem hplace), List.length_cons, ih hplaces,
      List.length_cons]

/-- Data with the same elements at places agree there. -/
theorem getElem?_eq_of_elementsAt (h : ∀ place ∈ places, place < out.size)
    (h' : ∀ place ∈ places, place < out'.size)
    (hsame : elementsAt out places = elementsAt out' places) :
    ∀ place ∈ places, out[place]? = out'[place]? := by
  induction places with
  | nil => exact fun _ hm => absurd hm List.not_mem_nil
  | cons place places ih =>
    obtain ⟨hplace, hplaces⟩ := List.forall_mem_cons.mp h
    obtain ⟨hplace', hplaces'⟩ := List.forall_mem_cons.mp h'
    have hget := Array.getElem?_eq_getElem hplace
    have hget' := Array.getElem?_eq_getElem hplace'
    rw [elementsAt_cons hget, elementsAt_cons hget'] at hsame
    obtain ⟨hfirst, hrest⟩ := List.cons.inj hsame
    exact List.forall_mem_cons.mpr ⟨by rw [hget, hget', hfirst], ih hplaces hplaces' hrest⟩

/-- **`Placed`** -- data in which elements have been written at places, and nowhere else. -/
structure Placed (out : Array α) (places : List Nat) (ys : List α) (out' : Array α) : Prop where
  /-- The data keep their size. -/
  size_eq : out'.size = out.size
  /-- The elements stand at the places. -/
  inside : elementsAt out' places = ys
  /-- Every other place holds what it held. -/
  outside : ∀ place, place ∉ places → out'[place]? = out[place]?

/-- What is written later at the same places stays. -/
theorem Placed.trans (h : Placed out places ys mid) (h' : Placed mid places zs out') :
    Placed out places zs out' where
  size_eq := h'.size_eq.trans h.size_eq
  inside := h'.inside
  outside place hm := (h'.outside place hm).trans (h.outside place hm)

theorem Placed.unique (hin : ∀ place ∈ places, place < out.size) (h : Placed out places ys mid)
    (h' : Placed out places ys out') : mid = out' := by
  have hall : ∀ place : Nat, mid[place]? = out'[place]? := by
    intro place
    by_cases hm : place ∈ places
    · exact getElem?_eq_of_elementsAt (h.size_eq ▸ hin) (h'.size_eq ▸ hin)
        (h.inside.trans h'.inside.symm) place hm
    · rw [h.outside place hm, h'.outside place hm]
  exact Array.ext_getElem? hall

/-- **Elements are written at places** that differ and lie within the data. -/
theorem exists_placed (ys : List α) (hin : ∀ place ∈ places, place < out.size)
    (hn : places.Nodup) (hlen : ys.length = places.length) :
    ∃ out', Kernel.writeLane out places ys = .ok out' ∧ Placed out places ys out' := by
  induction places generalizing out ys with
  | nil =>
    obtain rfl := List.length_eq_zero_iff.mp hlen
    exact ⟨out, rfl, rfl, rfl, fun _ _ => rfl⟩
  | cons place places ih =>
    obtain ⟨hplace, hplaces⟩ := List.forall_mem_cons.mp hin
    obtain ⟨hnew, hn⟩ := List.nodup_cons.mp hn
    cases ys with
    | nil => cases hlen
    | cons y ys =>
      have hsize : (out.setIfInBounds place y).size = out.size := Array.size_setIfInBounds
      obtain ⟨out', hwrite, hp⟩ := ih ys (hsize ▸ hplaces) hn (Nat.succ.inj hlen)
      refine ⟨out', ?_, hp.size_eq.trans hsize, ?_, fun other hother => ?_⟩
      · exact foldlM_cons_eq_ok_iff.mpr ⟨_, if_pos hplace, hwrite⟩
      · have hfirst : out'[place]? = some y := by
          rw [hp.outside place hnew, Array.getElem?_setIfInBounds_self_of_lt hplace]
        rw [elementsAt_cons hfirst, hp.inside]
      · obtain ⟨hne, hother⟩ := not_or.mp (List.mem_cons.not.mp hother)
        rw [hp.outside other hother, Array.getElem?_setIfInBounds_ne (Ne.symm hne)]

end Placing

/-! ## The writes of a softmax -/

namespace Kernel

variable {α : Type}

/-- **`LaneWrite`** -- one write of a softmax to its result. -/
inductive LaneWrite (α : Type) where
  /-- The exponential of the input at a place, relative to the greatest element of its lane. -/
  | exponential (place : Nat) (greatest : α)
  /-- What the result holds at a place, divided by the sum of its lane. -/
  | quotient (place : Nat) (sum : α)

namespace LaneWrite

/-- The place at which an exponential is written. -/
def exponential? : LaneWrite α → Option Nat
  | exponential place _ => some place
  | quotient _ _ => none

/-- The place at which a quotient is written. -/
def quotient? : LaneWrite α → Option Nat
  | exponential _ _ => none
  | quotient place _ => some place

/-- Writes to the result. -/
def apply (ar : Arithmetic α) (input result : Array α) :
    LaneWrite α → Except EvalError (Array α)
  | exponential place greatest => do
    let x ← element input place
    writeAt result place (ar.exp (ar.sub x greatest))
  | quotient place sum => do
    let e ← element result place
    writeAt result place (ar.div e sum)

end LaneWrite

/-- The writes to a lane: all its exponentials, then all its quotients. -/
def laneWrites (ar : Arithmetic α) (input : Array α) (lane : List Nat) : List (LaneWrite α) :=
  lane.map (.exponential · (laneMax ar (elementsAt input lane))) ++
    lane.map (.quotient · (total ar (laneExp ar (elementsAt input lane))))

/-- **`softmaxWrites`** -- the writes to several lanes, one lane after the other. -/
def softmaxWrites (ar : Arithmetic α) (input : Array α) (ls : List (List Nat)) :
    List (LaneWrite α) := ls.flatMap (laneWrites ar input)

theorem filterMap_exponential? (ar : Arithmetic α) (input : Array α) (ls : List (List Nat)) :
    (softmaxWrites ar input ls).filterMap LaneWrite.exponential? = ls.flatten := by
  have hlane : ∀ lane, (laneWrites ar input lane).filterMap LaneWrite.exponential? = lane := by
    intro lane
    simp [laneWrites, List.filterMap_map, Function.comp_def, LaneWrite.exponential?]
  rw [softmaxWrites, List.filterMap_flatMap, List.flatMap_congr fun lane _ => hlane lane,
    List.flatMap_id']

theorem filterMap_quotient? (ar : Arithmetic α) (input : Array α) (ls : List (List Nat)) :
    (softmaxWrites ar input ls).filterMap LaneWrite.quotient? = ls.flatten := by
  have hlane : ∀ lane, (laneWrites ar input lane).filterMap LaneWrite.quotient? = lane := by
    intro lane
    simp [laneWrites, List.filterMap_map, Function.comp_def, LaneWrite.quotient?]
  rw [softmaxWrites, List.filterMap_flatMap, List.flatMap_congr fun lane _ => hlane lane,
    List.flatMap_id']

section Writes

variable {ar : Arithmetic α} {input out : Array α} {places lane : List Nat}

/-- The exponentials of a lane. -/
theorem foldlM_exponential (h : ∀ place ∈ places, place < input.size) (greatest : α) :
    (places.map (.exponential · greatest)).foldlM (LaneWrite.apply ar input) out =
      writeLane out places ((elementsAt input places).map fun x =>
        ar.exp (ar.sub x greatest)) := by
  induction places generalizing out with
  | nil => rfl
  | cons place places ih =>
    obtain ⟨hplace, hplaces⟩ := List.forall_mem_cons.mp h
    have hget := Array.getElem?_eq_getElem hplace
    rw [elementsAt_cons hget, List.map_cons, List.map_cons, List.foldlM_cons, writeLane,
      List.zip_cons_cons, List.foldlM_cons, LaneWrite.apply, element, hget, ok_bind]
    exact bind_congr fun _ => ih hplaces

/-- The quotients of a lane, of what the result holds there. -/
theorem foldlM_quotient (h : ∀ place ∈ places, place < out.size) (hn : places.Nodup) (sum : α) :
    (places.map (.quotient · sum)).foldlM (LaneWrite.apply ar input) out =
      writeLane out places ((elementsAt out places).map fun e => ar.div e sum) := by
  induction places generalizing out with
  | nil => rfl
  | cons place places ih =>
    obtain ⟨hplace, hplaces⟩ := List.forall_mem_cons.mp h
    obtain ⟨hnew, hn⟩ := List.nodup_cons.mp hn
    have hget := Array.getElem?_eq_getElem hplace
    have hsize : (out.setIfInBounds place (ar.div out[place] sum)).size = out.size :=
      Array.size_setIfInBounds
    -- the other places of the lane still hold what they held
    have hrest : elementsAt (out.setIfInBounds place (ar.div out[place] sum)) places =
        elementsAt out places := by
      refine elementsAt_congr fun other hother => ?_
      have hne : place ≠ other := fun he => hnew (he ▸ hother)
      rw [Array.getElem?_setIfInBounds_ne hne]
    rw [elementsAt_cons hget, List.map_cons, List.map_cons, List.foldlM_cons, writeLane,
      List.zip_cons_cons, List.foldlM_cons, LaneWrite.apply, element, hget, ok_bind]
    dsimp only
    rw [writeAt, if_pos hplace, ok_bind, ok_bind, ih (hsize ▸ hplaces) hn, hrest]
    rfl

/-- **The writes to a lane** leave the softmax of its input there, as one write to each place
does. -/
theorem exists_laneWrites (ar : Arithmetic α) (hin : ∀ place ∈ lane, place < input.size)
    (hsize : out.size = input.size) (hn : lane.Nodup) :
    ∃ out', (laneWrites ar input lane).foldlM (LaneWrite.apply ar input) out = .ok out' ∧
      writeLane out lane (laneSoftmax ar (elementsAt input lane)) = .ok out' ∧
      Placed out lane (laneSoftmax ar (elementsAt input lane)) out' := by
  have hlen := length_elementsAt hin
  have hout : ∀ place ∈ lane, place < out.size := hsize ▸ hin
  obtain ⟨mid, hexp, hmid⟩ := exists_placed (laneExp ar (elementsAt input lane)) hout hn
    (by rw [laneExp, List.length_map, hlen])
  have hmidIn : ∀ place ∈ lane, place < mid.size := hmid.size_eq ▸ hout
  have hlen' : (laneSoftmax ar (elementsAt input lane)).length = lane.length := by
    rw [laneSoftmax, List.length_map, laneExp, List.length_map, hlen]
  obtain ⟨out', hdiv, hp⟩ := exists_placed (laneSoftmax ar (elementsAt input lane)) hmidIn hn hlen'
  obtain ⟨direct, hdirect, hp'⟩ :=
    exists_placed (laneSoftmax ar (elementsAt input lane)) hout hn hlen'
  obtain rfl : direct = out' := hp'.unique hout (hmid.trans hp)
  refine ⟨direct, ?_, hdirect, hp'⟩
  refine foldlM_append_eq_ok_iff.mpr ⟨mid, (foldlM_exponential hin _).trans hexp, ?_⟩
  rw [foldlM_quotient hmidIn hn, hmid.inside]
  exact hdiv

/-- **The writes to lanes that do not meet** leave in each lane the softmax of its input. -/
theorem exists_softmaxWrites (ar : Arithmetic α) {ls : List (List Nat)}
    (hin : ∀ lane ∈ ls, ∀ place ∈ lane, place < input.size) (hsize : out.size = input.size)
    (hn : ls.flatten.Nodup) :
    ∃ out', (softmaxWrites ar input ls).foldlM (LaneWrite.apply ar input) out = .ok out' ∧
      ls.foldlM (fun data places => do
        let xs ← places.mapM (element input)
        writeLane data places (laneSoftmax ar xs)) out = .ok out' ∧
      out'.size = out.size ∧
      (∀ lane ∈ ls, elementsAt out' lane = laneSoftmax ar (elementsAt input lane)) ∧
      ∀ place, place ∉ ls.flatten → out'[place]? = out[place]? := by
  induction ls generalizing out with
  | nil => exact ⟨out, rfl, rfl, rfl, fun _ hm => absurd hm List.not_mem_nil, fun _ _ => rfl⟩
  | cons lane ls ih =>
    obtain ⟨hlane, hls⟩ := List.forall_mem_cons.mp hin
    rw [List.flatten_cons, List.nodup_append] at hn
    obtain ⟨hnlane, hnls, hapart⟩ := hn
    obtain ⟨mid, hwrites, hdirect, hp⟩ := exists_laneWrites ar hlane hsize hnlane
    obtain ⟨out', hwrites', hdirect', hsize', hinside, houtside⟩ :=
      ih hls (hp.size_eq.trans hsize) hnls
    refine ⟨out', foldlM_append_eq_ok_iff.mpr ⟨mid, hwrites, hwrites'⟩,
      foldlM_cons_eq_ok_iff.mpr ⟨mid, ?_, hdirect'⟩, hsize'.trans hp.size_eq, ?_, ?_⟩
    · rw [mapM_element_eq hlane, ok_bind, hdirect]
    · -- the later lanes do not meet this one
      refine List.forall_mem_cons.mpr ⟨?_, hinside⟩
      rw [← hp.inside]
      exact elementsAt_congr fun place hm => houtside place fun hm' => hapart place hm place hm' rfl
    · intro place hm
      rw [List.flatten_cons, List.mem_append, not_or] at hm
      rw [houtside place hm.2, hp.outside place hm.1]

end Writes

end Kernel

/-- **The lanes along an axis partition a tensor.** With checked words there are lanes exactly
where all trailing and all leading extents fit and there is room for a lane, if there is one.
There, in all sizes alike, each lane has as many places as the axis is long; they are the places
that agree in every other coordinate, in the order of the coordinate on the axis; together the
lanes contain every place of the tensor exactly once, and there is none if some extent is 0. So a
softmax writes every place once as an exponential and once as a quotient, and what it leaves in a
lane is the softmax of what the input has in that lane. -/
theorem lanes_partition {dims : List Nat} {axis : Nat} (h : axis < dims.length) :
    ((∃ ls, lanes dims axis .checked = .ok ls) ↔
      TrailingFit dims ∧ LeadingFit dims ∧ (dims.prod = 0 ∨ dims[axis] < 2 ^ 60)) ∧
    (TrailingFit dims → LeadingFit dims → (dims.prod = 0 ∨ dims[axis] < 2 ^ 60) →
      ∃ ls, (∀ sizes, lanes dims axis sizes = .ok ls) ∧ (∀ lane ∈ ls, IsLane dims axis lane) ∧
        ls.flatten.Perm (List.range dims.prod) ∧ (0 ∈ dims → ls = []) ∧
        ∀ {α : Type} (ar : Arithmetic α) (x : Tensor α) (output : TensorSpec), x.dims = dims →
          x.data.size = dims.prod → LeadingFit output.shape.dims →
          output.elementCount = dims.prod →
          ∃ data, (∀ sizes, Kernel.softmax ar axis [x] output sizes = .ok ⟨output, data⟩) ∧
            (Kernel.softmaxWrites ar x.data ls).foldlM (Kernel.LaneWrite.apply ar x.data) x.data =
              .ok data ∧
            ((Kernel.softmaxWrites ar x.data ls).filterMap Kernel.LaneWrite.exponential?).Perm
              (List.range dims.prod) ∧
            ((Kernel.softmaxWrites ar x.data ls).filterMap Kernel.LaneWrite.quotient?).Perm
              (List.range dims.prod) ∧
            ∀ lane ∈ ls,
              elementsAt data lane = Kernel.laneSoftmax ar (elementsAt x.data lane)) := by
  refine ⟨lanes_checked_iff h, fun htrailing hleading hroom => ?_⟩
  obtain ⟨ls, hls, hlanes, hperm, hempty⟩ := exists_partition h
  refine ⟨ls, fun sizes => (lanes_words sizes h htrailing hleading hroom).trans hls, hlanes,
    hperm, hempty, fun ar x output hdims hsize hout hcount => ?_⟩
  have hin : ∀ lane ∈ ls, ∀ place ∈ lane, place < x.data.size := by
    intro lane hlane place hplace
    rw [hsize]
    exact List.mem_range.mp (hperm.subset (List.mem_flatten.mpr ⟨lane, hlane, hplace⟩))
  obtain ⟨data, hwrites, hdirect, hsize', hinside, -⟩ := Kernel.exists_softmaxWrites ar hin
    rfl (hperm.nodup_iff.mpr List.nodup_range)
  refine ⟨data, fun sizes => ?_, hwrites, ?_, ?_, hinside⟩
  · rw [Kernel.softmax_words sizes ar hdims h htrailing hleading hroom hout]
    show (if axis < x.dims.length then _ else _) = _
    rw [hdims, if_pos h, hls, ok_bind, hdirect, ok_bind]
    exact Tensor.ofData_eq_ok_iff.mpr ⟨by rw [hsize', hsize, hcount], rfl⟩
  · rw [Kernel.filterMap_exponential?]
    exact hperm
  · rw [Kernel.filterMap_quotient?]
    exact hperm

/-- The columns of two rows of three, and the softmax of the column in the middle. -/
theorem lanes_partition_columns :
    0 < [2, 3].length ∧ (∀ sizes, lanes [2, 3] 0 sizes = .ok [[0, 3], [1, 4], [2, 5]]) ∧
      IsLane [2, 3] 0 [1, 4] ∧ [0, 3, 1, 4, 2, 5].Perm (List.range 6) ∧
      ∃ data : Array Float,
        (∀ sizes, Kernel.softmax .float 0 [⟨⟨.f32, ⟨[2, 3]⟩⟩, #[1, 2, 3, 4, 5, 6]⟩]
          ⟨.f32, ⟨[2, 3]⟩⟩ sizes = .ok ⟨⟨.f32, ⟨[2, 3]⟩⟩, data⟩) ∧
        elementsAt data [1, 4] = Kernel.laneSoftmax .float [2, 5] := by
  have haxis : 0 < [2, 3].length := by decide
  have hcolumns : lanes [2, 3] 0 = .ok [[0, 3], [1, 4], [2, 5]] := by rfl
  obtain ⟨ls, hls, hlanes, hperm, -, hsoftmax⟩ :=
    (lanes_partition haxis).2 (by decide) (by decide) (.inr (by decide : 2 < 2 ^ 60))
  obtain rfl : ls = [[0, 3], [1, 4], [2, 5]] := Except.ok.inj ((hls .exact).symm.trans hcolumns)
  obtain ⟨data, hdata, -, -, -, hlane⟩ := hsoftmax .float
    ⟨⟨.f32, ⟨[2, 3]⟩⟩, #[1, 2, 3, 4, 5, 6]⟩ ⟨.f32, ⟨[2, 3]⟩⟩ rfl rfl (by decide) rfl
  exact ⟨haxis, hls, hlanes _ (by decide), hperm, data, hdata, hlane [1, 4] (by decide)⟩

/-- **Not every tensor is cut into lanes in words.** Behind an empty axis the strides overflow
where words are checked; where they wrap around, `2 ^ 66` elements count as none, and no lane is
visited although no extent is 0. -/
theorem lanes_beyondWords :
    lanes [0, 2 ^ 32, 2 ^ 32] 1 .checked = .error (.execution .overflow) ∧
      0 ∉ [2 ^ 33, 2 ^ 33] ∧ [2 ^ 33, 2 ^ 33].prod = 2 ^ 66 ∧
      lanes [2 ^ 33, 2 ^ 33] 1 .wrapping = .ok [] :=
  ⟨rfl, by decide, rfl, rfl⟩

end TensorGraph
