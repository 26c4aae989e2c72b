/-
# TensorGraph.Proofs.Places -- coordinates and the places that they name

Within the extents, coordinates and places determine each other. When every extent of a
source is 1 or that of the result, the place that a position of the result has in the
source is found by dropping the leading axes of the result and ignoring the axes of extent
1 (`sourcePlace`). Broadcasting reads along this map, and a collapse and a sum add along
it, so all three share the lemmas of this module.
-/
import Mathlib.Algebra.BigOperators.Group.List.Basic
import Mathlib.Algebra.BigOperators.Ring.List
import Mathlib.Algebra.Ring.Nat
import Mathlib.Data.List.Forall2
import TensorGraph.Eval.Kernel

namespace TensorGraph

/-! ## Coordinates -/

/-- A row ends within the matrix. -/
theorem row_end_le {m n i : Nat} (h : i < m) : i * n + n ≤ m * n := by
  rw [← Nat.succ_mul]
  exact Nat.mul_le_mul_right n h

/-- The place of an element lies in the matrix, in the row and column that it is of. -/
theorem matrix_place {m n i j : Nat} (hi : i < m) (hj : j < n) :
    i * n + j < m * n ∧ (i * n + j) / n = i ∧ (i * n + j) % n = j := by
  refine ⟨Nat.lt_of_lt_of_le (Nat.add_lt_add_left hj _) (row_end_le hi), ?_, ?_⟩
  · rw [Nat.add_comm, Nat.add_mul_div_right _ _ (Nat.zero_lt_of_lt hj), Nat.div_eq_of_lt hj,
      Nat.zero_add]
  · rw [Nat.add_comm, Nat.add_mul_mod_self_right, Nat.mod_eq_of_lt hj]

theorem coordinates_cons (d : Nat) (ds : List Nat) (place : Nat) :
    coordinates (d :: ds) place = place / ds.prod % d :: coordinates ds place := rfl

theorem prod_pos_of_forall {dims : List Nat} (h : ∀ d ∈ dims, 0 < d) : 0 < dims.prod :=
  Nat.pos_of_ne_zero fun h0 => (h 0 (List.prod_eq_zero_iff.mp h0)).false

theorem forall_pos_of_prod_pos {dims : List Nat} (h : 0 < dims.prod) : ∀ d ∈ dims, 0 < d :=
  fun _ hd => Nat.pos_of_ne_zero fun h0 => h.ne' (List.prod_eq_zero_iff.mpr (h0 ▸ hd))

/-- **Coordinates lie within the extents.** -/
theorem coordinates_lt {dims : List Nat} (h : 0 < dims.prod) (place : Nat) :
    List.Forall₂ (· < ·) (coordinates dims place) dims := by
  induction dims with
  | nil => exact .nil
  | cons d ds ih =>
    rw [List.prod_cons] at h
    exact .cons (Nat.mod_lt _ (Nat.pos_of_mul_pos_right h)) (ih (Nat.pos_of_mul_pos_left h))

/-- Places that differ by whole tensors have the same coordinates. -/
theorem coordinates_mul_add (dims : List Nat) (q place : Nat) :
    coordinates dims (q * dims.prod + place) = coordinates dims place := by
  induction dims generalizing q with
  | nil => rfl
  | cons d ds ih =>
    rw [coordinates_cons, coordinates_cons, List.prod_cons, ← Nat.mul_assoc, ih]
    congr 1
    rcases Nat.eq_zero_or_pos ds.prod with h0 | hpos
    · rw [h0, Nat.div_zero, Nat.div_zero]
    · rw [Nat.add_comm, Nat.add_mul_div_right _ _ hpos, Nat.add_mul_mod_self_right]

/-- A place below the first stride of a block has the block's number in front. -/
theorem coordinates_cons_mul_add {d : Nat} {ds : List Nat} {q place : Nat} (hq : q < d)
    (hp : place < ds.prod) :
    coordinates (d :: ds) (q * ds.prod + place) = q :: coordinates ds place := by
  have hpos : 0 < ds.prod := Nat.zero_lt_of_lt hp
  rw [coordinates_cons, coordinates_mul_add, Nat.add_comm, Nat.add_mul_div_right _ _ hpos,
    Nat.div_eq_of_lt hp, Nat.zero_add, Nat.mod_eq_of_lt hq]

theorem dot_cons (c : Nat) (cs : List Nat) (s : Nat) (ss : List Nat) :
    dot (c :: cs) (s :: ss) = c * s + dot cs ss := by
  rw [dot, List.zipWith_cons_cons, List.sum_cons, dot]

/-- **The place of coordinates** lies within the tensor. -/
theorem dot_strides_lt {coords dims : List Nat} (h : List.Forall₂ (· < ·) coords dims) :
    dot coords (strides dims) < dims.prod := by
  induction h with
  | nil => exact Nat.one_pos
  | @cons c d cs ds hc _ ih =>
    rw [strides, dot_cons, List.prod_cons]
    exact (matrix_place hc ih).1

/-- **The coordinates of the place of coordinates.** -/
theorem coordinates_dot {coords dims : List Nat} (h : List.Forall₂ (· < ·) coords dims) :
    coordinates dims (dot coords (strides dims)) = coords := by
  induction h with
  | nil => rfl
  | @cons c d cs ds hc hcs ih =>
    rw [strides, dot_cons, coordinates_cons_mul_add hc (dot_strides_lt hcs), ih]

theorem unravel_eq_ok {dims : List Nat} {place : Nat} (h : 0 < dims.prod) :
    unravel dims place = .ok (coordinates dims place) := by
  have h0 : ¬(dims.contains 0) = true := fun hc =>
    (forall_pos_of_prod_pos h 0 (List.contains_iff_mem.mp hc)).false
  rw [unravel, if_neg h0]

/-! ## Stretching -/

/-- **`Stretches`** -- every extent of the source is 1 or that of the result, with the
axes aligned at the end. -/
def Stretches (source result : List Nat) : Prop :=
  source.length ≤ result.length ∧
    List.Forall₂ (fun d r => d = 1 ∨ d = r) source (result.drop (result.length - source.length))

/-- The place of coordinates in a source, where axes of extent 1 do not count. -/
def stretchedPlace : (source coords : List Nat) → Nat
  | d :: ds, c :: cs => (if d = 1 then 0 else c * ds.prod) + stretchedPlace ds cs
  | _, _ => 0

/-- **`sourcePlace`** -- where a place of the result is read in the source. -/
def sourcePlace (source result : List Nat) (place : Nat) : Nat :=
  stretchedPlace source ((coordinates result place).drop (result.length - source.length))

theorem drop_coordinates (dims : List Nat) (place n : Nat) :
    (coordinates dims place).drop n = coordinates (dims.drop n) place := by
  induction n generalizing dims with
  | zero => rfl
  | succ n ih =>
    cases dims with
    | nil => rfl
    | cons d ds => exact ih ds

theorem sourcePlace_eq (source result : List Nat) (place : Nat) :
    sourcePlace source result place =
      stretchedPlace source (coordinates (result.drop (result.length - source.length)) place) := by
  rw [sourcePlace, drop_coordinates]

theorem prod_drop_pos {dims : List Nat} (h : 0 < dims.prod) (n : Nat) : 0 < (dims.drop n).prod :=
  prod_pos_of_forall fun d hd => forall_pos_of_prod_pos h d (List.mem_of_mem_drop hd)

/-- A source that stretches to a tensor with elements has elements. -/
theorem prod_pos_of_stretched {source result : List Nat}
    (hs : List.Forall₂ (fun d r => d = 1 ∨ d = r) source result) (h : 0 < result.prod) :
    0 < source.prod := by
  induction hs with
  | nil => exact Nat.one_pos
  | @cons d r ds rs hd _ ih =>
    rw [List.prod_cons] at h ⊢
    refine Nat.mul_pos ?_ (ih (Nat.pos_of_mul_pos_left h))
    rcases hd with rfl | rfl
    · exact Nat.one_pos
    · exact Nat.pos_of_mul_pos_right h

theorem Stretches.prod_pos {source result : List Nat} (hs : Stretches source result)
    (h : 0 < result.prod) : 0 < source.prod :=
  prod_pos_of_stretched hs.2 (prod_drop_pos h _)

theorem stretchedPlace_lt {source result coords : List Nat}
    (hs : List.Forall₂ (fun d r => d = 1 ∨ d = r) source result)
    (hc : List.Forall₂ (· < ·) coords result) (h : 0 < source.prod) :
    stretchedPlace source coords < source.prod := by
  induction hs generalizing coords with
  | nil =>
    cases hc
    exact Nat.one_pos
  | @cons d r ds rs hd _ ih =>
    cases hc with
    | @cons c _ cs _ hc hcs =>
      rw [List.prod_cons] at h ⊢
      have hrest := ih hcs (Nat.pos_of_mul_pos_left h)
      rw [stretchedPlace]
      by_cases h1 : d = 1
      · rw [if_pos h1, h1, Nat.zero_add, Nat.one_mul]
        exact hrest
      · have hdr : d = r := hd.resolve_left h1
        rw [if_neg h1]
        exact (matrix_place (hdr ▸ hc) hrest).1

/-- **What is read lies within the source.** -/
theorem sourcePlace_lt {source result : List Nat} (hs : Stretches source result)
    (h : 0 < result.prod) (place : Nat) : sourcePlace source result place < source.prod := by
  rw [sourcePlace_eq]
  exact stretchedPlace_lt hs.2 (coordinates_lt (prod_drop_pos h _) place) (hs.prod_pos h)

/-- With the extents of the source, coordinates have their own place. -/
theorem stretchedPlace_self {coords dims : List Nat} (h : List.Forall₂ (· < ·) coords dims) :
    stretchedPlace dims coords = dot coords (strides dims) := by
  induction h with
  | nil => rfl
  | @cons c d cs ds hc _ ih =>
    rw [stretchedPlace, strides, dot_cons, ih]
    by_cases h1 : d = 1
    · have hc0 : c = 0 := by omega
      rw [if_pos h1, hc0, Nat.zero_mul]
    · rw [if_neg h1]

theorem stretches_self (dims : List Nat) : Stretches dims dims := by
  refine ⟨Nat.le_refl _, ?_⟩
  rw [Nat.sub_self, List.drop_zero, List.forall₂_same]
  exact fun _ _ => .inr rfl

/-- **Unstretched**, every place is read where it is. -/
theorem sourcePlace_self {dims : List Nat} {place : Nat} (h : place < dims.prod) :
    sourcePlace dims dims place = place := by
  have hpos : 0 < dims.prod := Nat.zero_lt_of_lt h
  rw [sourcePlace, Nat.sub_self, List.drop_zero,
    stretchedPlace_self (coordinates_lt hpos place), dot_coordinates_of_lt h]

theorem stretchedPlace_all_one {source : List Nat} (coords : List Nat)
    (h : ∀ d ∈ source, d = 1) : stretchedPlace source coords = 0 := by
  induction source generalizing coords with
  | nil => rfl
  | cons d ds ih =>
    cases coords with
    | nil => rfl
    | cons c cs =>
      rw [stretchedPlace, if_pos (h d List.mem_cons_self),
        ih cs fun d' hd' => h d' (List.mem_cons_of_mem d hd')]

/-- A scalar is read at its only place. -/
theorem sourcePlace_scalar (result : List Nat) (place : Nat) : sourcePlace [] result place = 0 := by
  rw [sourcePlace]
  exact stretchedPlace_all_one _ fun _ hd => absurd hd List.not_mem_nil

/-! ## Stretching and the join of shapes -/

private theorem joinExtent_eq_some {a b c : Nat} (h : joinExtent a b = some c) :
    (a = 1 ∨ a = c) ∧ (b = 1 ∨ b = c) := by
  unfold joinExtent at h
  split at h
  · next hab =>
    cases h
    exact ⟨.inr rfl, .inr hab.symm⟩
  · split at h
    · next ha =>
      cases h
      exact ⟨.inl ha, .inr rfl⟩
    · split at h
      · next hb =>
        cases h
        exact ⟨.inr rfl, .inl hb⟩
      · simp at h

private theorem joinTrailing_eq_some {as bs cs : List Nat} (h : joinTrailing as bs = some cs) :
    (as.length ≤ cs.length ∧
      List.Forall₂ (fun d r => d = 1 ∨ d = r) as (cs.take as.length)) ∧
    (bs.length ≤ cs.length ∧
      List.Forall₂ (fun d r => d = 1 ∨ d = r) bs (cs.take bs.length)) := by
  have same : ∀ xs : List Nat, xs.length ≤ xs.length ∧
      List.Forall₂ (fun d r => d = 1 ∨ d = r) xs (xs.take xs.length) := fun xs =>
    ⟨Nat.le_refl _, by rw [List.take_length, List.forall₂_same]; exact fun _ _ => .inr rfl⟩
  induction as generalizing bs cs with
  | nil =>
    rw [joinTrailing] at h
    cases h
    exact ⟨⟨Nat.zero_le _, .nil⟩, same bs⟩
  | cons a as ih =>
    cases bs with
    | nil =>
      rw [joinTrailing_nil_right] at h
      cases h
      exact ⟨same _, Nat.zero_le _, .nil⟩
    | cons b bs =>
      rw [joinTrailing] at h
      split at h
      · next c cs' hc hcs =>
        cases h
        obtain ⟨ha, hb⟩ := joinExtent_eq_some hc
        obtain ⟨⟨hla, has⟩, hlb, hbs⟩ := ih hcs
        exact ⟨⟨Nat.succ_le_succ hla, .cons ha has⟩, Nat.succ_le_succ hlb, .cons hb hbs⟩
      · simp at h

private theorem stretches_of_reverse {source result : List Nat}
    (hl : source.length ≤ result.length)
    (h : List.Forall₂ (fun d r => d = 1 ∨ d = r) source.reverse
      (result.reverse.take source.length)) : Stretches source result := by
  refine ⟨hl, ?_⟩
  rw [List.take_reverse, List.forall₂_reverse_iff] at h
  exact h

/-- **Both operands stretch to the join** of their shapes. -/
theorem stretches_of_broadcast? {a b c : Shape} (h : a.broadcast? b = some c) :
    Stretches a.dims c.dims ∧ Stretches b.dims c.dims := by
  rw [Shape.broadcast?, Option.map_eq_some_iff] at h
  obtain ⟨cs, hcs, rfl⟩ := h
  obtain ⟨⟨hla, ha⟩, hlb, hb⟩ := joinTrailing_eq_some hcs
  rw [List.length_reverse] at hla hlb ha hb
  constructor
  · refine stretches_of_reverse (by rwa [List.length_reverse]) ?_
    rwa [List.reverse_reverse]
  · refine stretches_of_reverse (by rwa [List.length_reverse]) ?_
    rwa [List.reverse_reverse]

private theorem joinTrailing_of_stretched {ds rs : List Nat} (hl : ds.length ≤ rs.length)
    (h : List.Forall₂ (fun d r => d = 1 ∨ d = r) ds (rs.take ds.length)) :
    joinTrailing ds rs = some rs := by
  induction ds generalizing rs with
  | nil => rfl
  | cons d ds ih =>
    cases rs with
    | nil => exact absurd hl (Nat.not_succ_le_zero _)
    | cons r rs =>
      rw [List.length_cons, List.take_succ_cons] at h
      cases h with
      | cons hd hds =>
        have hj : joinExtent d r = some r := by
          unfold joinExtent
          rcases hd with rfl | rfl
          · by_cases h1 : 1 = r
            · rw [if_pos h1, h1]
            · rw [if_neg h1, if_pos rfl]
          · rw [if_pos rfl]
        rw [joinTrailing, hj, ih (Nat.le_of_succ_le_succ hl) hds]

/-- **A shape joins with one that it stretches to** in the latter. -/
theorem broadcast?_of_stretches {a c : Shape} (h : Stretches a.dims c.dims) :
    a.broadcast? c = some c := by
  obtain ⟨hl, hs⟩ := h
  have hj : joinTrailing a.dims.reverse c.dims.reverse = some c.dims.reverse := by
    refine joinTrailing_of_stretched (by rwa [List.length_reverse, List.length_reverse]) ?_
    rw [List.length_reverse, List.take_reverse, List.forall₂_reverse_iff]
    exact hs
  rw [Shape.broadcast?, hj, Option.map_some, List.reverse_reverse]

end TensorGraph
