/-
# TensorGraph.Shape.Broadcast -- the join of two shapes

Shapes are aligned at the last axis. Two extents agree when they are equal, and extent 1
stretches to any other; an axis that only one shape has is taken from that shape, as if
the other had extent 1 there. The result is defined on the reversed lists of extents, where
alignment at the end becomes alignment at the head.
-/
import TensorGraph.Shape.Basic

namespace TensorGraph

/-- The extent that covers both `a` and `b`, when there is one. -/
def joinExtent (a b : Nat) : Option Nat :=
  if a = b then some a
  else if a = 1 then some b
  else if b = 1 then some a
  else none

/-- Joins extents listed from the last axis to the first. -/
def joinTrailing : List Nat → List Nat → Option (List Nat)
  | [], bs => some bs
  | as, [] => some as
  | a :: as, b :: bs =>
    match joinExtent a b, joinTrailing as bs with
    | some c, some cs => some (c :: cs)
    | _, _ => none

/-- **`Shape.broadcast?`** -- the shape to which both operands stretch; `none` when some
aligned pair of extents differs and neither is 1. -/
def Shape.broadcast? (a b : Shape) : Option Shape :=
  (joinTrailing a.dims.reverse b.dims.reverse).map fun cs => ⟨cs.reverse⟩

theorem joinExtent_self (a : Nat) : joinExtent a a = some a := by
  rw [joinExtent, if_pos rfl]

theorem joinExtent_comm (a b : Nat) : joinExtent a b = joinExtent b a := by
  unfold joinExtent
  by_cases h : a = b
  · rw [if_pos h, if_pos h.symm, h]
  · have h' : ¬b = a := fun hb => h hb.symm
    rw [if_neg h, if_neg h']
    by_cases ha : a = 1
    · have hb : b ≠ 1 := fun hb => h (ha.trans hb.symm)
      rw [if_pos ha, if_neg hb, if_pos ha]
    · rw [if_neg ha, if_neg ha]

theorem joinTrailing_nil_right (as : List Nat) : joinTrailing as [] = some as := by
  cases as <;> rfl

theorem joinTrailing_comm (as bs : List Nat) : joinTrailing as bs = joinTrailing bs as := by
  induction as generalizing bs with
  | nil => rw [joinTrailing, joinTrailing_nil_right]
  | cons a as ih =>
    cases bs with
    | nil => rfl
    | cons b bs => rw [joinTrailing, joinTrailing, joinExtent_comm, ih]

theorem joinTrailing_self (as : List Nat) : joinTrailing as as = some as := by
  induction as with
  | nil => rfl
  | cons a as ih => rw [joinTrailing, joinExtent_self, ih]

/-- A shape stretches to itself. -/
theorem Shape.broadcast?_self (a : Shape) : a.broadcast? a = some a := by
  rw [Shape.broadcast?, joinTrailing_self, Option.map_some, List.reverse_reverse]

/-- The order of the operands does not matter. -/
theorem Shape.broadcast?_swap (a b : Shape) : a.broadcast? b = b.broadcast? a := by
  rw [Shape.broadcast?, Shape.broadcast?, joinTrailing_comm]

end TensorGraph
