/-
# TensorGraph.Proofs.ShapeOrder -- broadcasting as a join

A shape stretches to another when broadcasting the two gives the other. The join of two
extents is commutative, idempotent and associative wherever it is defined, and aligning axes
from the last one carries these laws to shapes of any ranks. Nothing else about extents is
needed: from the three laws alone, stretching is a partial order, a broadcast is a least upper
bound in it, and a broadcast fails only where the operands have no upper bound at all
(`Shape.broadcast?_join`).

Associativity is proved in the form of a rotation, in which both sides have one shape: joining
`a` with `b` and then `c` is joining `b` with `c` and then `a`.
-/
import Mathlib.Order.Defs.Unbundled
import TensorGraph.Proofs.Places

namespace TensorGraph

/-! ## The three laws -/

theorem joinExtent_eq_some_iff {a b c : Nat} :
    joinExtent a b = some c ↔ (a = 1 ∨ a = c) ∧ (b = 1 ∨ b = c) ∧ (a = c ∨ b = c) := by
  unfold joinExtent
  split_ifs with hab ha hb
  · rw [Option.some.injEq]
    omega
  · rw [Option.some.injEq]
    omega
  · rw [Option.some.injEq]
    omega
  · constructor
    · intro h
      cases h
    · omega

/-- The join of three extents; none of the three comes first. -/
theorem joinExtent_bind_eq_some_iff {a b c d : Nat} :
    ((joinExtent a b).bind fun ab => joinExtent ab c) = some d ↔
      (a = 1 ∨ a = d) ∧ (b = 1 ∨ b = d) ∧ (c = 1 ∨ c = d) ∧ (a = d ∨ b = d ∨ c = d) := by
  simp only [Option.bind_eq_some_iff, joinExtent_eq_some_iff]
  constructor
  · rintro ⟨ab, h, h'⟩
    omega
  · rintro ⟨ha, hb, hc, hd⟩
    by_cases h1 : a = 1
    · exact ⟨b, by omega⟩
    · exact ⟨a, by omega⟩

theorem joinExtent_rotate (a b c : Nat) :
    ((joinExtent a b).bind fun ab => joinExtent ab c) =
      (joinExtent b c).bind fun bc => joinExtent bc a := by
  apply Option.ext
  intro d
  rw [joinExtent_bind_eq_some_iff, joinExtent_bind_eq_some_iff]
  constructor
  · rintro ⟨ha, hb, hc, hd⟩
    exact ⟨hb, hc, ha, or_rotate.mp hd⟩
  · rintro ⟨hb, hc, ha, hd⟩
    exact ⟨ha, hb, hc, or_rotate.mpr hd⟩

theorem joinTrailing_cons (a b : Nat) (as bs : List Nat) :
    joinTrailing (a :: as) (b :: bs) =
      (joinExtent a b).bind fun c => (joinTrailing as bs).map (c :: ·) := by
  rw [joinTrailing]
  cases joinExtent a b <;> cases joinTrailing as bs <;> rfl

/-- The join of three lists is taken axis by axis. -/
theorem joinTrailing_cons_bind (a b c : Nat) (as bs cs : List Nat) :
    ((joinTrailing (a :: as) (b :: bs)).bind fun abs => joinTrailing abs (c :: cs)) =
      ((joinExtent a b).bind fun ab => joinExtent ab c).bind fun abc =>
        ((joinTrailing as bs).bind fun abs => joinTrailing abs cs).map (abc :: ·) := by
  rw [joinTrailing_cons]
  cases joinExtent a b with
  | none => rfl
  | some ab =>
    cases joinTrailing as bs with
    | none => simp
    | some abs => simp [joinTrailing_cons]

theorem joinTrailing_rotate (as bs cs : List Nat) :
    ((joinTrailing as bs).bind fun abs => joinTrailing abs cs) =
      (joinTrailing bs cs).bind fun bcs => joinTrailing bcs as := by
  induction as generalizing bs cs with
  | nil => simp [joinTrailing, joinTrailing_nil_right]
  | cons a as ih =>
    cases bs with
    | nil =>
      rw [joinTrailing_nil_right, joinTrailing, Option.bind_some, Option.bind_some,
        joinTrailing_comm]
    | cons b bs =>
      cases cs with
      | nil =>
        rw [joinTrailing_nil_right, Option.bind_some, joinTrailing_comm (a :: as)]
        exact (Option.bind_congr fun abs _ => joinTrailing_nil_right abs).trans
          (Option.bind_fun_some _)
      | cons c cs => rw [joinTrailing_cons_bind, joinTrailing_cons_bind, joinExtent_rotate, ih]

namespace Shape

variable {a b c d : Shape}

theorem broadcast?_rotate (a b c : Shape) :
    ((a.broadcast? b).bind fun ab => ab.broadcast? c) =
      (b.broadcast? c).bind fun bc => bc.broadcast? a := by
  have h := congrArg (Option.map fun ds => Shape.mk ds.reverse)
    (joinTrailing_rotate a.dims.reverse b.dims.reverse c.dims.reverse)
  simpa [broadcast?, Option.map_bind, Option.bind_map, Function.comp_def] using h

/-- **Associativity**: the two bracketings fail together or agree. -/
theorem broadcast?_assoc (a b c : Shape) :
    ((a.broadcast? b).bind fun ab => ab.broadcast? c) =
      (b.broadcast? c).bind fun bc => a.broadcast? bc := by
  rw [broadcast?_rotate]
  exact congrArg _ (funext fun bc => broadcast?_swap bc a)

/-! ## The order -/

/-- **`StretchesTo`** -- broadcasting the two shapes gives the second. -/
def StretchesTo (a c : Shape) : Prop := a.broadcast? c = some c

instance (a c : Shape) : Decidable (a.StretchesTo c) := inferInstanceAs (Decidable (_ = _))

theorem stretchesTo_refl (a : Shape) : a.StretchesTo a := broadcast?_self a

theorem StretchesTo.antisymm (h : a.StretchesTo b) (h' : b.StretchesTo a) : a = b := by
  rw [StretchesTo, broadcast?_swap] at h'
  exact Option.some.inj (h'.symm.trans h)

theorem StretchesTo.trans (h : a.StretchesTo b) (h' : b.StretchesTo c) : a.StretchesTo c := by
  have hassoc := broadcast?_assoc a b c
  rw [show a.broadcast? b = some b from h, show b.broadcast? c = some c from h',
    Option.bind_some, Option.bind_some, show b.broadcast? c = some c from h'] at hassoc
  exact hassoc.symm

theorem scalar_stretchesTo (a : Shape) : scalar.StretchesTo a := by
  rw [StretchesTo, broadcast?, scalar, List.reverse_nil, joinTrailing, Option.map_some,
    List.reverse_reverse]

/-- A broadcast is above its operands. -/
theorem stretchesTo_of_broadcast? (h : a.broadcast? b = some c) :
    a.StretchesTo c ∧ b.StretchesTo c := by
  have left : ∀ {a b : Shape}, a.broadcast? b = some c → a.StretchesTo c := by
    intro a b h
    have hassoc := broadcast?_assoc a a b
    rw [broadcast?_self, h, Option.bind_some, Option.bind_some, h] at hassoc
    exact hassoc.symm
  exact ⟨left h, left (broadcast?_swap a b ▸ h)⟩

/-- **Under an upper bound** of its operands a broadcast succeeds, and below it. -/
theorem exists_broadcast? (ha : a.StretchesTo d) (hb : b.StretchesTo d) :
    ∃ c, a.broadcast? b = some c ∧ c.StretchesTo d := by
  have hassoc := broadcast?_assoc a b d
  rw [show b.broadcast? d = some d from hb, Option.bind_some,
    show a.broadcast? d = some d from ha] at hassoc
  exact Option.bind_eq_some_iff.mp hassoc

/-- **`IsJoin`** -- the least shape to which both operands stretch. -/
structure IsJoin (a b c : Shape) : Prop where
  /-- The first operand stretches to it. -/
  left : a.StretchesTo c
  /-- The second operand stretches to it. -/
  right : b.StretchesTo c
  /-- It stretches to whatever both operands stretch to. -/
  least : ∀ d, a.StretchesTo d → b.StretchesTo d → c.StretchesTo d

theorem broadcast?_eq_some_iff : a.broadcast? b = some c ↔ IsJoin a b c := by
  constructor
  · intro h
    obtain ⟨ha, hb⟩ := stretchesTo_of_broadcast? h
    refine ⟨ha, hb, fun d had hbd => ?_⟩
    obtain ⟨c', hc', hle⟩ := exists_broadcast? had hbd
    rwa [Option.some.inj (h.symm.trans hc')]
  · intro h
    obtain ⟨c', hc', hle⟩ := exists_broadcast? h.left h.right
    obtain ⟨ha, hb⟩ := stretchesTo_of_broadcast? hc'
    rw [hc', hle.antisymm (h.least c' ha hb)]

theorem broadcast?_eq_none_iff :
    a.broadcast? b = none ↔ ¬∃ c, a.StretchesTo c ∧ b.StretchesTo c := by
  rw [← Option.not_isSome_iff_eq_none, not_iff_not, Option.isSome_iff_exists]
  constructor
  · rintro ⟨c, hc⟩
    exact ⟨c, stretchesTo_of_broadcast? hc⟩
  · rintro ⟨c, ha, hb⟩
    obtain ⟨c', hc', -⟩ := exists_broadcast? ha hb
    exact ⟨c', hc'⟩

/-- **Broadcasting is the join of the broadcasting order.** Stretching is a partial order on the
shapes of all ranks, with the scalar shape as least element: a shape stretches to another where
it has no more axes and each of its extents, counted from the last axis, is 1 or the same. Two
shapes broadcast to the least shape to which both stretch, and fail to broadcast exactly when
there is no shape to which both stretch. So broadcasting is commutative, idempotent and
associative, failures included. -/
theorem broadcast?_join :
    IsPartialOrder Shape StretchesTo ∧
    (∀ a : Shape, scalar.StretchesTo a) ∧
    (∀ a c : Shape, a.StretchesTo c ↔ Stretches a.dims c.dims) ∧
    (∀ a b c : Shape, a.broadcast? b = some c ↔ IsJoin a b c) ∧
    (∀ a b : Shape, a.broadcast? b = none ↔ ¬∃ c, a.StretchesTo c ∧ b.StretchesTo c) ∧
    (∀ a b : Shape, a.broadcast? b = b.broadcast? a) ∧
    (∀ a : Shape, a.broadcast? a = some a) ∧
    ∀ a b c : Shape, ((a.broadcast? b).bind fun ab => ab.broadcast? c) =
      (b.broadcast? c).bind fun bc => a.broadcast? bc := by
  refine ⟨?_, scalar_stretchesTo, fun a c => ⟨fun h => (stretches_of_broadcast? h).1, ?_⟩,
    fun a b c => broadcast?_eq_some_iff, fun a b => broadcast?_eq_none_iff, broadcast?_swap,
    broadcast?_self, broadcast?_assoc⟩
  · exact { refl := stretchesTo_refl
            trans := fun _ _ _ => StretchesTo.trans
            antisymm := fun _ _ => StretchesTo.antisymm }
  · exact broadcast?_of_stretches

/-- Extent 1 stretches to extent 0, and not the other way. -/
example : (Shape.mk [1]).StretchesTo ⟨[2, 0]⟩ ∧ ¬(Shape.mk [0]).StretchesTo ⟨[2, 1]⟩ := by decide

end Shape

end TensorGraph
