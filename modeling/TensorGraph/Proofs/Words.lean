/-
# TensorGraph.Proofs.Words -- where sizes fit machine words

A machine multiplies extents one after the other: from the first on to count the elements, from
the last on to find the strides. Its products are the numbers themselves as long as each of them
fits a word, that is, as long as all leading products do (`LeadingFit`) or all trailing ones
(`TrailingFit`); and a machine that checks its words stops at the first that does not. Without
empty axes the number of elements bounds all of these products. An empty axis hides only what
is multiplied after it.
-/
import Mathlib.Algebra.BigOperators.Group.List.Lemmas
import Mathlib.Data.List.Infix
import TensorGraph.Proofs.Outcome
import TensorGraph.Proofs.Places

namespace TensorGraph

/-! ## Products of some of the extents -/

/-- **`LeadingFit`** -- no product of leading extents leaves a word. -/
def LeadingFit (dims : List Nat) : Prop := ∀ front, front <+: dims → front.prod < 2 ^ 64

/-- **`TrailingFit`** -- no product of trailing extents leaves a word. -/
def TrailingFit (dims : List Nat) : Prop := ∀ back, back <:+ dims → back.prod < 2 ^ 64

instance (dims : List Nat) : Decidable (LeadingFit dims) :=
  decidable_of_iff (∀ front ∈ dims.inits, front.prod < 2 ^ 64) <| by
    simp only [List.mem_inits, LeadingFit]

instance (dims : List Nat) : Decidable (TrailingFit dims) :=
  decidable_of_iff (∀ back ∈ dims.tails, back.prod < 2 ^ 64) <| by
    simp only [List.mem_tails, TrailingFit]

variable {dims : List Nat} {n : Nat}

theorem LeadingFit.prod_lt (h : LeadingFit dims) : dims.prod < 2 ^ 64 := h dims List.prefix_rfl

/-- A first extent multiplies every product of those behind it. -/
theorem leadingFit_cons :
    LeadingFit (n :: dims) ↔ ∀ front, front <+: dims → n * front.prod < 2 ^ 64 := by
  constructor
  · intro h front hfront
    have hlt := h (n :: front) (List.prefix_cons_inj n |>.mpr hfront)
    rwa [List.prod_cons] at hlt
  · intro h whole hwhole
    rcases List.prefix_cons_iff.mp hwhole with rfl | ⟨front, rfl, hfront⟩
    · decide
    · rw [List.prod_cons]
      exact h front hfront

theorem leadingFit_singleton : LeadingFit [n] ↔ n < 2 ^ 64 := by
  simp [leadingFit_cons]

theorem leadingFit_one_cons : LeadingFit (1 :: dims) ↔ LeadingFit dims := by
  rw [leadingFit_cons]
  simp only [Nat.one_mul, LeadingFit]

/-- The first two extents are multiplied first. -/
theorem leadingFit_cons_cons {d : Nat} :
    LeadingFit (n :: d :: dims) ↔ n < 2 ^ 64 ∧ LeadingFit (n * d :: dims) := by
  rw [leadingFit_cons, leadingFit_cons]
  constructor
  · intro h
    refine ⟨by simpa using h [] List.nil_prefix, ?_⟩
    intro front hfront
    have hlt := h (d :: front) (List.prefix_cons_inj d |>.mpr hfront)
    rwa [List.prod_cons, ← Nat.mul_assoc] at hlt
  · rintro ⟨hn, h⟩ whole hwhole
    rcases List.prefix_cons_iff.mp hwhole with rfl | ⟨front, rfl, hfront⟩
    · rwa [List.prod_nil, Nat.mul_one]
    · rw [List.prod_cons, ← Nat.mul_assoc]
      exact h front hfront

theorem trailingFit_cons {d : Nat} :
    TrailingFit (d :: dims) ↔ (d :: dims).prod < 2 ^ 64 ∧ TrailingFit dims := by
  simp only [TrailingFit, List.suffix_cons_iff, forall_eq_or_imp]

/-- A part of extents without empty axes has no more elements than the whole. -/
theorem prod_le_of_sublist {part : List Nat} (hpos : 0 < dims.prod) (h : part.Sublist dims) :
    part.prod ≤ dims.prod := Nat.le_of_dvd hpos h.prod_dvd_prod

/-- **Without empty axes** the number of elements bounds all leading products. -/
theorem leadingFit_of_pos (hpos : 0 < dims.prod) (h : dims.prod < 2 ^ 64) : LeadingFit dims :=
  fun _ hfront => Nat.lt_of_le_of_lt (prod_le_of_sublist hpos hfront.sublist) h

/-- Without empty axes the number of elements bounds all trailing products. -/
theorem trailingFit_of_pos (hpos : 0 < dims.prod) (h : dims.prod < 2 ^ 64) : TrailingFit dims :=
  fun _ hback => Nat.lt_of_le_of_lt (prod_le_of_sublist hpos hback.sublist) h

namespace Sizes

/-! ## Words -/

theorem word_eq_ok (sizes : Sizes) (h : n < 2 ^ 64) : sizes.word n = .ok n := by
  cases sizes with
  | exact => rfl
  | checked => exact if_pos h
  | wrapping => exact congrArg Except.ok (Nat.mod_eq_of_lt h)

theorem room_eq_ok (sizes : Sizes) (h : n < 2 ^ 60) : sizes.room n = .ok () := by
  cases sizes with
  | exact => rfl
  | checked => exact if_pos h
  | wrapping => exact if_pos h

theorem room_checked_eq_ok_iff : checked.room n = .ok () ↔ n < 2 ^ 60 := by
  by_cases h : n < 2 ^ 60
  · exact iff_of_true (checked.room_eq_ok h) h
  · rw [room, if_neg h]
    · simpa using h
    · intro he
      cases he

theorem place_eq (sizes : Sizes) (h : n < 2 ^ 64) : sizes.place n = n := by
  cases sizes with
  | exact => rfl
  | checked => rfl
  | wrapping => exact Nat.mod_eq_of_lt h

/-! ## The number of elements -/

/-- A product that starts at a first extent. -/
theorem foldlM_word (sizes : Sizes) (h : LeadingFit (n :: dims)) :
    dims.foldlM (fun count dim => sizes.word (count * dim)) n = .ok (n :: dims).prod := by
  induction dims generalizing n with
  | nil => exact congrArg Except.ok List.prod_singleton.symm
  | cons d dims ih =>
    obtain ⟨-, hrest⟩ := leadingFit_cons_cons.mp h
    have hword : n * d < 2 ^ 64 := by
      simpa using leadingFit_cons.mp hrest [] List.nil_prefix
    rw [List.foldlM_cons, sizes.word_eq_ok hword, ok_bind, ih hrest, List.prod_cons,
      List.prod_cons, List.prod_cons, Nat.mul_assoc]

theorem foldlM_word_checked (hn : n < 2 ^ 64) (h : ¬LeadingFit (n :: dims)) :
    dims.foldlM (fun count dim => checked.word (count * dim)) n =
      .error (.execution .overflow) := by
  induction dims generalizing n with
  | nil => exact absurd (leadingFit_singleton.mpr hn) h
  | cons d dims ih =>
    rw [List.foldlM_cons, word]
    by_cases hd : n * d < 2 ^ 64
    · rw [if_pos hd, ok_bind]
      exact ih hd fun hrest => h (leadingFit_cons_cons.mpr ⟨hn, hrest⟩)
    · rw [if_neg hd, error_bind]

/-- **Where all leading products fit**, the number of elements is the product of the extents. -/
theorem product_eq_ok (sizes : Sizes) (h : LeadingFit dims) :
    sizes.product dims = .ok dims.prod := by
  have hfold := sizes.foldlM_word (leadingFit_one_cons.mpr h)
  rw [List.prod_cons, Nat.one_mul] at hfold
  cases sizes with
  | exact => rfl
  | checked => exact hfold
  | wrapping => exact hfold

/-- **Where one does not**, checked words stop. -/
theorem product_checked (h : ¬LeadingFit dims) :
    checked.product dims = .error (.execution .overflow) :=
  foldlM_word_checked (by decide) fun hfit => h (leadingFit_one_cons.mp hfit)

theorem product_checked_eq_ok_iff :
    checked.product dims = .ok n ↔ LeadingFit dims ∧ n = dims.prod := by
  by_cases h : LeadingFit dims
  · rw [product_eq_ok _ h, Except.ok.injEq, and_iff_right h, eq_comm]
  · rw [product_checked h]
    simp [h]

/-! ## Strides -/

theorem suffixProducts_eq_ok (sizes : Sizes) (h : TrailingFit dims) :
    sizes.suffixProducts dims = .ok (dims.prod, TensorGraph.strides dims) := by
  induction dims with
  | nil => rfl
  | cons d dims ih =>
    obtain ⟨hall, hrest⟩ := trailingFit_cons.mp h
    rw [List.prod_cons, Nat.mul_comm] at hall
    rw [suffixProducts, ih hrest, ok_bind, List.prod_cons, Nat.mul_comm d]
    dsimp only
    rw [sizes.word_eq_ok hall]
    rfl

theorem suffixProducts_checked (h : ¬TrailingFit dims) :
    checked.suffixProducts dims = .error (.execution .overflow) := by
  induction dims with
  | nil => exact absurd (by decide) h
  | cons d dims ih =>
    rw [suffixProducts]
    by_cases hrest : TrailingFit dims
    · have hall : ¬dims.prod * d < 2 ^ 64 := fun hlt =>
        h (trailingFit_cons.mpr ⟨by rwa [List.prod_cons, Nat.mul_comm], hrest⟩)
      rw [suffixProducts_eq_ok _ hrest, ok_bind]
      dsimp only
      rw [word, if_neg hall]
      rfl
    · rw [ih hrest]
      rfl

/-- **Where all trailing products fit**, the strides are the products behind the axes. -/
theorem strides_eq_ok (sizes : Sizes) (h : TrailingFit dims) :
    sizes.strides dims = .ok (TensorGraph.strides dims) := by
  have hproducts := sizes.suffixProducts_eq_ok h
  cases sizes with
  | exact => rfl
  | checked =>
    show (checked.suffixProducts dims >>= fun r => Except.ok r.2) = _
    rw [hproducts, ok_bind]
  | wrapping =>
    show (wrapping.suffixProducts dims >>= fun r => Except.ok r.2) = _
    rw [hproducts, ok_bind]

theorem strides_checked (h : ¬TrailingFit dims) :
    checked.strides dims = .error (.execution .overflow) := by
  show (checked.suffixProducts dims >>= fun r => Except.ok r.2) = _
  rw [suffixProducts_checked h, error_bind]

theorem strides_checked_eq_ok_iff {steps : List Nat} :
    checked.strides dims = .ok steps ↔ TrailingFit dims ∧ steps = TensorGraph.strides dims := by
  by_cases h : TrailingFit dims
  · rw [strides_eq_ok _ h, Except.ok.injEq, and_iff_right h, eq_comm]
  · rw [strides_checked h]
    simp [h]

end Sizes

end TensorGraph
