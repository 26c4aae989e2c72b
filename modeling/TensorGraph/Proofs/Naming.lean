/-
# TensorGraph.Proofs.Naming -- fresh names for several hints

A supply answers hints one after the other. The names that it gives are distinct and were not
taken before. A name differs from its hint only where it has to: the hint was taken, or it was
given away earlier (`NameSupply.renames_freshAll`). So hints that are free and distinct are given
as they are.
-/
import TensorGraph.Proofs.Construction

namespace TensorGraph

namespace NameSupply

variable {s : NameSupply} {hints : List String} {name : String}

/-! ## What is taken -/

theorem freshAll_cons (s : NameSupply) (hint : String) (rest : List String) :
    s.freshAll (hint :: rest) = (s.choose hint :: ((s.take (s.choose hint)).freshAll rest).1,
      ((s.take (s.choose hint)).freshAll rest).2) := rfl

theorem isTaken_takeAll (s : NameSupply) (names : List String) (name : String) :
    (s.takeAll names).isTaken name = true ↔ name ∈ names ∨ s.isTaken name = true := by
  induction names generalizing s with
  | nil => simp [takeAll]
  | cons first rest ih =>
    rw [show s.takeAll (first :: rest) = (s.take first).takeAll rest from rfl, ih, isTaken_take]
    simp only [Bool.or_eq_true, beq_iff_eq, List.mem_cons]
    tauto

theorem length_freshAll (s : NameSupply) (hints : List String) :
    (s.freshAll hints).1.length = hints.length := by
  induction hints generalizing s with
  | nil => rfl
  | cons hint rest ih => exact congrArg (· + 1) (ih _)

/-- Names for two lists of hints are given one after the other. -/
theorem freshAll_append (s : NameSupply) (hints more : List String) :
    s.freshAll (hints ++ more) =
      ((s.freshAll hints).1 ++ ((s.freshAll hints).2.freshAll more).1,
        ((s.freshAll hints).2.freshAll more).2) := by
  induction hints generalizing s with
  | nil => rfl
  | cons hint rest ih =>
    rw [List.cons_append, freshAll_cons, ih, freshAll_cons]
    rfl

/-- A name that is given was free. -/
theorem isTaken_of_mem_freshAll (h : name ∈ (s.freshAll hints).1) : s.isTaken name = false := by
  induction hints generalizing s with
  | nil => exact absurd h List.not_mem_nil
  | cons hint rest ih =>
    rcases List.mem_cons.mp h with rfl | h
    · exact s.isTaken_choose hint
    · have hfree : (s.take (s.choose hint)).isTaken name = false := ih h
      rw [isTaken_take, Bool.or_eq_false_iff] at hfree
      exact hfree.2

/-- Names that are given differ. -/
theorem nodup_freshAll (s : NameSupply) (hints : List String) : (s.freshAll hints).1.Nodup := by
  induction hints generalizing s with
  | nil => exact List.nodup_nil
  | cons hint rest ih =>
    refine List.nodup_cons.mpr ⟨fun hm => ?_, ih _⟩
    -- the first name is taken when the others are given
    have hfree : (s.take (s.choose hint)).isTaken (s.choose hint) = false :=
      isTaken_of_mem_freshAll hm
    rw [isTaken_take, beq_self_eq_true, Bool.true_or] at hfree
    cases hfree

/-- **Hints that are free and differ** are given as they are. -/
theorem freshAll_of_free (hn : hints.Nodup) (hfree : ∀ hint ∈ hints, s.isTaken hint = false) :
    (s.freshAll hints).1 = hints := by
  induction hints generalizing s with
  | nil => rfl
  | cons hint rest ih =>
    obtain ⟨hhint, hrest⟩ := List.nodup_cons.mp hn
    obtain ⟨hhintFree, hrestFree⟩ := List.forall_mem_cons.mp hfree
    have hchoose := choose_of_free hhintFree
    rw [freshAll_cons, hchoose]
    refine congrArg (hint :: ·) (ih hrest fun other ho => ?_)
    rw [isTaken_take, hrestFree other ho, Bool.or_false]
    exact beq_false_of_ne fun he => hhint (he ▸ ho)

/-- Hints that differ from each other and from those before them are given as they are. -/
theorem freshAll_of_nodup (asked more : List String) (hn : (asked ++ more).Nodup) :
    ((empty.freshAll asked).2.freshAll more).1 = more := by
  have hall : (empty.freshAll (asked ++ more)).1 = asked ++ more :=
    freshAll_of_free hn fun _ _ => rfl
  rw [freshAll_append] at hall
  exact (List.append_inj hall (length_freshAll _ _)).2

/-! ## When a name differs from its hint -/

/-- **`Renames`** -- names for hints, each of which differs from its hint only if the hint is
reserved or was given before. -/
structure Renames (reserved hints given : List String) : Prop where
  /-- There is a name for each hint. -/
  length : given.length = hints.length
  /-- A hint that is passed over is reserved or was given before. -/
  reason : ∀ i hint name, hints[i]? = some hint → given[i]? = some name → name ≠ hint →
    hint ∈ reserved ∨ hint ∈ given.take i

theorem taken_or_given {i : Nat} {hint : String} (hh : hints[i]? = some hint)
    (hn : (s.freshAll hints).1[i]? = some name) (hne : name ≠ hint) :
    s.isTaken hint = true ∨ hint ∈ (s.freshAll hints).1.take i := by
  induction hints generalizing s i with
  | nil => simp at hh
  | cons first rest ih =>
    rw [freshAll_cons] at hn ⊢
    cases i with
    | zero =>
      obtain rfl : first = hint := by simpa using hh
      obtain rfl : s.choose first = name := by simpa using hn
      by_contra hcon
      rw [not_or, Bool.not_eq_true] at hcon
      exact hne (choose_of_free hcon.1)
    | succ i =>
      -- what is taken for the later hints was taken at first or is the first name
      have hlater := ih (s := s.take (s.choose first)) (by simpa using hh) (by simpa using hn)
      rw [isTaken_take, Bool.or_eq_true, beq_iff_eq] at hlater
      simp only [List.take_succ_cons, List.mem_cons]
      tauto

/-- **A supply renames** only what it has to. -/
theorem renames_freshAll {reserved : List String}
    (hreserved : ∀ name, s.isTaken name = true → name ∈ reserved) :
    Renames reserved hints (s.freshAll hints).1 where
  length := length_freshAll s hints
  reason := fun _ hint _ hh hn hne => (taken_or_given hh hn hne).imp_left (hreserved hint)

end NameSupply

end TensorGraph
