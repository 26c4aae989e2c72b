/-
# TensorGraph.Proofs.Freshness -- a supply of names, call after call

A supply reserves names and gives fresh ones, in any order. The search for a fresh name tries one
number after the other and has no bound of its own (`NameSupply.Finds`). It ends because only
finitely many names are taken and numbered names differ, and it ends at the least number whose
name is free. So each answer is determined by the names of the calls before it
(`NameSupply.Event.Meets`), whatever the hints are: one that ends in digits competes with the
numbered names of another, and both are given names that nobody has.
-/
import Mathlib.Order.Bounds.Defs
import TensorGraph.Proofs.Construction

namespace TensorGraph

namespace NameSupply

/-! ## The search for a number -/

/-- **`Finds`** -- the search from one number on ends at another: a number whose name is free ends
it, and any other leads to the next number. -/
inductive Finds (taken : String → Prop) (hint : String) : Nat → Nat → Prop
  | free {k : Nat} : ¬taken (numbered hint k) → Finds taken hint k k
  | next {k n : Nat} : taken (numbered hint k) → Finds taken hint (k + 1) n →
    Finds taken hint k n

section Search

variable {taken : String → Prop} {s : NameSupply} {hint : String} {k n : Nat}

/-- **The search ends** at the first number whose name is free. -/
theorem finds_iff : Finds taken hint k n ↔
    k ≤ n ∧ ¬taken (numbered hint n) ∧ ∀ j, k ≤ j → j < n → taken (numbered hint j) := by
  constructor
  · intro h
    induction h with
    | free hfree => exact ⟨Nat.le_refl _, hfree, fun j hj hlt => absurd hlt (Nat.not_lt.mpr hj)⟩
    | @next k n htaken _ ih =>
      obtain ⟨hle, hfree, hbelow⟩ := ih
      refine ⟨by omega, hfree, fun j hj hlt => ?_⟩
      rcases Nat.eq_or_lt_of_le hj with rfl | hj
      · exact htaken
      · exact hbelow j hj hlt
  · rintro ⟨hle, hfree, hbelow⟩
    -- on the number of rounds
    induction hrounds : n - k generalizing k with
    | zero =>
      obtain rfl : k = n := by omega
      exact .free hfree
    | succ rounds ih =>
      have htaken : taken (numbered hint k) := hbelow k (Nat.le_refl k) (by omega)
      exact .next htaken (ih (by omega) (fun j hj => hbelow j (by omega)) (by omega))

theorem finds_one_iff :
    Finds taken hint 1 n ↔ IsLeast {k | 1 ≤ k ∧ ¬taken (numbered hint k)} n := by
  rw [finds_iff]
  constructor
  · rintro ⟨hle, hfree, hbelow⟩
    refine ⟨⟨hle, hfree⟩, fun k hk => ?_⟩
    by_contra hlt
    exact hk.2 (hbelow k hk.1 (Nat.lt_of_not_le hlt))
  · rintro ⟨⟨hle, hfree⟩, hleast⟩
    refine ⟨hle, hfree, fun j hj hlt => ?_⟩
    by_contra hfree'
    exact absurd (hleast ⟨hj, hfree'⟩) (Nat.not_le.mpr hlt)

/-- **A hint that is taken** is given with the number that the search from 1 on ends at. -/
theorem exists_finds_choose (h : s.isTaken hint = true) :
    ∃ k, s.choose hint = numbered hint k ∧ Finds (s.isTaken · = true) hint 1 k := by
  have hfree := s.isTaken_choose hint
  unfold choose at hfree ⊢
  rw [if_pos h] at hfree ⊢
  split at hfree
  · next k hk =>
    obtain ⟨-, hrange, hbelow⟩ := List.find?_range'_eq_some.mp hk
    refine ⟨k, rfl, finds_iff.mpr ⟨(List.mem_range'_1.mp hrange).1, ?_, fun j hj hlt => ?_⟩⟩
    · rw [hfree]
      exact Bool.false_ne_true
    · simpa using hbelow j hj hlt
  · -- the range that is searched is long enough
    rw [h] at hfree
    cases hfree

end Search

/-! ## Calls and their answers -/

/-- A call on a supply. -/
inductive Call where
  | reserve (name : String)
  | fresh (hint : String)

/-- **`Event`** -- a call that has been answered. -/
inductive Event where
  /-- A name was reserved; it was free or not. -/
  | reserved (name : String) (free : Bool)
  /-- A name was given for a hint. -/
  | given (hint name : String)
  deriving DecidableEq

namespace Event

/-- The call. -/
def call : Event → Call
  | reserved name _ => .reserve name
  | given hint _ => .fresh hint

/-- The name that is taken from then on. -/
def name : Event → String
  | reserved name _ => name
  | given _ name => name

/-- **`Meets`** -- the answer that a call should have, when the given names were taken before. A
name can be reserved exactly if it was not taken. A hint that was not taken is the name itself;
one that was is followed by the least positive number that makes a name that was not, and the
search ends there. -/
def Meets (taken : String → Prop) : Event → Prop
  | reserved name free => free = true ↔ ¬taken name
  | given hint name => ¬taken hint ∧ name = hint ∨ taken hint ∧ ∃ k, name = numbered hint k ∧
      IsLeast {k | 1 ≤ k ∧ ¬taken (numbered hint k)} k ∧ Finds taken hint 1 k

/-- A name that is given was not taken. -/
theorem Meets.not_taken {taken : String → Prop} {hint name : String}
    (h : (given hint name).Meets taken) : ¬taken name := by
  rcases h with ⟨hfree, rfl⟩ | ⟨-, k, rfl, hleast, -⟩
  · exact hfree
  · exact hleast.1.2

end Event

/-- Answers one call. -/
def step (s : NameSupply) : Call → Event × NameSupply
  | .reserve name => (.reserved name (s.reserve name).1, (s.reserve name).2)
  | .fresh hint => (.given hint (s.fresh hint).1, (s.fresh hint).2)

/-- **`run`** -- answers calls one after the other. -/
def run (s : NameSupply) : List Call → List Event × NameSupply
  | [] => ([], s)
  | call :: calls =>
    let (event, s) := s.step call
    let (events, s) := s.run calls
    (event :: events, s)

/-- **`TakenAfter`** -- a name was taken from the start or by one of the calls. -/
def TakenAfter (s : NameSupply) (events : List Event) (name : String) : Prop :=
  s.isTaken name = true ∨ ∃ event ∈ events, event.name = name

section Calls

variable {s : NameSupply} {call : Call} {calls : List Call} {event : Event} {name : String}

theorem call_step (s : NameSupply) (call : Call) : (s.step call).1.call = call := by
  cases call <;> rfl

/-- **A call takes one name**, that of its answer. -/
theorem isTaken_step (s : NameSupply) (call : Call) (name : String) :
    (s.step call).2.isTaken name = true ↔ s.isTaken name = true ∨ (s.step call).1.name = name := by
  have htake : ∀ new, (s.take new).isTaken name = true ↔ s.isTaken name = true ∨ new = name := by
    intro new
    rw [isTaken_take, Bool.or_eq_true, beq_iff_eq, or_comm, @eq_comm _ name]
  cases call with
  | reserve new => exact htake new
  | fresh hint => exact htake (s.choose hint)

/-- **Every answer is the one that the taken names call for.** -/
theorem meets_step (s : NameSupply) (call : Call) :
    (s.step call).1.Meets (s.isTaken · = true) := by
  cases call with
  | reserve name =>
    show (!s.isTaken name) = true ↔ ¬s.isTaken name = true
    rw [Bool.not_eq_true', Bool.not_eq_true]
  | fresh hint =>
    by_cases htaken : s.isTaken hint = true
    · obtain ⟨k, hk, hfinds⟩ := exists_finds_choose htaken
      exact .inr ⟨htaken, k, hk, finds_one_iff.mp hfinds, hfinds⟩
    · exact .inl ⟨htaken, choose_of_free (Bool.eq_false_iff.mpr htaken)⟩

theorem takenAfter_nil (s : NameSupply) : s.TakenAfter [] = (s.isTaken · = true) := by
  funext name
  simp [TakenAfter]

theorem takenAfter_step (s : NameSupply) (call : Call) (events : List Event) :
    (s.step call).2.TakenAfter events = s.TakenAfter ((s.step call).1 :: events) := by
  funext name
  simp only [TakenAfter, isTaken_step, List.exists_mem_cons_iff, or_assoc]

theorem events_cons (s : NameSupply) (call : Call) (calls : List Call) :
    (s.run (call :: calls)).1 = (s.step call).1 :: ((s.step call).2.run calls).1 := rfl

theorem calls_run (s : NameSupply) (calls : List Call) :
    (s.run calls).1.map Event.call = calls := by
  induction calls generalizing s with
  | nil => rfl
  | cons call calls ih => rw [events_cons, List.map_cons, call_step, ih]

/-- The answers of a run are called for by the names that were taken before each of them. -/
theorem meets_run {before after : List Event}
    (h : (s.run calls).1 = before ++ event :: after) : event.Meets (s.TakenAfter before) := by
  induction calls generalizing s before with
  | nil => simp [run] at h
  | cons call calls ih =>
    rw [events_cons] at h
    cases before with
    | nil =>
      obtain ⟨rfl, -⟩ := List.cons.inj h
      rw [takenAfter_nil]
      exact meets_step s call
    | cons first before =>
      obtain ⟨rfl, hrest⟩ := List.cons.inj h
      rw [← takenAfter_step]
      exact ih hrest

/-- A name that is given in a run was not taken at its start. -/
theorem isTaken_of_given {hint : String} (h : .given hint name ∈ (s.run calls).1) :
    ¬s.isTaken name = true := by
  obtain ⟨before, after, hevents⟩ := List.append_of_mem h
  exact fun htaken => (meets_run hevents).not_taken (.inl htaken)

/-- **A run of a supply**, from any names that are taken at first. Every call is answered, and by
the names that were taken before it: reserving succeeds exactly for a name that was free, and a
fresh name is the hint if that was free and otherwise the hint with the least positive number
that makes it free, at which the search ends. A name that is given differs from the names of all
earlier calls, whether they were given or reserved. -/
theorem run_answers (s : NameSupply) (calls : List Call) :
    (s.run calls).1.map Event.call = calls ∧
      (∀ before event after, (s.run calls).1 = before ++ event :: after →
        event.Meets (s.TakenAfter before)) ∧
      (s.run calls).1.Pairwise fun earlier later =>
        ∀ hint name, later = .given hint name → name ≠ earlier.name := by
  refine ⟨s.calls_run calls, fun before event after => meets_run, ?_⟩
  induction calls generalizing s with
  | nil => exact .nil
  | cons call calls ih =>
    rw [events_cons, List.pairwise_cons]
    refine ⟨?_, ih _⟩
    rintro later hlater hint name rfl rfl
    exact isTaken_of_given hlater ((s.isTaken_step call _).mpr (.inr rfl))

/-- Hints that end in digits compete with numbered names, and a name is reserved between them. -/
def competingHints : List Call :=
  [.fresh "x", .fresh "x", .reserve "x2", .fresh "x", .fresh "x1", .reserve "x11"]

theorem run_competingHints :
    (empty.run competingHints).1 = [.given "x" "x", .given "x" "x1", .reserved "x2" true] ++
      .given "x" "x3" :: [.given "x1" "x11", .reserved "x11" false] ∧
    (Event.given "x" "x3").Meets
      (empty.TakenAfter [.given "x" "x", .given "x" "x1", .reserved "x2" true]) := by
  have hevents : (empty.run competingHints).1 = [.given "x" "x", .given "x" "x1",
      .reserved "x2" true] ++ .given "x" "x3" :: [.given "x1" "x11", .reserved "x11" false] := by
    decide
  exact ⟨hevents, (run_answers empty competingHints).2.1 _ _ _ hevents⟩

end Calls

end NameSupply

end TensorGraph
