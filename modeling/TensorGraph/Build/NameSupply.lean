/-
# TensorGraph.Build.NameSupply -- names not used before

A supply remembers the names that are taken. A fresh name is the hint itself when that is
free, and otherwise the hint followed by the least positive number that makes it free.
Among as many numbers as there are taken names one is free, because the hint without a
number is taken too; so the search is over a finite range.
-/

namespace TensorGraph

/-- **`NameSupply`** -- the names that are taken. -/
structure NameSupply where
  /-- The taken names, latest first. -/
  taken : List String

namespace NameSupply

/-- No name is taken. -/
def empty : NameSupply := ⟨[]⟩

/-- Whether a name is taken. -/
def isTaken (s : NameSupply) (name : String) : Bool := s.taken.contains name

/-- Takes a name; taking it again changes nothing. -/
def take (s : NameSupply) (name : String) : NameSupply :=
  if s.isTaken name then s else ⟨name :: s.taken⟩

/-- **Taking a name** makes that name taken and no other. -/
theorem isTaken_take (s : NameSupply) (name other : String) :
    (s.take name).isTaken other = (other == name || s.isTaken other) := by
  rw [take]
  split
  · next h =>
    by_cases ho : other = name
    · rw [ho, h, beq_self_eq_true, Bool.true_or]
    · rw [beq_false_of_ne ho, Bool.false_or]
  · exact List.contains_cons

/-- What is taken stays taken. -/
theorem isTaken_take_of_isTaken {s : NameSupply} {other : String} (name : String)
    (h : s.isTaken other = true) : (s.take name).isTaken other = true := by
  rw [isTaken_take, h, Bool.or_true]

/-- **`reserve`** -- takes a name and tells whether it was free. -/
def reserve (s : NameSupply) (name : String) : Bool × NameSupply :=
  (!s.isTaken name, s.take name)

/-- The hint with a number. -/
def numbered (hint : String) (k : Nat) : String := hint ++ k.repr

/-- The name that a hint gives: the hint, or the first free numbered one. -/
def choose (s : NameSupply) (hint : String) : String :=
  if s.isTaken hint then
    match (List.range' 1 s.taken.length).find? fun k => !s.isTaken (numbered hint k) with
    | some k => numbered hint k
    | none => hint
  else hint

/-- **`fresh`** -- takes a name that was free, made from a hint. -/
def fresh (s : NameSupply) (hint : String) : String × NameSupply :=
  (s.choose hint, s.take (s.choose hint))

/-- A free hint is the name itself. -/
theorem choose_of_free {s : NameSupply} {hint : String} (h : s.isTaken hint = false) :
    s.choose hint = hint := by
  rw [choose, if_neg (by rw [h]; exact Bool.false_ne_true)]

/-- Takes several names. -/
def takeAll (s : NameSupply) (names : List String) : NameSupply := names.foldl take s

/-- Fresh names for several hints, one after the other. -/
def freshAll (s : NameSupply) : List String → List String × NameSupply
  | [] => ([], s)
  | hint :: rest =>
    let (name, s) := s.fresh hint
    let (names, s) := s.freshAll rest
    (name :: names, s)

end NameSupply

end TensorGraph
