/-
# TensorGraph.Text.Nest -- parenthesised lists

Types, tuple fields and return expressions share one outline: a leaf, or a list of such
between parentheses. A `Nest` is that outline with the leaves still as text. Reading it
never fails: a parenthesis without its partner, or text after the closing one, becomes a
node of its own, so that whoever interprets the leaves meets faults and leaves in the
order in which they stand.
-/
import TensorGraph.Text.Scan

namespace TensorGraph

/-- **`Nest`** -- text as a tree of parenthesised lists. -/
inductive Nest where
  /-- Text that starts with no parenthesis, trimmed. -/
  | leaf (text : List Char)
  | group (elements : List Nest)
  /-- An opening parenthesis without its partner. -/
  | unclosed
  /-- A list followed by more text; all of it, trimmed. -/
  | overrun (text : List Char)

/-- **`Nest.ofText`** -- the outline of a text. With `lenient`, blanks before the first
comma of a list count as nothing; otherwise as an empty item. -/
def Nest.ofText (lenient : Bool) (s : List Char) : Nest :=
  match _h : trim s with
  | '(' :: body =>
    match _hc : closing? '(' ')' 0 body with
    | none => .unclosed
    | some (inside, []) =>
      let inner := if lenient then trim inside else inside
      .group ((items inner).attach.map fun ⟨item, _⟩ => Nest.ofText lenient item)
    | some (_, _ :: _) => .overrun (trim s)
  | text => .leaf text
termination_by s.length
decreasing_by
  rename_i hmem
  have h1 := length_of_mem_items hmem
  have h2 := length_closing? _hc
  have h3 := length_trim_le s
  have h4 := length_trim_le inside
  rw [_h] at h3
  simp only [List.length_cons, List.length_nil] at h2 h3
  have h5 : inner.length ≤ inside.length := by
    simp only [inner]
    split <;> omega
  omega

end TensorGraph
