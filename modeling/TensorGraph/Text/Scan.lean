/-
# TensorGraph.Text.Scan -- cutting text at marks and brackets

The text form is read by cutting: at the first or last occurrence of a mark, at the bracket
that closes an open one, at the commas outside every bracket. Each cut is a function on
lists of characters that returns the pieces; a piece is never longer than what was cut,
which is what the readers of nested text recurse on.

Two notions of nesting are in use. A closing bracket is sought by counting brackets of its
own kind only. Commas are outside when the brackets `<`, `(`, `[` and their closing
partners, of whatever kind, are balanced before them; a closing bracket too many is
ignored.
-/
import TensorGraph.Text.Blank

namespace TensorGraph

/-! ## Marks -/

/-- Before and after the first `mark`. -/
def cutAtFirst (mark : Char) : List Char → Option (List Char × List Char)
  | [] => none
  | c :: cs =>
    if c = mark then some ([], cs)
    else (cutAtFirst mark cs).map fun (before, after) => (c :: before, after)

/-- A cut drops the mark. -/
theorem length_cutAtFirst {mark : Char} {s before after : List Char}
    (h : cutAtFirst mark s = some (before, after)) :
    before.length + after.length < s.length := by
  induction s generalizing before after with
  | nil => simp [cutAtFirst] at h
  | cons c cs ih =>
    simp only [cutAtFirst] at h
    split at h
    · obtain ⟨rfl, rfl⟩ := Prod.mk.inj (Option.some.inj h)
      simp
    · obtain ⟨⟨b, a⟩, hb, he⟩ := Option.map_eq_some_iff.1 h
      obtain ⟨rfl, rfl⟩ := Prod.mk.inj he
      have := ih hb
      simp only [List.length_cons]
      omega

/-- **A cut at the first mark** loses the mark only, and finds none before it. -/
theorem eq_append_of_cutAtFirst {mark : Char} {s before after : List Char}
    (h : cutAtFirst mark s = some (before, after)) :
    s = before ++ mark :: after ∧ mark ∉ before := by
  induction s generalizing before after with
  | nil => simp [cutAtFirst] at h
  | cons c cs ih =>
    rw [cutAtFirst] at h
    split at h
    · next hc =>
      obtain ⟨rfl, rfl⟩ := Prod.mk.inj (Option.some.inj h)
      exact ⟨by rw [hc, List.nil_append], List.not_mem_nil⟩
    · next hc =>
      obtain ⟨⟨b, a⟩, hb, he⟩ := Option.map_eq_some_iff.1 h
      obtain ⟨rfl, rfl⟩ := Prod.mk.inj he
      obtain ⟨rfl, hm⟩ := ih hb
      refine ⟨rfl, fun hmem => ?_⟩
      rcases List.mem_cons.1 hmem with h' | h'
      · exact hc h'.symm
      · exact hm h'

/-- There is no cut exactly where there is no mark. -/
theorem cutAtFirst_eq_none_iff {mark : Char} {s : List Char} :
    cutAtFirst mark s = none ↔ mark ∉ s := by
  induction s with
  | nil => simp [cutAtFirst]
  | cons c cs ih =>
    rw [cutAtFirst, List.mem_cons, not_or]
    split
    · next hc => simp [hc]
    · next hc =>
      rw [Option.map_eq_none_iff, ih]
      exact ⟨fun h => ⟨fun h' => hc h'.symm, h⟩, fun h => h.2⟩

/-- Before and after the last `->`. -/
def cutAtLastArrow : List Char → Option (List Char × List Char)
  | '-' :: '>' :: cs =>
    match cutAtLastArrow cs with
    | some (before, after) => some ('-' :: '>' :: before, after)
    | none => some ([], cs)
  | c :: cs => (cutAtLastArrow cs).map fun (before, after) => (c :: before, after)
  | [] => none

/-- The part of a line before the first `//`. -/
def uncommented : List Char → List Char
  | '/' :: '/' :: _ => []
  | c :: cs => c :: uncommented cs
  | [] => []

/-- A comment is cut off at the end of the line. -/
theorem uncommented_prefix (s : List Char) : uncommented s <+: s := by
  fun_induction uncommented s with
  | case1 => exact List.nil_prefix
  | case2 c cs _ ih => exact List.cons_prefix_cons.2 ⟨rfl, ih⟩
  | case3 => exact List.prefix_rfl

/-- What follows `word` at the start. -/
def after? (word : String) (s : List Char) : Option (List Char) := word.toList.isPrefixOf? s

/-! ## Brackets -/

/-- **`closing?`** -- given the text after an opening bracket, what stands before and after
the bracket that closes it; `depth` more brackets are open in between. -/
def closing? (opening close : Char) : Nat → List Char → Option (List Char × List Char)
  | _, [] => none
  | depth, c :: cs =>
    if c = opening then
      (closing? opening close (depth + 1) cs).map fun (inside, rest) => (c :: inside, rest)
    else if c = close then
      match depth with
      | 0 => some ([], cs)
      | depth + 1 =>
        (closing? opening close depth cs).map fun (inside, rest) => (c :: inside, rest)
    else (closing? opening close depth cs).map fun (inside, rest) => (c :: inside, rest)

/-- What stands inside and after a bracket is shorter than what follows the opening. -/
theorem length_closing? {opening close : Char} {s inside rest : List Char} {depth : Nat}
    (h : closing? opening close depth s = some (inside, rest)) :
    inside.length + rest.length < s.length := by
  induction s generalizing depth inside rest with
  | nil => simp [closing?] at h
  | cons c cs ih =>
    simp only [closing?] at h
    split at h
    · obtain ⟨⟨i, r⟩, hr, he⟩ := Option.map_eq_some_iff.1 h
      obtain ⟨rfl, rfl⟩ := Prod.mk.inj he
      have := ih hr
      simp only [List.length_cons]
      omega
    · split at h
      · split at h
        · obtain ⟨rfl, rfl⟩ := Prod.mk.inj (Option.some.inj h)
          simp
        · obtain ⟨⟨i, r⟩, hr, he⟩ := Option.map_eq_some_iff.1 h
          obtain ⟨rfl, rfl⟩ := Prod.mk.inj he
          have := ih hr
          simp only [List.length_cons]
          omega
      · obtain ⟨⟨i, r⟩, hr, he⟩ := Option.map_eq_some_iff.1 h
        obtain ⟨rfl, rfl⟩ := Prod.mk.inj he
        have := ih hr
        simp only [List.length_cons]
        omega

/-- **The closing bracket** stands between what is inside and what comes after. -/
theorem eq_append_of_closing? {opening close : Char} {s inside rest : List Char} {depth : Nat}
    (h : closing? opening close depth s = some (inside, rest)) :
    s = inside ++ close :: rest := by
  induction s generalizing depth inside rest with
  | nil => simp [closing?] at h
  | cons c cs ih =>
    simp only [closing?] at h
    split at h
    · obtain ⟨⟨i, r⟩, hr, he⟩ := Option.map_eq_some_iff.1 h
      obtain ⟨rfl, rfl⟩ := Prod.mk.inj he
      rw [ih hr, List.cons_append]
    · split at h
      · next hc =>
        split at h
        · obtain ⟨rfl, rfl⟩ := Prod.mk.inj (Option.some.inj h)
          rw [hc, List.nil_append]
        · obtain ⟨⟨i, r⟩, hr, he⟩ := Option.map_eq_some_iff.1 h
          obtain ⟨rfl, rfl⟩ := Prod.mk.inj he
          rw [ih hr, List.cons_append]
      · obtain ⟨⟨i, r⟩, hr, he⟩ := Option.map_eq_some_iff.1 h
        obtain ⟨rfl, rfl⟩ := Prod.mk.inj he
        rw [ih hr, List.cons_append]

/-! ## Commas outside brackets -/

/-- The number of open brackets after `c`. -/
def depthAfter (c : Char) (depth : Nat) : Nat :=
  if c = '<' ∨ c = '(' ∨ c = '[' then depth + 1
  else if c = '>' ∨ c = ')' ∨ c = ']' then depth - 1
  else depth

/-- The text up to the first comma outside brackets, and the texts between the later
ones. -/
def cutAtCommas : Nat → List Char → List Char × List (List Char)
  | _, [] => ([], [])
  | depth, c :: cs =>
    if c = ',' ∧ depth = 0 then
      let (first, rest) := cutAtCommas 0 cs
      ([], first :: rest)
    else
      let (first, rest) := cutAtCommas (depthAfter c depth) cs
      (c :: first, rest)

/-- Drops the texts before a comma that are empty, and the last text if it is blank. -/
def keptItems : List Char → List (List Char) → List (List Char)
  | last, [] => if (trim last).isEmpty then [] else [last]
  | text, next :: rest => if text.isEmpty then keptItems next rest else text :: keptItems next rest

/-- **`items`** -- the trimmed texts between the commas outside brackets. Nothing between
two commas is no item; blanks between two commas are an empty item, but not at the
end. -/
def items (s : List Char) : List (List Char) :=
  let (first, rest) := cutAtCommas 0 s
  (keptItems first rest).map trim

theorem length_cutAtCommas {s piece : List Char} {depth : Nat}
    (h : piece ∈ (cutAtCommas depth s).1 :: (cutAtCommas depth s).2) :
    piece.length ≤ s.length := by
  induction s generalizing depth piece with
  | nil => simp_all [cutAtCommas]
  | cons c cs ih =>
    simp only [cutAtCommas] at h
    split at h
    · rcases List.mem_cons.1 h with rfl | h
      · simp
      · exact Nat.le_succ_of_le (ih h)
    · rcases List.mem_cons.1 h with rfl | h
      · exact Nat.succ_le_succ (ih (List.mem_cons_self ..))
      · exact Nat.le_succ_of_le (ih (List.mem_cons_of_mem _ h))

theorem mem_of_mem_keptItems {piece text : List Char} {rest : List (List Char)}
    (h : piece ∈ keptItems text rest) : piece ∈ text :: rest := by
  induction rest generalizing text with
  | nil =>
    simp only [keptItems] at h
    split at h
    · simp at h
    · exact h
  | cons next rest ih =>
    simp only [keptItems] at h
    split at h
    · exact List.mem_cons_of_mem _ (ih h)
    · rcases List.mem_cons.1 h with rfl | h
      · exact List.mem_cons_self ..
      · exact List.mem_cons_of_mem _ (ih h)

/-- No item is longer than the text. -/
theorem length_of_mem_items {item s : List Char} (h : item ∈ items s) :
    item.length ≤ s.length := by
  obtain ⟨piece, hp, rfl⟩ := List.mem_map.1 h
  exact Nat.le_trans (length_trim_le piece) (length_cutAtCommas (mem_of_mem_keptItems hp))

end TensorGraph
