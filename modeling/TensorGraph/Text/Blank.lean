/-
# TensorGraph.Text.Blank -- the white space that trimming removes

The property `White_Space` of the Unicode standard, as a table of ranges, and trimming at
either end of a list of characters.
-/

namespace TensorGraph

/-- The ranges of code points with the property `White_Space`. -/
def blankRanges : List (Nat × Nat) :=
  [(0x9, 0xd), (0x20, 0x20), (0x85, 0x85), (0xa0, 0xa0), (0x1680, 0x1680), (0x2000, 0x200a),
    (0x2028, 0x2029), (0x202f, 0x202f), (0x205f, 0x205f), (0x3000, 0x3000)]

/-- Whether a character is white space. -/
def isBlank (c : Char) : Bool := blankRanges.any fun (first, last) =>
  first ≤ c.toNat && c.toNat ≤ last

/-- Without white space at the start. -/
def trimStart (s : List Char) : List Char := s.dropWhile isBlank

/-- Without white space at the end. -/
def trimEnd (s : List Char) : List Char := (s.reverse.dropWhile isBlank).reverse

/-- **`trim`** -- without white space at either end. -/
def trim (s : List Char) : List Char := trimEnd (trimStart s)

/-- Trimming drops characters and adds none. -/
theorem length_trim_le (s : List Char) : (trim s).length ≤ s.length := by
  have h := (List.dropWhile_sublist isBlank (l := s)).length_le
  have h' := (List.dropWhile_sublist isBlank (l := (trimStart s).reverse)).length_le
  simp only [trim, trimEnd, trimStart, List.length_reverse] at h h' ⊢
  omega

end TensorGraph
