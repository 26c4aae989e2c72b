/-
# TensorGraph.Prelude -- what every module starts from

A product, a power or a search of a list means the same whether or not the mathematical library
is imported, but it may be found by another instance there. A module that opens `CoreInstances`
gets the core's own instances, whatever else it imports.

Braces have names, since the escapes that stand for them do not read as braces.
-/

namespace TensorGraph

namespace CoreInstances

attribute [scoped instance (high)] One.ofOfNat1 Zero.ofOfNat0 instPowNat List.decidableBAll

end CoreInstances

/-- The opening brace. -/
abbrev leftBrace : Char := '\x7b'

/-- The closing brace. -/
abbrev rightBrace : Char := '\x7d'

@[simp] theorem leftBrace_ne_rightBrace : leftBrace ≠ rightBrace := by decide

@[simp] theorem rightBrace_ne_leftBrace : rightBrace ≠ leftBrace := by decide

end TensorGraph
