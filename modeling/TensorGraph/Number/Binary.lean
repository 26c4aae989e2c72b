/-
# TensorGraph.Number.Binary -- binary floating-point formats, exactly

A finite magnitude of a binary format is a whole number of the format's smallest positive
value, its *unit*. So a word decodes to a natural number of units, and a quotient of
natural numbers is rounded to a word by integer division: to the nearest magnitude, a tie
to the even one, beyond the largest to infinity. No machine arithmetic is involved.
-/
import TensorGraph.Prelude

namespace TensorGraph

open scoped CoreInstances

/-- **`BinaryFormat`** -- the widths of the two fields below the sign. -/
structure BinaryFormat where
  /-- Stored bits of the significand. -/
  fractionBits : Nat
  /-- Bits of the biased exponent. -/
  exponentBits : Nat

namespace BinaryFormat

/-- The 32-bit format. -/
def single : BinaryFormat := ⟨23, 8⟩

/-- The 64-bit format. -/
def double : BinaryFormat := ⟨52, 11⟩

/-- The weight of the sign bit: words below it are magnitudes. -/
def signWeight (fmt : BinaryFormat) : Nat := 2 ^ (fmt.fractionBits + fmt.exponentBits)

/-- The magnitude word of infinity; larger magnitude words are no numbers. -/
def infinity (fmt : BinaryFormat) : Nat := (2 ^ fmt.exponentBits - 1) * 2 ^ fmt.fractionBits

/-- The word that is no number with the first fraction bit set. -/
def quietNaN (fmt : BinaryFormat) : Nat := fmt.infinity + 2 ^ (fmt.fractionBits - 1)

/-- How many units make up 1. -/
def unitsPerOne (fmt : BinaryFormat) : Nat :=
  2 ^ (2 ^ (fmt.exponentBits - 1) - 2 + fmt.fractionBits)

/-- The significand of a finite magnitude word, hidden bit included, and the power of two
by which it is shifted. -/
def significand (fmt : BinaryFormat) (word : Nat) : Nat × Nat :=
  let exponent := word / 2 ^ fmt.fractionBits
  let fraction := word % 2 ^ fmt.fractionBits
  if exponent = 0 then (fraction, 0) else (2 ^ fmt.fractionBits + fraction, exponent - 1)

/-- The whole number nearest to `num / den`, the even one of two. -/
def roundHalfEven (num den : Nat) : Nat :=
  let q := num / den
  let r := num % den
  if 2 * r < den then q else if den < 2 * r then q + 1 else q + q % 2

/-- **`ofRatio`** -- the magnitude word nearest to `num / den`, ties to even. The shift is
chosen so that the quotient keeps one bit more than the fraction holds; a carry out of
the fraction lands in the exponent by itself. -/
def ofRatio (fmt : BinaryFormat) (num den : Nat) : Nat :=
  let scaled := num * fmt.unitsPerOne
  let shift := Nat.log2 (scaled / den) - fmt.fractionBits
  let word := shift * 2 ^ fmt.fractionBits + roundHalfEven scaled (den * 2 ^ shift)
  min word fmt.infinity

/-- The decimal order beyond which every format here is infinite, and below whose negative
every format is zero. -/
def decimalLimit : Nat := 400

/-- **`ofDecimal`** -- the magnitude word nearest to `digits * 10 ^ exponent`. Far outside
the range of the format no power of ten is formed. -/
def ofDecimal (fmt : BinaryFormat) (digits : Nat) (exponent : Int) : Nat :=
  let order : Int := (Nat.toDigits 10 digits).length + exponent
  if digits = 0 ∨ order < -decimalLimit then 0
  else if decimalLimit < order then fmt.infinity
  else if 0 ≤ exponent then fmt.ofRatio (digits * 10 ^ exponent.toNat) 1
  else fmt.ofRatio digits (10 ^ (-exponent).toNat)

end BinaryFormat

end TensorGraph
