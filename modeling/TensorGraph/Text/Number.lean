/-
# TensorGraph.Text.Number -- numbers in the text form

An index is a run of decimal digits, with a plus sign if one likes, below `2 ^ 64`. A
literal is a decimal number with an optional sign, point and exponent, or the name of an
infinity or of no number in any case of letters; it denotes the nearest 32-bit word.
-/
import TensorGraph.Number.Binary

namespace TensorGraph

open scoped CoreInstances

/-! ## Indices -/

/-- The number that digits spell, after the digits read so far. -/
def digitsValue (n : Nat) (digits : List Char) : Nat :=
  digits.foldl (fun n c => 10 * n + (c.toNat - 48)) n

/-- Bound of dimensions, axes and indices. -/
def indexBound : Nat := 2 ^ (64 : Nat)

/-- A text without the plus sign it may start with. -/
def withoutPlus : List Char → List Char
  | '+' :: s => s
  | s => s

/-- **`readIndex?`** -- a dimension, axis or tuple index. -/
def readIndex? (s : List Char) : Option Nat :=
  let digits := withoutPlus s
  let n := digitsValue 0 digits
  if !digits.isEmpty && digits.all Char.isDigit && n < indexBound then some n else none

/-! ## Literals -/

/-- Digits at the start of a text, and the rest. -/
def leadingDigits (s : List Char) : List Char × List Char :=
  (s.takeWhile Char.isDigit, s.dropWhile Char.isDigit)

/-- A sign at the start of a text, and the rest. -/
def leadingSign : List Char → Bool × List Char
  | '-' :: s => (true, s)
  | '+' :: s => (false, s)
  | s => (false, s)

/-- The exponent that a whole text spells: nothing at all, or the mark `e`, a sign and
digits. -/
def readExponent? : List Char → Option Int
  | [] => some 0
  | e :: s =>
    let (negative, digits) := leadingSign s
    if e.toLower = 'e' && !digits.isEmpty && digits.all Char.isDigit then
      some (if negative then -(digitsValue 0 digits : Int) else digitsValue 0 digits)
    else none

/-- The magnitude word of an unsigned number: digits around at most one point, then an
exponent. One digit at least must stand beside the point. -/
def readMagnitude? (fmt : BinaryFormat) (s : List Char) : Option Nat :=
  let (whole, rest) := leadingDigits s
  let (fraction, rest) :=
    match rest with
    | '.' :: rest => leadingDigits rest
    | rest => ([], rest)
  if whole.isEmpty && fraction.isEmpty then none
  else
    (readExponent? rest).map fun exponent =>
      fmt.ofDecimal (digitsValue (digitsValue 0 whole) fraction) (exponent - fraction.length)

/-- The magnitude word of a number that goes by a name, in any case of letters. -/
def namedMagnitude? (fmt : BinaryFormat) (s : List Char) : Option Nat :=
  let word := String.ofList (s.map Char.toLower)
  if word = "inf" ∨ word = "infinity" then some fmt.infinity
  else if word = "nan" then some fmt.quietNaN
  else none

/-- **`readNumber?`** -- the word of the format nearest to the number a text spells. -/
def readNumber? (fmt : BinaryFormat) (s : List Char) : Option Nat :=
  let (negative, rest) := leadingSign s
  ((readMagnitude? fmt rest).or (namedMagnitude? fmt rest)).map fun magnitude =>
    if negative then fmt.signWeight + magnitude else magnitude

end TensorGraph
