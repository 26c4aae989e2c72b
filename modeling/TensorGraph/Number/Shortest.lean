/-
# TensorGraph.Number.Shortest -- the fewest digits that read back

For a finite positive magnitude, the reals that round to it form an interval around it. A
decimal with `n` digits is looked for on the grid of the `n`-th place of the value: only
the two grid points next to the value matter, since an interval that holds any point of
the grid holds one of these. The first `n` with a hit wins; of two hits the nearer, and of
two equally near the larger.
-/
import TensorGraph.Number.Binary

namespace TensorGraph

open scoped CoreInstances

/-- **`Decimal`** -- `digits * 10 ^ exponent`. -/
structure Decimal where
  /-- The digits as one number. -/
  digits : Nat
  /-- The power of ten of the last digit. -/
  exponent : Int

/-- A positive real and the interval of those that round to it, all in parts of `den`. -/
structure RoundingInterval where
  /-- The lower end. -/
  low : Nat
  /-- The value. -/
  mid : Nat
  /-- The upper end. -/
  high : Nat
  /-- The common denominator. -/
  den : Nat
  /-- Whether the ends belong to the interval. -/
  closed : Bool

namespace RoundingInterval

/-- The interval of a finite positive magnitude word. Below a power of two the neighbours
are half as far; the ends round to the word when its significand is even. -/
def ofWord (fmt : BinaryFormat) (word : Nat) : RoundingInterval :=
  let (m, shift) := fmt.significand word
  let step := 2 ^ shift
  let below := if m = 2 ^ fmt.fractionBits ∧ 0 < shift then 1 else 2
  ⟨(4 * m - below) * step, 4 * m * step, (4 * m + 2) * step, 4 * fmt.unitsPerOne, m % 2 == 0⟩

/-- The exponent of the leading decimal digit of the value. -/
def order (i : RoundingInterval) : Int :=
  if i.den ≤ i.mid then (Nat.toDigits 10 (i.mid / i.den)).length - 1
  else
    match (List.range BinaryFormat.decimalLimit).find? fun k => i.den ≤ i.mid * 10 ^ k with
    | some k => -k
    | none => -BinaryFormat.decimalLimit

/-- Whether `num / den` of the common denominator lies in the interval. -/
def holds (i : RoundingInterval) (num den : Nat) : Bool :=
  if i.closed then i.low * den ≤ num && num ≤ i.high * den
  else i.low * den < num && num < i.high * den

/-- The grid point nearest to the value with last place `10 ^ place`, if it reads back. -/
def nearest? (i : RoundingInterval) (place : Int) : Option Decimal :=
  let scale := 10 ^ (-place).toNat
  let cell := i.den * 10 ^ place.toNat
  let floor := i.mid * scale / cell
  let rest := i.mid * scale - floor * cell
  let candidates := if cell ≤ 2 * rest then [floor + 1, floor] else [floor, floor + 1]
  (candidates.find? fun c => i.holds (c * cell) scale).map fun c => ⟨c, place⟩

/-- The shortest decimal, looked for with up to `limit` digits. -/
def shortest? (i : RoundingInterval) (limit : Nat) : Option Decimal :=
  let order := i.order
  (List.range limit).findSome? fun n => i.nearest? (order - (n : Nat))

end RoundingInterval

/-- **`shortest`** -- the shortest decimal that reads back to a finite positive magnitude
word; 17 digits are enough for both formats. -/
def BinaryFormat.shortest (fmt : BinaryFormat) (word : Nat) : Decimal :=
  ((RoundingInterval.ofWord fmt word).shortest? 17).getD ⟨0, 0⟩

/-! ## Written form -/

/-- The digits of a decimal without zeros at the end, and the exponent of the first. -/
def Decimal.scientific (d : Decimal) : List Char × Int :=
  let all := Nat.toDigits 10 d.digits
  ((all.reverse.dropWhile (· == '0')).reverse, d.exponent + all.length - 1)

/-- How a number is written. -/
structure NumberStyle where
  /-- The least exponent of the first digit for which no exponent is written. -/
  positionalFrom : Int
  /-- The first exponent of the first digit for which one is written again. -/
  positionalBelow : Int

/-- Digits with a point before the end, one digit at least on each side of it. -/
def positionalText (digits : List Char) (order : Int) : List Char :=
  if order < 0 then
    '0' :: '.' :: (List.replicate (-order - 1).toNat '0' ++ digits)
  else
    let places := order.toNat + 1
    let whole := digits.take places ++ List.replicate (places - digits.length) '0'
    let fraction := digits.drop places
    whole ++ '.' :: (if fraction.isEmpty then ['0'] else fraction)

/-- Digits with a point after the first, if there are more, and the exponent. -/
def exponentText (digits : List Char) (order : Int) : List Char :=
  let fraction := digits.drop 1
  let point := if fraction.isEmpty then [] else '.' :: fraction
  digits.take 1 ++ point ++ 'e' :: (toString order).toList

/-- **`numberText`** -- a word of the format in decimal: the fewest digits that read back,
with an exponent only where the style asks for one. -/
def numberText (style : NumberStyle) (fmt : BinaryFormat) (word : Nat) : List Char :=
  let magnitude := word % fmt.signWeight
  let sign := if fmt.signWeight ≤ word then ['-'] else []
  if fmt.infinity < magnitude then "NaN".toList
  else if magnitude = fmt.infinity then sign ++ "inf".toList
  else if magnitude = 0 then sign ++ "0.0".toList
  else
    let (digits, order) := (fmt.shortest magnitude).scientific
    if style.positionalFrom ≤ order ∧ order < style.positionalBelow then
      sign ++ positionalText digits order
    else sign ++ exponentText digits order

/-- Literals are written positionally from `10 ^ -4` up to below `10 ^ 16`. -/
def literalStyle : NumberStyle := ⟨-4, 16⟩

end TensorGraph
