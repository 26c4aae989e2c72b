/-
# TensorGraph.Proofs.Rounding -- the shortest decimal rounds back to its word

The reals that round to a finite word of a binary format form an interval. Rounding a quotient
that lies in the interval gives the word (`BinaryFormat.ofRatio_eq`); the only case in which the
quotient and the word differ in their exponents is just below a power of two, where the carry out
of the fraction makes up for it. Seventeen digits always suffice to hit the interval, so the
shortest decimal exists, lies in it, and rounds back (`BinaryFormat.ofDecimal_eq`).
-/
import TensorGraph.Number.Shortest

namespace TensorGraph

open scoped CoreInstances

namespace BinaryFormat

variable {fmt : BinaryFormat} {word num den : Nat}

/-! ## Significands -/

/-- **`Splits`** -- a magnitude word as a significand and a shift. The word is read off them: the
hidden bit of a normal significand is the carry into the exponent. -/
structure Splits (fmt : BinaryFormat) (word m shift : Nat) : Prop where
  /-- The word. -/
  word_eq : word = shift * 2 ^ fmt.fractionBits + m
  /-- The significand has one bit more than the fraction. -/
  lt : m < 2 ^ (fmt.fractionBits + 1)
  /-- A shifted significand is normal. -/
  normal : 0 < shift → 2 ^ fmt.fractionBits ≤ m

theorem splits_significand (fmt : BinaryFormat) (word : Nat) :
    fmt.Splits word (fmt.significand word).1 (fmt.significand word).2 := by
  have hpos : 0 < 2 ^ fmt.fractionBits := Nat.two_pow_pos _
  have hmod := Nat.mod_lt word hpos
  have hdiv := Nat.div_add_mod word (2 ^ fmt.fractionBits)
  rw [significand]
  by_cases he : word / 2 ^ fmt.fractionBits = 0
  · rw [if_pos he]
    rw [he] at hdiv
    refine ⟨by simp only; omega, ?_, fun h => absurd h (Nat.lt_irrefl 0)⟩
    rw [Nat.pow_succ]
    simp only
    omega
  · rw [if_neg he]
    obtain ⟨e, hexp⟩ := Nat.exists_eq_succ_of_ne_zero he
    refine ⟨?_, ?_, fun _ => Nat.le_add_right _ _⟩
    · rw [hexp, Nat.succ_eq_add_one, Nat.mul_add] at hdiv
      simp only [hexp, Nat.succ_eq_add_one, Nat.add_sub_cancel]
      rw [Nat.mul_comm e]
      omega
    · rw [Nat.pow_succ]
      simp only
      omega

theorem Splits.pos {m shift : Nat} (h : fmt.Splits word m shift) (hword : 0 < word) : 0 < m := by
  have hpos : 0 < 2 ^ fmt.fractionBits := Nat.two_pow_pos _
  rcases Nat.eq_zero_or_pos shift with hs | hs
  · have heq := h.word_eq
    rw [hs, Nat.zero_mul] at heq
    omega
  · exact Nat.lt_of_lt_of_le hpos (h.normal hs)

/-! ## Rounding -/

/-- **Rounding half to even** gives the number within one half of the quotient, an even one also
at a distance of one half. -/
theorem roundHalfEven_eq {m : Nat} (hden : 0 < den) (hlow : 2 * (m * den) ≤ 2 * num + den)
    (hhigh : 2 * num ≤ 2 * (m * den) + den)
    (hodd : m % 2 = 1 → 2 * (m * den) < 2 * num + den ∧ 2 * num < 2 * (m * den) + den) :
    roundHalfEven num den = m := by
  have hnum := Nat.div_add_mod num den
  have hrest := Nat.mod_lt num hden
  rw [roundHalfEven]
  generalize num / den = q at *
  generalize num % den = r at *
  rw [Nat.mul_comm] at hnum
  -- the quotient is the number or next to it
  have hbelow : m ≤ q + 1 := by
    refine Nat.le_of_not_lt fun hlt => ?_
    have := Nat.mul_le_mul_right den (show q + 2 ≤ m from hlt)
    rw [Nat.add_mul] at this
    omega
  have habove : q ≤ m := by
    refine Nat.le_of_not_lt fun hlt => ?_
    have := Nat.mul_le_mul_right den (show m + 1 ≤ q from hlt)
    rw [Nat.add_mul] at this
    omega
  rcases (show m = q ∨ m = q + 1 by omega) with rfl | rfl
  · split
    · rfl
    · split <;> omega
  · rw [Nat.add_mul] at hlow hhigh hodd
    split
    · omega
    · split <;> omega

/-- The shift that keeps one bit more than the fraction holds. -/
theorem log2_sub_eq {q bits shift : Nat} (hlow : 0 < shift → 2 ^ (bits + shift) ≤ q)
    (hhigh : q < 2 ^ (bits + shift + 1)) : q.log2 - bits = shift := by
  rcases Nat.eq_zero_or_pos q with rfl | hq
  · rcases Nat.eq_zero_or_pos shift with rfl | hs
    · exact Nat.zero_sub bits
    · have := hlow hs
      have := Nat.two_pow_pos (bits + shift)
      omega
  · have hq : q ≠ 0 := by omega
    have hlt := (Nat.log2_lt hq).mpr hhigh
    rcases Nat.eq_zero_or_pos shift with rfl | hs
    · omega
    · have := (Nat.le_log2 hq).mpr (hlow hs)
      omega

end BinaryFormat

/-! ## Rounding intervals -/

namespace RoundingInterval

/-- `num / den` lies in the interval. -/
def Contains (i : RoundingInterval) (num den : Nat) : Prop := i.holds (num * i.den) den = true

theorem contains_iff {i : RoundingInterval} {num den : Nat} :
    i.Contains num den ↔ i.low * den ≤ num * i.den ∧ num * i.den ≤ i.high * den ∧
      (i.closed = false → i.low * den < num * i.den ∧ num * i.den < i.high * den) := by
  rw [Contains, holds]
  cases i.closed
  · simp only [Bool.false_eq_true, if_false, Bool.and_eq_true, decide_eq_true_eq, forall_const]
    omega
  · simp

/-- Whether a quotient lies in the interval does not depend on how it is written. -/
theorem Contains.of_eq {i : RoundingInterval} {num den num' den' : Nat} (h : i.Contains num den)
    (hden : 0 < den) (heq : num * den' = num' * den) (hden' : 0 < den') : i.Contains num' den' := by
  rw [contains_iff] at h ⊢
  -- both sides of each comparison are scaled by the other denominator
  have hlow : i.low * den' * den = i.low * den * den' := by ac_rfl
  have hhigh : i.high * den' * den = i.high * den * den' := by ac_rfl
  have hmid : num' * i.den * den = num * i.den * den' := by
    rw [Nat.mul_right_comm, ← heq]
    ac_rfl
  refine ⟨?_, ?_, fun hc => ⟨?_, ?_⟩⟩
  · refine Nat.le_of_mul_le_mul_right ?_ hden
    rw [hlow, hmid]
    exact Nat.mul_le_mul_right den' h.1
  · refine Nat.le_of_mul_le_mul_right ?_ hden
    rw [hhigh, hmid]
    exact Nat.mul_le_mul_right den' h.2.1
  · refine Nat.lt_of_mul_lt_mul_right (a := den) ?_
    rw [hlow, hmid]
    exact Nat.mul_lt_mul_of_pos_right (h.2.2 hc).1 hden'
  · refine Nat.lt_of_mul_lt_mul_right (a := den) ?_
    rw [hhigh, hmid]
    exact Nat.mul_lt_mul_of_pos_right (h.2.2 hc).2 hden'

end RoundingInterval

namespace BinaryFormat

variable {fmt : BinaryFormat} {word num den : Nat}

/-- **`Near`** -- a number of units `scaled / den` that rounds to the significand `m` at a shift:
it is at a distance of at most one half of the last place, less if the significand is odd. -/
structure Near (m shift scaled den : Nat) : Prop where
  /-- It is not further below. -/
  low : 2 * (m * (den * 2 ^ shift)) ≤ 2 * scaled + den * 2 ^ shift
  /-- It is not further above. -/
  high : 2 * scaled ≤ 2 * (m * (den * 2 ^ shift)) + den * 2 ^ shift
  /-- A tie goes to the even one. -/
  odd : m % 2 = 1 → 2 * (m * (den * 2 ^ shift)) < 2 * scaled + den * 2 ^ shift ∧
    2 * scaled < 2 * (m * (den * 2 ^ shift)) + den * 2 ^ shift

/-- A quotient that has the shift of a word and is near its significand rounds to it. -/
theorem ofRatio_of_near {m shift scaled : Nat} (hscaled : num * fmt.unitsPerOne = scaled)
    (hfinite : word < fmt.infinity) (hword : word = shift * 2 ^ fmt.fractionBits + m)
    (hden : 0 < den) (hnear : Near m shift scaled den)
    (hlow : 0 < shift → 2 ^ fmt.fractionBits * (den * 2 ^ shift) ≤ scaled)
    (hhigh : scaled < 2 ^ (fmt.fractionBits + 1) * (den * 2 ^ shift)) :
    fmt.ofRatio num den = word := by
  have hbits : ∀ k, 2 ^ (k + shift) * den = 2 ^ k * (den * 2 ^ shift) := fun k => by
    rw [Nat.pow_add]
    ac_rfl
  have hshift : (scaled / den).log2 - fmt.fractionBits = shift := by
    refine log2_sub_eq (fun hs => ?_) ?_
    · rw [Nat.le_div_iff_mul_le hden, hbits]
      exact hlow hs
    · rw [Nat.div_lt_iff_lt_mul hden, Nat.add_right_comm, hbits]
      exact hhigh
  have hround : roundHalfEven scaled (den * 2 ^ shift) = m :=
    roundHalfEven_eq (Nat.mul_pos hden (Nat.two_pow_pos shift)) hnear.low hnear.high hnear.odd
  rw [ofRatio, hscaled]
  simp only [hshift, hround]
  rw [← hword]
  exact Nat.min_eq_left (Nat.le_of_lt hfinite)

/-- Just below a power of two the places are half as wide, and the carry out of the fraction
leads to the word of that power. -/
theorem ofRatio_below_binade {half scaled : Nat} (hscaled : num * fmt.unitsPerOne = scaled)
    (hfinite : word < fmt.infinity)
    (hword : word = (half + 1) * 2 ^ fmt.fractionBits + 2 ^ fmt.fractionBits) (hden : 0 < den)
    (hlow : 4 * (2 ^ fmt.fractionBits * (den * 2 ^ half)) ≤ 2 * scaled + den * 2 ^ half)
    (hhigh : scaled < 2 * (2 ^ fmt.fractionBits * (den * 2 ^ half))) :
    fmt.ofRatio num den = word := by
  have hcarry : 2 ^ (fmt.fractionBits + 1) * (den * 2 ^ half) =
      2 * (2 ^ fmt.fractionBits * (den * 2 ^ half)) := by
    rw [Nat.pow_succ]
    ac_rfl
  have hcarried : word = half * 2 ^ fmt.fractionBits + 2 ^ (fmt.fractionBits + 1) := by
    rw [hword, Nat.add_mul, Nat.pow_succ]
    omega
  have heven : 2 ^ (fmt.fractionBits + 1) % 2 = 0 := by
    rw [Nat.pow_succ]
    exact Nat.mul_mod_left _ 2
  have hone := Nat.mul_le_mul_right (den * 2 ^ half) (Nat.two_pow_pos fmt.fractionBits)
  refine ofRatio_of_near hscaled hfinite hcarried hden ⟨?_, ?_, ?_⟩ (fun _ => ?_) ?_ <;> omega

/-- **A quotient in the interval of a word** rounds to the word. -/
theorem ofRatio_eq (hpos : 0 < word) (hfinite : word < fmt.infinity) (hden : 0 < den)
    (h : (RoundingInterval.ofWord fmt word).Contains num den) : fmt.ofRatio num den = word := by
  have hsplits := splits_significand fmt word
  rw [RoundingInterval.contains_iff, RoundingInterval.ofWord] at h
  generalize fmt.significand word = sig at hsplits h
  obtain ⟨m, shift⟩ := sig
  have hm : 0 < m := hsplits.pos hpos
  simp only at hsplits h
  obtain ⟨hlow, hhigh, hopen⟩ := h
  have hword := hsplits.word_eq
  have hlt := hsplits.lt
  -- everything is counted in places of the significand
  have hplaces : ∀ k, k * 2 ^ shift * den = k * (den * 2 ^ shift) := fun k => by ac_rfl
  have hquarter : num * (4 * fmt.unitsPerOne) = 4 * (num * fmt.unitsPerOne) := by ac_rfl
  rw [hplaces, hquarter] at hlow hhigh hopen
  rw [hplaces] at hopen
  generalize hscaled : num * fmt.unitsPerOne = scaled at *
  rw [Nat.add_mul, Nat.mul_assoc] at hhigh hopen
  by_cases hbelow : 0 < shift ∧ scaled < 2 ^ fmt.fractionBits * (den * 2 ^ shift)
  · obtain ⟨hs, hbelow⟩ := hbelow
    have hmin : m = 2 ^ fmt.fractionBits := by
      refine Nat.le_antisymm (Nat.le_of_not_lt fun hgt => ?_) (hsplits.normal hs)
      rw [if_neg fun hc => absurd hc.1 (Nat.ne_of_gt hgt)] at hlow
      have := Nat.mul_le_mul_right (den * 2 ^ shift)
        (show 4 * 2 ^ fmt.fractionBits + 2 ≤ 4 * m - 2 by omega)
      rw [Nat.add_mul, Nat.mul_assoc] at this
      omega
    rw [if_pos ⟨hmin, hs⟩, hmin, Nat.sub_mul, Nat.mul_assoc] at hlow
    obtain ⟨half, rfl⟩ := Nat.exists_eq_succ_of_ne_zero (Nat.ne_of_gt hs)
    have hdouble : ∀ k, k * (den * 2 ^ (half + 1)) = 2 * (k * (den * 2 ^ half)) := fun k => by
      rw [Nat.pow_succ]
      ac_rfl
    rw [Nat.succ_eq_add_one, hdouble] at hlow hbelow
    rw [hdouble] at hlow
    exact ofRatio_below_binade hscaled hfinite (hmin ▸ hword) hden (by omega) hbelow
  · have hle : 0 < shift → 2 ^ fmt.fractionBits * (den * 2 ^ shift) ≤ scaled := fun hs =>
      Nat.le_of_not_lt fun hgt => hbelow ⟨hs, hgt⟩
    have hwide : ∀ b ≤ 2, 4 * (m * (den * 2 ^ shift)) ≤
        (4 * m - b) * (den * 2 ^ shift) + 2 * (den * 2 ^ shift) := by
      intro b hb
      rw [← Nat.mul_assoc, ← Nat.add_mul]
      exact Nat.mul_le_mul_right _ (by omega)
    have hfour := hwide (if m = 2 ^ fmt.fractionBits ∧ 0 < shift then 1 else 2) (by
      split <;> omega)
    have hnext := Nat.mul_le_mul_right (den * 2 ^ shift) (show m + 1 ≤ 2 ^ _ from hlt)
    have hplace : 0 < den * 2 ^ shift := Nat.mul_pos hden (Nat.two_pow_pos shift)
    rw [Nat.add_mul] at hnext
    refine ofRatio_of_near hscaled hfinite hword hden ⟨?_, ?_, fun hodd => ?_⟩ hle ?_
    · omega
    · omega
    · have := hopen (by simp [hodd])
      omega
    · omega

end BinaryFormat

/-! ## Decimals -/

namespace Decimal

/-- The numerator of a decimal. -/
def num (d : Decimal) : Nat := d.digits * 10 ^ d.exponent.toNat

/-- The denominator of a decimal. -/
def den (d : Decimal) : Nat := 10 ^ (-d.exponent).toNat

theorem den_pos (d : Decimal) : 0 < d.den := Nat.pow_pos (by decide)

/-- Two decimals of one value. -/
def SameValue (d e : Decimal) : Prop := d.num * e.den = e.num * d.den

theorem SameValue.symm {d e : Decimal} (h : d.SameValue e) : e.SameValue d := Eq.symm h

/-- A decimal may be written with zeros at its end. -/
theorem sameValue_scale (digits k : Nat) (exponent : Int) :
    SameValue ⟨digits, exponent⟩ ⟨digits * 10 ^ k, exponent - k⟩ := by
  simp only [SameValue, num, den]
  rw [Nat.mul_assoc, Nat.mul_assoc, Nat.mul_assoc, ← Nat.pow_add, ← Nat.pow_add, ← Nat.pow_add]
  congr 2
  omega

end Decimal

namespace RoundingInterval

variable {i : RoundingInterval} {place : Int} {d : Decimal} {limit : Nat}

/-- The nearest grid point, if it is given, lies in the interval. -/
theorem contains_of_nearest? (h : i.nearest? place = some d) : i.Contains d.num d.den := by
  obtain ⟨c, hc, rfl⟩ := Option.map_eq_some_iff.mp h
  have hholds := List.find?_some hc
  rw [Contains, Decimal.num, Decimal.den, Nat.mul_assoc, Nat.mul_comm (10 ^ _)]
  exact hholds

theorem contains_of_shortest? (h : i.shortest? limit = some d) : i.Contains d.num d.den := by
  obtain ⟨n, _, hn⟩ := List.exists_of_findSome?_eq_some h
  exact contains_of_nearest? hn

/-- The power of ten of the leading digit does not exceed the value. -/
theorem order_le (hden : 0 < i.den) (h : i.den ≤ i.mid * 10 ^ BinaryFormat.decimalLimit) :
    i.den * 10 ^ i.order.toNat ≤ i.mid * 10 ^ (-i.order).toNat := by
  rw [order]
  by_cases hle : i.den ≤ i.mid
  · rw [if_pos hle]
    have hlen := @Nat.length_toDigits_pos 10 (i.mid / i.den)
    have hpow : 10 ^ ((Nat.toDigits 10 (i.mid / i.den)).length - 1) ≤ i.mid / i.den := by
      rcases Nat.eq_zero_or_pos ((Nat.toDigits 10 (i.mid / i.den)).length - 1) with hz | hpos
      · rw [hz, Nat.le_div_iff_mul_le hden]
        omega
      · refine Nat.le_of_not_lt fun hlt => ?_
        have := (Nat.length_toDigits_le_iff (by decide) hpos).mpr hlt
        omega
    generalize (Nat.toDigits 10 (i.mid / i.den)).length = len at *
    rw [show ((len : Int) - 1).toNat = len - 1 by omega,
      show (-((len : Int) - 1)).toNat = 0 by omega, Nat.pow_zero, Nat.mul_one, Nat.mul_comm]
    exact (Nat.le_div_iff_mul_le hden).mp hpow
  · rw [if_neg hle]
    split
    · next k hk =>
      have hk := List.find?_some hk
      simp only [decide_eq_true_eq] at hk
      rw [show (-(k : Int)).toNat = 0 by omega, show (-(-(k : Int))).toNat = k by omega]
      simpa using hk
    · rw [show (-(BinaryFormat.decimalLimit : Int)).toNat = 0 by omega,
        show (-(-(BinaryFormat.decimalLimit : Int))).toNat = BinaryFormat.decimalLimit by omega]
      simpa using h

theorem holds_of_lt {num den : Nat} (hlow : i.low * den < num) (hhigh : num < i.high * den) :
    i.holds num den = true := by
  rw [holds]
  split <;> simp only [Bool.and_eq_true, decide_eq_true_eq] <;> omega

/-- **A grid that is finer** than the distance to the lower end hits the interval. -/
theorem exists_nearest? (hden : 0 < i.den) (hlow : i.low ≤ i.mid) (hhigh : i.mid < i.high)
    (hgrid : i.den * 10 ^ place.toNat < (i.mid - i.low) * 10 ^ (-place).toNat) :
    ∃ d, i.nearest? place = some d := by
  rw [nearest?]
  have hscale : 0 < 10 ^ (-place).toNat := Nat.pow_pos (by decide)
  have hcell : 0 < i.den * 10 ^ place.toNat := Nat.mul_pos hden (Nat.pow_pos (by decide))
  generalize 10 ^ (-place).toNat = scale at *
  generalize i.den * 10 ^ place.toNat = cell at *
  have hfloor : i.holds (i.mid * scale / cell * cell) scale = true := by
    have hle := Nat.div_mul_le_self (i.mid * scale) cell
    have hlt : i.mid * scale < i.mid * scale / cell * cell + cell := Nat.lt_div_mul_add hcell
    have hmid := Nat.mul_lt_mul_of_pos_right hhigh hscale
    have hmul := Nat.mul_le_mul_right scale hlow
    rw [Nat.sub_mul] at hgrid
    exact holds_of_lt (by omega) (by omega)
  refine Option.isSome_iff_exists.mp ?_
  simp only [Option.isSome_map, List.find?_isSome]
  refine ⟨i.mid * scale / cell, ?_, hfloor⟩
  split <;> simp

/-- The grid of the `k`-th place behind the leading digit is finer than a width that is at least
the value in parts of `10 ^ k`. -/
theorem grid_lt {den mid width k : Nat} {order : Int}
    (horder : den * 10 ^ order.toNat ≤ mid * 10 ^ (-order).toNat) (hwide : mid < width * 10 ^ k) :
    den * 10 ^ (order - k).toNat < width * 10 ^ (-(order - k)).toNat := by
  have hexponents : (order - k).toNat + ((-order).toNat + k) =
      order.toNat + (-(order - k)).toNat := by omega
  generalize (order - k).toNat = a, (-(order - k)).toNat = b at *
  generalize order.toNat = c, (-order).toNat = e at *
  -- both sides are scaled to the places of the value
  refine Nat.lt_of_mul_lt_mul_right (a := 10 ^ (e + k)) ?_
  calc den * 10 ^ a * 10 ^ (e + k) = den * 10 ^ c * 10 ^ b := by
        rw [Nat.mul_assoc, ← Nat.pow_add, hexponents, Nat.pow_add, Nat.mul_assoc]
    _ ≤ mid * 10 ^ e * 10 ^ b := Nat.mul_le_mul_right _ horder
    _ < width * 10 ^ k * 10 ^ e * 10 ^ b := by
        have hpos : 0 < 10 ^ e * 10 ^ b := Nat.mul_pos (Nat.pow_pos (by decide))
          (Nat.pow_pos (by decide))
        rw [Nat.mul_assoc, Nat.mul_assoc (width * 10 ^ k)]
        exact Nat.mul_lt_mul_of_pos_right hwide hpos
    _ = width * 10 ^ b * 10 ^ (e + k) := by
        rw [Nat.pow_add]
        ac_rfl

/-- Seventeen digits hit an interval whose lower half is at least the value in parts of
`10 ^ (16 : Nat)`. -/
theorem exists_shortest? (hden : 0 < i.den) (hlow : i.low ≤ i.mid) (hhigh : i.mid < i.high)
    (hsmall : i.den ≤ i.mid * 10 ^ BinaryFormat.decimalLimit)
    (hwide : i.mid < (i.mid - i.low) * 10 ^ (16 : Nat)) : ∃ d, i.shortest? 17 = some d := by
  obtain ⟨d, hd⟩ := exists_nearest? hden hlow hhigh (grid_lt (order_le hden hsmall) hwide)
  refine Option.isSome_iff_exists.mp (List.findSome?_isSome_iff.mpr ⟨16, ?_, ?_⟩)
  · exact List.mem_range.mpr (by decide)
  · rw [hd]
    rfl

end RoundingInterval

/-! ## The 32-bit format -/

namespace BinaryFormat

variable {word : Nat} {d : Decimal}

/-- The significand and the shift of a finite word of 32 bits. -/
theorem Splits.bounds_single {m shift : Nat} (h : single.Splits word m shift)
    (hfinite : word < single.infinity) : m < 2 ^ (24 : Nat) ∧ shift ≤ 253 := by
  obtain ⟨hword, hlt, hnormal⟩ := h
  have hinf : single.infinity = 255 * 2 ^ (23 : Nat) := by decide
  have hfraction : 2 ^ single.fractionBits = 2 ^ (23 : Nat) := rfl
  have hbits : 2 ^ (single.fractionBits + 1) = 2 ^ (24 : Nat) := rfl
  rw [hfraction] at hword hnormal
  rw [hbits] at hlt
  omega

/-- The interval of a finite word of 32 bits lies far inside the decimal limits, and is not
narrow. -/
theorem interval_single (hpos : 0 < word) (hfinite : word < single.infinity) :
    ∃ low mid high closed, RoundingInterval.ofWord single word =
        ⟨low, mid, high, 2 ^ (151 : Nat), closed⟩ ∧ 0 < low ∧ low < mid ∧ mid < high ∧
      high ≤ 2 ^ (128 : Nat) * 2 ^ (151 : Nat) ∧ mid ≤ (mid - low) * 2 ^ (26 : Nat) := by
  have hsplits := splits_significand single word
  have hden : 4 * single.unitsPerOne = 2 ^ (151 : Nat) := by decide
  rw [RoundingInterval.ofWord, hden]
  generalize single.significand word = sig at hsplits
  obtain ⟨m, shift⟩ := sig
  have hm : 0 < m := hsplits.pos hpos
  obtain ⟨hlt, hshift⟩ := hsplits.bounds_single hfinite
  generalize hb : (if m = 2 ^ single.fractionBits ∧ 0 < shift then 1 else 2) = below
  have hbelow : 1 ≤ below ∧ below ≤ 2 := by
    rw [← hb]
    split <;> omega
  have hstep : 0 < 2 ^ shift := Nat.two_pow_pos shift
  refine ⟨_, _, _, _, rfl, ?_, ?_, ?_, ?_, ?_⟩
  · exact Nat.mul_pos (by omega) hstep
  · exact Nat.mul_lt_mul_of_pos_right (by omega) hstep
  · exact Nat.mul_lt_mul_of_pos_right (by omega) hstep
  · calc (4 * m + 2) * 2 ^ shift ≤ 2 ^ (26 : Nat) * 2 ^ (102 + 151) :=
          Nat.mul_le_mul (by omega) (Nat.pow_le_pow_right (by decide) hshift)
      _ = 2 ^ (128 : Nat) * 2 ^ (151 : Nat) := by rw [Nat.pow_add, ← Nat.mul_assoc, ← Nat.pow_add]
  · rw [← Nat.sub_mul, hb, Nat.mul_right_comm (4 * m - _)]
    exact Nat.mul_le_mul_right _ (by omega)

theorem two_pow_le_limit {k : Nat} (h : k ≤ decimalLimit) : 2 ^ k ≤ 10 ^ decimalLimit :=
  Nat.le_trans (Nat.pow_le_pow_left (by decide) k) (Nat.pow_le_pow_right (by decide) h)

/-- **The shortest decimal** of a finite word lies in its interval. -/
theorem contains_shortest (hpos : 0 < word) (hfinite : word < single.infinity) :
    (RoundingInterval.ofWord single word).Contains (single.shortest word).num
      (single.shortest word).den := by
  obtain ⟨low, mid, high, closed, hi, hlow, hmid, hhigh, _, hwide⟩ :=
    interval_single hpos hfinite
  have hlimit : 2 ^ (151 : Nat) ≤ 10 ^ decimalLimit := two_pow_le_limit (by decide)
  obtain ⟨d, hd⟩ : ∃ d, (RoundingInterval.ofWord single word).shortest? 17 = some d := by
    rw [hi]
    refine RoundingInterval.exists_shortest? (Nat.two_pow_pos 151) (Nat.le_of_lt hmid) hhigh ?_ ?_
    · exact Nat.le_trans hlimit (Nat.le_mul_of_pos_left _ (Nat.lt_trans hlow hmid))
    · exact Nat.lt_of_le_of_lt hwide (Nat.mul_lt_mul_of_pos_left (by decide) (by omega))
  rw [shortest, hd]
  exact RoundingInterval.contains_of_shortest? hd

/-- Inside the decimal limits a decimal is rounded as the quotient that it is. -/
theorem ofDecimal_eq_ofRatio (hdigits : d.digits ≠ 0)
    (hlow : d.den ≤ d.num * 10 ^ decimalLimit) (hhigh : d.num < d.den * 10 ^ decimalLimit) :
    single.ofDecimal d.digits d.exponent = single.ofRatio d.num d.den := by
  obtain ⟨digits, exponent⟩ := d
  have hlen := @Nat.length_toDigits_pos 10 digits
  have hbelow : digits < 10 ^ (Nat.toDigits 10 digits).length :=
    (Nat.length_toDigits_le_iff (by decide) hlen).mp (Nat.le_refl _)
  have habove : 10 ^ ((Nat.toDigits 10 digits).length - 1) ≤ digits := by
    rcases Nat.eq_zero_or_pos ((Nat.toDigits 10 digits).length - 1) with hz | hpos
    · rw [hz]
      exact Nat.pos_of_ne_zero hdigits
    · refine Nat.le_of_not_lt fun hlt => ?_
      have := (Nat.length_toDigits_le_iff (by decide) hpos).mpr hlt
      omega
  rw [ofDecimal]
  simp only [Decimal.num, Decimal.den] at *
  generalize (Nat.toDigits 10 digits).length = len at *
  -- the order is within the limits
  have hnotLow : ¬(len + exponent < -(decimalLimit : Int)) := by
    intro hlt
    rw [show exponent.toNat = 0 by omega, Nat.pow_zero, Nat.mul_one] at hlow
    have hprod : digits * 10 ^ decimalLimit < 10 ^ (len + decimalLimit) := by
      rw [Nat.pow_add]
      exact Nat.mul_lt_mul_of_pos_right hbelow (Nat.pow_pos (by decide))
    have hpow := (Nat.pow_lt_pow_iff_right (by decide)).mp (Nat.lt_of_le_of_lt hlow hprod)
    omega
  have hnotHigh : ¬((decimalLimit : Int) < len + exponent) := by
    intro hlt
    have hprod := Nat.lt_of_le_of_lt (Nat.mul_le_mul_right (10 ^ exponent.toNat) habove) hhigh
    rw [← Nat.pow_add, ← Nat.pow_add] at hprod
    have hpow := (Nat.pow_lt_pow_iff_right (by decide)).mp hprod
    omega
  rw [if_neg (by simp [hdigits, hnotLow]), if_neg hnotHigh]
  split
  · next hexp =>
    rw [show (-exponent).toNat = 0 by omega, Nat.pow_zero]
  · next hexp =>
    rw [show exponent.toNat = 0 by omega, Nat.pow_zero, Nat.mul_one]

/-- A decimal in the interval of a word is no smaller than a unit. -/
theorem den_le_num (hpos : 0 < word) (hfinite : word < single.infinity)
    (h : (RoundingInterval.ofWord single word).Contains d.num d.den) :
    d.den ≤ d.num * 2 ^ (151 : Nat) := by
  obtain ⟨low, mid, high, closed, hi, hlow, _⟩ := interval_single hpos hfinite
  rw [hi, RoundingInterval.contains_iff] at h
  exact Nat.le_trans (Nat.le_mul_of_pos_left _ hlow) h.1

theorem digits_ne_zero (hpos : 0 < word) (hfinite : word < single.infinity)
    (h : (RoundingInterval.ofWord single word).Contains d.num d.den) : d.digits ≠ 0 := by
  intro hz
  have hle := den_le_num hpos hfinite h
  rw [Decimal.num, hz, Nat.zero_mul, Nat.zero_mul] at hle
  exact absurd d.den_pos (Nat.not_lt.mpr hle)

/-- **A decimal in the interval of a word** rounds to the word. -/
theorem ofDecimal_eq (hpos : 0 < word) (hfinite : word < single.infinity)
    (h : (RoundingInterval.ofWord single word).Contains d.num d.den) :
    single.ofDecimal d.digits d.exponent = word := by
  rw [← ofRatio_eq hpos hfinite d.den_pos h]
  refine ofDecimal_eq_ofRatio (digits_ne_zero hpos hfinite h) ?_ ?_
  · exact Nat.le_trans (den_le_num hpos hfinite h)
      (Nat.mul_le_mul_left _ (two_pow_le_limit (by decide)))
  · obtain ⟨low, mid, high, closed, hi, _, _, _, htop, _⟩ := interval_single hpos hfinite
    rw [hi, RoundingInterval.contains_iff] at h
    have hle : d.num * 2 ^ (151 : Nat) ≤ d.den * 2 ^ (128 : Nat) * 2 ^ (151 : Nat) := by
      refine Nat.le_trans h.2.1 (Nat.le_trans (Nat.mul_le_mul_right _ htop) (Nat.le_of_eq ?_))
      ac_rfl
    have hlimit : 2 ^ (128 : Nat) < 10 ^ decimalLimit :=
      Nat.lt_of_lt_of_le (Nat.pow_lt_pow_right (by decide) (Nat.lt_succ_self 128))
        (two_pow_le_limit (by decide))
    exact Nat.lt_of_le_of_lt (Nat.le_of_mul_le_mul_right hle (Nat.two_pow_pos 151))
      (Nat.mul_lt_mul_of_pos_left hlimit d.den_pos)

end BinaryFormat

end TensorGraph
