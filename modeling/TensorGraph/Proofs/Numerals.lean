/-
# TensorGraph.Proofs.Numerals -- numbers are read back

An index is written with its decimal digits and read back from them. A number of 32 bits is
written with the shortest decimal that rounds to it, positionally or with an exponent; either way
the digits and the exponent that are read make up the same quotient, so the word comes back
(`readNumber?_numberText`).
-/
import TensorGraph.Proofs.Rounding
import TensorGraph.Proofs.Scanning
import TensorGraph.Text.Number

namespace TensorGraph

open scoped CoreInstances

/-! ## Digits -/

/-- Decimal digits. -/
def AllDigits (s : List Char) : Prop := ∀ c ∈ s, c.isDigit = true

theorem allDigits_toDigits (n : Nat) : AllDigits (Nat.toDigits 10 n) := fun _ hc =>
  Nat.isDigit_of_mem_toDigits (by decide) (by decide) hc

theorem allDigits_append {s t : List Char} :
    AllDigits (s ++ t) ↔ AllDigits s ∧ AllDigits t := List.forall_mem_append

theorem allDigits_zeros (n : Nat) : AllDigits (List.replicate n '0') := by
  intro c hc
  rw [List.eq_of_mem_replicate hc]
  rfl

theorem digitsValue_eq (n : Nat) (s : List Char) : digitsValue n s = Nat.ofDigitChars 10 s n := rfl

theorem digitsValue_append (n : Nat) (s t : List Char) :
    digitsValue n (s ++ t) = digitsValue (digitsValue n s) t := List.foldl_append

theorem digitsValue_zeros (n k : Nat) : digitsValue n (List.replicate k '0') = n * 10 ^ k := by
  rw [digitsValue_eq, Nat.ofDigitChars_replicate_zero, Nat.mul_comm]

theorem digitsValue_toDigits (n : Nat) : digitsValue 0 (Nat.toDigits 10 n) = n :=
  Nat.ofDigitChars_ten_toDigits

/-- **An index** is read back. -/
theorem readIndex?_toDigits {n : Nat} (h : n < indexBound) :
    readIndex? (Nat.toDigits 10 n) = some n := by
  have hdigits := allDigits_toDigits n
  have hplus : withoutPlus (Nat.toDigits 10 n) = Nat.toDigits 10 n := by
    cases hs : Nat.toDigits 10 n with
    | nil => rfl
    | cons c cs =>
      rw [hs] at hdigits
      have hc := hdigits c List.mem_cons_self
      rw [withoutPlus]
      intro rest he
      rw [(List.cons.inj he).1] at hc
      simp at hc
  have hall : (Nat.toDigits 10 n).all Char.isDigit = true := List.all_eq_true.mpr hdigits
  simp [readIndex?, hplus, hall, digitsValue_toDigits, h, Nat.toDigits_ne_nil]

/-! ## Magnitudes -/

section Magnitude

variable {fmt : BinaryFormat} {whole fraction tail : List Char} {exponent : Int}

theorem leadingDigits_append {s rest : List Char} (hs : AllDigits s)
    (hrest : ∀ c, rest.head? = some c → c.isDigit = false) :
    leadingDigits (s ++ rest) = (s, rest) := by
  rw [leadingDigits, takeWhile_append_of_boundary hs hrest, dropWhile_append_of_boundary hs hrest]

/-- **Digits around a point** are read as one number. -/
theorem readMagnitude?_point (hwhole : AllDigits whole) (hne : whole ≠ [])
    (hfraction : AllDigits fraction) (htail : readExponent? tail = some exponent)
    (hmark : ∀ c, tail.head? = some c → c = 'e') :
    readMagnitude? fmt (whole ++ '.' :: (fraction ++ tail)) =
      some (fmt.ofDecimal (digitsValue 0 (whole ++ fraction)) (exponent - fraction.length)) := by
  have hpoint : leadingDigits (whole ++ '.' :: (fraction ++ tail)) =
      (whole, '.' :: (fraction ++ tail)) :=
    leadingDigits_append hwhole fun c hc => by rw [← Option.some.inj hc]; rfl
  have hend : leadingDigits (fraction ++ tail) = (fraction, tail) :=
    leadingDigits_append hfraction fun c hc => by rw [hmark c hc]; rfl
  have hsome : whole.isEmpty = false := by simpa using hne
  rw [readMagnitude?, hpoint]
  simp only [hend, hsome, htail, digitsValue_append]
  simp

/-- **Digits without a point** are read as they are. -/
theorem readMagnitude?_plain (hwhole : AllDigits whole) (hne : whole ≠ [])
    (htail : readExponent? tail = some exponent) (hmark : ∀ c, tail.head? = some c → c = 'e') :
    readMagnitude? fmt (whole ++ tail) = some (fmt.ofDecimal (digitsValue 0 whole) exponent) := by
  have hend : leadingDigits (whole ++ tail) = (whole, tail) :=
    leadingDigits_append hwhole fun c hc => by rw [hmark c hc]; rfl
  have hsome : whole.isEmpty = false := by simpa using hne
  rw [readMagnitude?, hend]
  cases tail with
  | nil => simp [hsome, htail, digitsValue]
  | cons c rest =>
    obtain rfl := hmark c rfl
    simp [hsome, htail, digitsValue]

theorem leadingSign_digits {s : List Char} (h : AllDigits s) : leadingSign s = (false, s) := by
  cases s with
  | nil => rfl
  | cons c s =>
    have hc := h c List.mem_cons_self
    rw [leadingSign]
    · intro rest he
      rw [(List.cons.inj he).1] at hc
      simp at hc
    · intro rest he
      rw [(List.cons.inj he).1] at hc
      simp at hc

theorem toList_toString_ofNat (k : Nat) :
    (toString (Int.ofNat k)).toList = Nat.toDigits 10 k := Nat.toList_repr

theorem toList_toString_negSucc (k : Nat) :
    (toString (Int.negSucc k)).toList = '-' :: Nat.toDigits 10 (k + 1) := by
  show ("-" ++ Nat.repr (k + 1)).toList = _
  simp [Nat.toList_repr]

/-- An exponent is read back. -/
theorem readExponent?_toString (n : Int) : readExponent? ('e' :: (toString n).toList) = some n := by
  have hdigits : ∀ k, (Nat.toDigits 10 k).all Char.isDigit = true := fun k =>
    List.all_eq_true.mpr (allDigits_toDigits k)
  cases n with
  | ofNat k =>
    rw [toList_toString_ofNat, readExponent?, leadingSign_digits (allDigits_toDigits k)]
    simp [hdigits, digitsValue_toDigits, Nat.toDigits_ne_nil]
  | negSucc k =>
    rw [toList_toString_negSucc, readExponent?, leadingSign]
    simp [hdigits, digitsValue_toDigits, Nat.toDigits_ne_nil, Int.negSucc_eq]

end Magnitude

/-! ## Written decimals -/

/-- The characters that a number is written with. -/
def IsNumeralChar (c : Char) : Prop := c.isDigit = true ∨ c = '.' ∨ c = 'e' ∨ c = '-'

/-- **`Spells`** -- a text that starts with a digit and is read as a decimal, up to the way in
which the decimal is written. -/
structure Spells (s : List Char) (d : Decimal) : Prop where
  /-- The characters are those of numbers. -/
  chars : ∀ c ∈ s, IsNumeralChar c
  /-- The first one is a digit. -/
  head : ∃ c rest, s = c :: rest ∧ c.isDigit = true
  /-- The text is read. -/
  reads : ∃ e : Decimal, e.SameValue d ∧
    readMagnitude? .single s = some (BinaryFormat.single.ofDecimal e.digits e.exponent)

/-- The decimal with the given digits, the first of which has the given order. -/
def writtenDecimal (digits : List Char) (order : Int) : Decimal :=
  ⟨digitsValue 0 digits, order - digits.length + 1⟩

section Written

variable {digits whole fraction tail : List Char} {order exponent : Int} {d : Decimal}

theorem exists_head_digit {s rest : List Char} (h : AllDigits s) (hne : s ≠ []) :
    ∃ c t, s ++ rest = c :: t ∧ c.isDigit = true := by
  cases s with
  | nil => exact absurd rfl hne
  | cons c t => exact ⟨c, t ++ rest, rfl, h c List.mem_cons_self⟩

theorem spells_point (hwhole : AllDigits whole) (hne : whole ≠ []) (hfraction : AllDigits fraction)
    (htail : readExponent? tail = some exponent) (hmark : ∀ c, tail.head? = some c → c = 'e')
    (hchars : ∀ c ∈ tail, IsNumeralChar c)
    (hsame : Decimal.SameValue
      ⟨digitsValue 0 (whole ++ fraction), exponent - fraction.length⟩ d) :
    Spells (whole ++ '.' :: (fraction ++ tail)) d where
  chars := by
    intro c hc
    simp only [List.mem_append, List.mem_cons] at hc
    rcases hc with hc | rfl | hc | hc
    · exact .inl (hwhole c hc)
    · exact .inr (.inl rfl)
    · exact .inl (hfraction c hc)
    · exact hchars c hc
  head := exists_head_digit hwhole hne
  reads := ⟨_, hsame, readMagnitude?_point hwhole hne hfraction htail hmark⟩

theorem spells_plain (hwhole : AllDigits whole) (hne : whole ≠ [])
    (htail : readExponent? tail = some exponent) (hmark : ∀ c, tail.head? = some c → c = 'e')
    (hchars : ∀ c ∈ tail, IsNumeralChar c)
    (hsame : Decimal.SameValue ⟨digitsValue 0 whole, exponent⟩ d) : Spells (whole ++ tail) d where
  chars := by
    intro c hc
    rcases List.mem_append.mp hc with hc | hc
    · exact .inl (hwhole c hc)
    · exact hchars c hc
  head := exists_head_digit hwhole hne
  reads := ⟨_, hsame, readMagnitude?_plain hwhole hne htail hmark⟩

/-- A decimal is the same if its digits and its exponent are. -/
theorem sameValue_written {n : Nat} {e : Int} (hn : n = digitsValue 0 digits)
    (he : e = order - digits.length + 1) :
    Decimal.SameValue ⟨n, e⟩ (writtenDecimal digits order) := by
  rw [hn, he]
  rfl

/-- **Positional texts** are read as the decimal they are made of. -/
theorem spells_positionalText (hd : AllDigits digits) (hne : digits ≠ []) :
    Spells (positionalText digits order) (writtenDecimal digits order) := by
  have hzero : AllDigits ['0'] := allDigits_zeros 1
  have hend : ∀ c, ([] : List Char).head? = some c → c = 'e' := by simp
  have hnone : ∀ c ∈ ([] : List Char), IsNumeralChar c := by simp
  rw [positionalText]
  by_cases hneg : order < 0
  · rw [if_pos hneg]
    have hfraction := allDigits_append.mpr ⟨allDigits_zeros (-order - 1).toNat, hd⟩
    have hsame : Decimal.SameValue
        ⟨digitsValue 0 (['0'] ++ (List.replicate (-order - 1).toNat '0' ++ digits)),
          0 - (List.replicate (-order - 1).toNat '0' ++ digits).length⟩
        (writtenDecimal digits order) := by
      refine sameValue_written ?_ ?_
      · rw [digitsValue_append, digitsValue_append, digitsValue_zeros]
        simp [digitsValue]
      · rw [List.length_append, List.length_replicate]
        omega
    simpa using spells_point hzero (by simp) hfraction rfl hend hnone hsame
  · rw [if_neg hneg]
    by_cases hle : digits.length ≤ order.toNat + 1
    · -- the point stands behind the digits, with a zero on its other side
      have hwhole := allDigits_append.mpr ⟨hd, allDigits_zeros (order.toNat + 1 - digits.length)⟩
      have hsame : Decimal.SameValue ⟨digitsValue 0 (digits ++
          List.replicate (order.toNat + 1 - digits.length) '0' ++ ['0']), 0 - (['0'].length : Nat)⟩
          (writtenDecimal digits order) := by
        have hscale := Decimal.sameValue_scale (digitsValue 0 digits)
          (order.toNat + 1 - digits.length + 1) (order - digits.length + 1)
        have hvalue : digitsValue 0 (digits ++
            List.replicate (order.toNat + 1 - digits.length) '0' ++ ['0']) =
            digitsValue 0 digits * 10 ^ (order.toNat + 1 - digits.length + 1) := by
          rw [List.append_assoc, ← List.replicate_succ', digitsValue_append, digitsValue_zeros]
        have hexponent : (0 : Int) - (['0'].length : Nat) = order - digits.length + 1 -
            ((order.toNat + 1 - digits.length + 1 : Nat) : Int) := by
          rw [List.length_singleton]
          omega
        rw [hvalue, hexponent]
        exact hscale.symm
      have hspells := spells_point hwhole (by simp [hne]) hzero rfl hend hnone hsame
      simpa [List.take_of_length_le hle, List.drop_of_length_le hle] using hspells
    · have hwhole : AllDigits (digits.take (order.toNat + 1)) := fun c hc =>
        hd c (List.mem_of_mem_take hc)
      have hfraction : AllDigits (digits.drop (order.toNat + 1)) := fun c hc =>
        hd c (List.mem_of_mem_drop hc)
      have hdrop : (digits.drop (order.toNat + 1)).isEmpty = false := by
        simpa using hle
      have hsame : Decimal.SameValue ⟨digitsValue 0 (digits.take (order.toNat + 1) ++
          digits.drop (order.toNat + 1)), 0 - (digits.drop (order.toNat + 1)).length⟩
          (writtenDecimal digits order) := by
        refine sameValue_written (by rw [List.take_append_drop]) ?_
        rw [List.length_drop]
        omega
      have hspells := spells_point hwhole (by simp [hne]) hfraction rfl hend hnone hsame
      have hpad : order.toNat + 1 - digits.length = 0 := by omega
      simpa [hdrop, hpad] using hspells

/-- The characters of an exponent. -/
theorem isNumeralChar_exponent (n : Int) : ∀ c ∈ 'e' :: (toString n).toList, IsNumeralChar c := by
  intro c hc
  rcases List.mem_cons.mp hc with rfl | hc
  · exact .inr (.inr (.inl rfl))
  · cases n with
    | ofNat k =>
      rw [toList_toString_ofNat] at hc
      exact .inl (allDigits_toDigits k c hc)
    | negSucc k =>
      rw [toList_toString_negSucc] at hc
      rcases List.mem_cons.mp hc with rfl | hc
      · exact .inr (.inr (.inr rfl))
      · exact .inl (allDigits_toDigits (k + 1) c hc)

/-- **Texts with an exponent** are read as the decimal they are made of. -/
theorem spells_exponentText (hd : AllDigits digits) (hne : digits ≠ []) :
    Spells (exponentText digits order) (writtenDecimal digits order) := by
  have hmark : ∀ c, ('e' :: (toString order).toList).head? = some c → c = 'e' := fun c hc =>
    (Option.some.inj hc).symm
  have hchars := isNumeralChar_exponent order
  have hread := readExponent?_toString order
  rw [exponentText]
  obtain ⟨first, others, rfl⟩ := List.exists_cons_of_ne_nil hne
  have hfirst : AllDigits [first] := fun c hc =>
    hd c (List.mem_singleton.mp hc ▸ List.mem_cons_self)
  have hothers : AllDigits others := fun c hc => hd c (List.mem_cons_of_mem first hc)
  cases hcase : others.isEmpty with
  | true =>
    obtain rfl := List.isEmpty_iff.mp hcase
    have hsame : Decimal.SameValue ⟨digitsValue 0 [first], order⟩ (writtenDecimal [first] order) :=
      sameValue_written rfl (by simp)
    simpa using spells_plain hfirst (by simp) hread hmark hchars hsame
  | false =>
    have hsame : Decimal.SameValue ⟨digitsValue 0 ([first] ++ others), order - others.length⟩
        (writtenDecimal (first :: others) order) :=
      sameValue_written rfl (by rw [List.length_cons]; omega)
    simpa [hcase] using spells_point hfirst (by simp) hothers hread hmark hchars hsame

/-- **The digits without zeros at the end** make up the same decimal. -/
theorem scientific_spec (hpos : d.digits ≠ 0) :
    AllDigits d.scientific.1 ∧ d.scientific.1 ≠ [] ∧
      d.SameValue (writtenDecimal d.scientific.1 d.scientific.2) := by
  obtain ⟨digits, exponent⟩ := d
  rw [Decimal.scientific]
  have hall := allDigits_toDigits digits
  have hvalue := digitsValue_toDigits digits
  simp only at hpos ⊢
  generalize Nat.toDigits 10 digits = all at *
  -- what is dropped at the end are zeros
  obtain ⟨k, hk⟩ : ∃ k,
      all = (all.reverse.dropWhile (· == '0')).reverse ++ List.replicate k '0' := by
    have hzeros : (all.reverse.takeWhile (· == '0')).reverse =
        List.replicate (all.reverse.takeWhile (· == '0')).length '0' := by
      rw [List.eq_replicate_iff]
      refine ⟨List.length_reverse, fun c hc => ?_⟩
      exact beq_iff_eq.mp (List.all_eq_true.mp List.all_takeWhile c (List.mem_reverse.mp hc))
    refine ⟨(all.reverse.takeWhile (· == '0')).length, ?_⟩
    rw [← hzeros, ← List.reverse_append, List.takeWhile_append_dropWhile, List.reverse_reverse]
  generalize (all.reverse.dropWhile (· == '0')).reverse = kept at *
  subst hk
  rw [digitsValue_append, digitsValue_zeros] at hvalue
  refine ⟨(allDigits_append.mp hall).1, ?_, ?_⟩
  · rintro rfl
    simp [digitsValue] at hvalue
    omega
  · have hscale := Decimal.sameValue_scale (digitsValue 0 kept) k (exponent + k)
    have hexponent : exponent + (kept ++ List.replicate k '0').length - 1 - kept.length + 1 =
        exponent + k := by
      rw [List.length_append, List.length_replicate]
      omega
    rw [hvalue, Int.add_sub_cancel] at hscale
    rw [writtenDecimal, hexponent]
    exact hscale.symm

end Written

/-! ## Numbers of 32 bits -/

section Single

open BinaryFormat

variable {word magnitude : Nat} {s : List Char} {d : Decimal}

/-- A text that spells a decimal of the interval of a word is read as the word. -/
theorem Spells.readMagnitude?_eq (h : Spells s d) (hpos : 0 < magnitude)
    (hfinite : magnitude < single.infinity)
    (hd : (RoundingInterval.ofWord single magnitude).Contains d.num d.den) :
    readMagnitude? .single s = some magnitude := by
  obtain ⟨e, hsame, hread⟩ := h.reads
  rw [hread, ofDecimal_eq hpos hfinite (hd.of_eq d.den_pos hsame.symm e.den_pos)]

/-- The sign of a word in front of its magnitude. -/
theorem readNumber?_signed (hword : word < 2 * single.signWeight)
    (hhead : ∃ c rest, s = c :: rest ∧ c.isDigit = true)
    (hread : readMagnitude? .single s = some (word % single.signWeight)) :
    readNumber? .single ((if single.signWeight ≤ word then ['-'] else []) ++ s) = some word := by
  by_cases hsign : single.signWeight ≤ word
  · have hsum : single.signWeight + word % single.signWeight = word := by
      rw [Nat.mod_eq_sub_mod hsign, Nat.mod_eq_of_lt (by omega)]
      omega
    rw [if_pos hsign, List.singleton_append, readNumber?, leadingSign]
    simp [hread, hsum]
  · have hsame : word % single.signWeight = word := Nat.mod_eq_of_lt (by omega)
    obtain ⟨c, rest, rfl, hc⟩ := hhead
    have hnone : leadingSign (c :: rest) = (false, c :: rest) := by
      rw [leadingSign]
      · rintro _ he
        rw [(List.cons.inj he).1] at hc
        simp at hc
      · rintro _ he
        rw [(List.cons.inj he).1] at hc
        simp at hc
    rw [if_neg hsign, List.nil_append, readNumber?, hnone]
    simp [hread, hsame]

/-- **A finite number** is written with a sign and a text that is read as its magnitude. -/
theorem exists_numberText (hfinite : word % single.signWeight < single.infinity) :
    ∃ s, numberText literalStyle .single word =
        (if single.signWeight ≤ word then ['-'] else []) ++ s ∧
      (∀ c ∈ s, IsNumeralChar c) ∧ (∃ c rest, s = c :: rest ∧ c.isDigit = true) ∧
      readMagnitude? .single s = some (word % single.signWeight) := by
  rw [numberText]
  rw [if_neg (Nat.not_lt.mpr (Nat.le_of_lt hfinite)), if_neg (Nat.ne_of_lt hfinite)]
  by_cases hzero : word % single.signWeight = 0
  · rw [if_pos hzero, hzero]
    refine ⟨"0.0".toList, rfl, ?_, ⟨'0', ['.', '0'], rfl, rfl⟩, rfl⟩
    intro c hc
    simp only [show "0.0".toList = ['0', '.', '0'] from rfl, List.mem_cons, List.not_mem_nil,
      or_false] at hc
    rcases hc with rfl | rfl | rfl <;> simp [IsNumeralChar]
  · rw [if_neg hzero]
    have hpos := Nat.pos_of_ne_zero hzero
    have hcontains := contains_shortest hpos hfinite
    obtain ⟨hdigits, hne, hsame⟩ := scientific_spec (digits_ne_zero hpos hfinite hcontains)
    generalize (single.shortest (word % single.signWeight)).scientific = written at *
    obtain ⟨digits, order⟩ := written
    have hwritten := hcontains.of_eq (Decimal.den_pos _) hsame (Decimal.den_pos _)
    have hpositional : Spells (positionalText digits order) (writtenDecimal digits order) :=
      spells_positionalText hdigits hne
    have hexponent : Spells (exponentText digits order) (writtenDecimal digits order) :=
      spells_exponentText hdigits hne
    by_cases hstyle : literalStyle.positionalFrom ≤ order ∧ order < literalStyle.positionalBelow
    · exact ⟨positionalText digits order, if_pos hstyle, hpositional.chars, hpositional.head,
        hpositional.readMagnitude?_eq hpos hfinite hwritten⟩
    · exact ⟨exponentText digits order, if_neg hstyle, hexponent.chars, hexponent.head,
        hexponent.readMagnitude?_eq hpos hfinite hwritten⟩

/-- **A finite number** is read back. -/
theorem readNumber?_numberText (hword : word < 2 * single.signWeight)
    (hfinite : word % single.signWeight < single.infinity) :
    readNumber? .single (numberText literalStyle .single word) = some word := by
  obtain ⟨s, hs, _, hhead, hread⟩ := exists_numberText hfinite
  rw [hs]
  exact readNumber?_signed hword hhead hread

/-- A finite number starts with a digit or a minus sign, and has the characters of numbers. -/
theorem numberText_chars (hfinite : word % single.signWeight < single.infinity) :
    (∀ c ∈ numberText literalStyle .single word, IsNumeralChar c) ∧
      ∃ c rest, numberText literalStyle .single word = c :: rest ∧
        (c.isDigit = true ∨ c = '-') := by
  obtain ⟨s, hs, hchars, ⟨c, rest, rfl, hc⟩, _⟩ := exists_numberText hfinite
  rw [hs]
  by_cases hsign : single.signWeight ≤ word
  · rw [if_pos hsign]
    refine ⟨?_, '-', c :: rest, rfl, .inr rfl⟩
    intro x hx
    rcases List.mem_cons.mp hx with rfl | hx
    · exact .inr (.inr (.inr rfl))
    · exact hchars x hx
  · rw [if_neg hsign]
    exact ⟨hchars, c, rest, rfl, .inl hc⟩

/-! ### Words that readers give -/

/-- **`IsReadWord`** -- a word that is read of some text: it is finite, infinite, or the quiet word
that is no number, with either sign. -/
structure IsReadWord (word : Nat) : Prop where
  /-- The word has 32 bits. -/
  lt : word < 2 * single.signWeight
  /-- Its magnitude is one of those that are read. -/
  magnitude : word % single.signWeight ≤ single.infinity ∨
    word % single.signWeight = single.quietNaN

/-- The word that the text of a word spells: what is no number is written without its sign. -/
def spelledWord (word : Nat) : Nat :=
  if single.infinity < word % single.signWeight then single.quietNaN else word

theorem ofDecimal_le (digits : Nat) (exponent : Int) :
    single.ofDecimal digits exponent ≤ single.infinity := by
  have hratio : ∀ num den, single.ofRatio num den ≤ single.infinity := fun num den =>
    Nat.min_le_right _ _
  rw [ofDecimal]
  split
  · exact Nat.zero_le _
  · split
    · exact Nat.le_refl _
    · split
      · exact hratio _ _
      · exact hratio _ _

theorem readMagnitude?_le (h : readMagnitude? .single s = some magnitude) :
    magnitude ≤ single.infinity := by
  rw [readMagnitude?] at h
  dsimp only at h
  -- with a fraction or without one
  split at h
  all_goals
    split at h
    · cases h
    · obtain ⟨exponent, -, rfl⟩ := Option.map_eq_some_iff.mp h
      exact ofDecimal_le _ _

theorem namedMagnitude?_eq (h : namedMagnitude? .single s = some magnitude) :
    magnitude = single.infinity ∨ magnitude = single.quietNaN := by
  rw [namedMagnitude?] at h
  split at h
  · exact .inl (Option.some.inj h).symm
  · split at h
    · exact .inr (Option.some.inj h).symm
    · cases h

/-- **What is read of a number** is such a word. -/
theorem isReadWord_of_readNumber? (h : readNumber? .single s = some word) : IsReadWord word := by
  rw [readNumber?] at h
  simp only at h
  obtain ⟨magnitude, hmagnitude, hword⟩ := Option.map_eq_some_iff.mp h
  have hread : magnitude ≤ single.infinity ∨ magnitude = single.quietNaN := by
    rcases Option.or_eq_some_iff.mp hmagnitude with hm | ⟨-, hm⟩
    · exact .inl (readMagnitude?_le hm)
    · rcases namedMagnitude?_eq hm with rfl | hm
      · exact .inl (Nat.le_refl _)
      · exact .inr hm
  have hlt : magnitude < single.signWeight := by
    have hinfinity : single.infinity < single.signWeight := by decide
    have hquiet : single.quietNaN < single.signWeight := by decide
    omega
  have hsame : word % single.signWeight = magnitude := by
    rw [← hword]
    split
    · rw [Nat.add_mod_left, Nat.mod_eq_of_lt hlt]
    · exact Nat.mod_eq_of_lt hlt
  refine ⟨?_, hsame ▸ hread⟩
  rw [← hword]
  split <;> omega

/-- A word beyond the finite ones is written as a name. -/
theorem numberText_name (h : IsReadWord word)
    (hbeyond : single.infinity ≤ word % single.signWeight) :
    word % single.signWeight = single.infinity ∧ numberText literalStyle .single word =
        (if single.signWeight ≤ word then ['-'] else []) ++ "inf".toList ∨
      word % single.signWeight = single.quietNaN ∧
        numberText literalStyle .single word = "NaN".toList := by
  by_cases heq : word % single.signWeight = single.infinity
  · refine .inl ⟨heq, ?_⟩
    rw [numberText]
    simp only [heq, Nat.lt_irrefl, ↓reduceIte]
  · have hgt : single.infinity < word % single.signWeight := by omega
    refine .inr ⟨h.magnitude.resolve_left (by omega), ?_⟩
    rw [numberText]
    exact if_pos hgt

/-- **A word that was read** is read back, but for the sign of what is no number. -/
theorem readNumber?_spelled (h : IsReadWord word) :
    readNumber? .single (numberText literalStyle .single word) = some (spelledWord word) := by
  by_cases hfinite : word % single.signWeight < single.infinity
  · rw [readNumber?_numberText h.lt hfinite, spelledWord, if_neg (by omega)]
  · have hinf : readNumber? .single "inf".toList = some single.infinity := by decide +kernel
    have hminus : readNumber? .single ('-' :: "inf".toList) =
        some (single.signWeight + single.infinity) := by decide +kernel
    have hnan : readNumber? .single "NaN".toList = some single.quietNaN := by decide +kernel
    have hlt := h.lt
    rcases numberText_name h (by omega) with ⟨hm, htext⟩ | ⟨hm, htext⟩
    · rw [htext, spelledWord, hm, if_neg (Nat.lt_irrefl _)]
      by_cases hsign : single.signWeight ≤ word
      · have hword : single.signWeight + single.infinity = word := by
          rw [Nat.mod_eq_sub_mod hsign, Nat.mod_eq_of_lt (by omega)] at hm
          omega
        rw [if_pos hsign]
        exact hminus.trans (congrArg some hword)
      · have hword : single.infinity = word := by
          rw [← hm, Nat.mod_eq_of_lt (by omega)]
        rw [if_neg hsign]
        exact hinf.trans (congrArg some hword)
    · rw [htext, hnan, spelledWord, hm, if_pos (by decide)]

end Single

end TensorGraph
