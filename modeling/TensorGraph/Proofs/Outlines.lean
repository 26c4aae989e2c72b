/-
# TensorGraph.Proofs.Outlines -- nested lists and types are read back

Types, tuple fields and return expressions are written alike: a leaf, or a list of such between
parentheses. `Nest.spell` writes an outline in this way, and reading what it writes gives the
outline (`Nest.ofText_eq`), provided that its leaves are pieces of text that hide no comma and no
parenthesis. A type is the first instance: it is written as the outline that spells it, and comes
back from there (`ValueType.ofText_render`).
-/
import TensorGraph.Proofs.Numerals
import TensorGraph.Proofs.Outcome
import TensorGraph.Text.Type

namespace TensorGraph

open scoped CoreInstances

/-! ## Characters and pieces -/

/-- Characters of names. -/
def IsWordChar (c : Char) : Prop := c.isAlphanum = true ∨ c = '_'

instance (c : Char) : Decidable (IsWordChar c) := inferInstanceAs (Decidable (_ ∨ _))

/-- **`IsWord`** -- a name that is not empty, of letters, digits and underscores. -/
structure IsWord (s : String) : Prop where
  /-- There is a character. -/
  ne_empty : s ≠ ""
  /-- All are letters, digits or underscores. -/
  chars : ∀ c ∈ s.toList, IsWordChar c

instance (s : String) : Decidable (IsWord s) :=
  decidable_of_iff (s ≠ "" ∧ ∀ c ∈ s.toList, IsWordChar c)
    ⟨fun h => ⟨h.1, h.2⟩, fun h => ⟨h.ne_empty, h.chars⟩⟩

/-- A word character is none of the characters with a meaning. -/
theorem IsWordChar.ne {c d : Char} (h : IsWordChar c) (hd : ¬IsWordChar d) : c ≠ d := by
  rintro rfl
  exact hd h

theorem isWordChar_of_isDigit {c : Char} (h : c.isDigit = true) : IsWordChar c :=
  .inl (by simp [Char.isAlphanum, h])

/-- Numbers are written with word characters. -/
theorem isWordChar_toDigits (n : Nat) : ∀ c ∈ Nat.toDigits 10 n, IsWordChar c := fun c hc =>
  isWordChar_of_isDigit (allDigits_toDigits n c hc)

/-- A name has no character with a meaning. -/
theorem IsWord.notMem {s : String} (h : IsWord s) {d : Char} (hd : ¬IsWordChar d) :
    d ∉ s.toList := fun hm => hd (h.chars d hm)

theorem IsWordChar.isBlank_eq {c : Char} (h : IsWordChar c) : isBlank c = false := by
  rcases h with h | rfl
  · -- both classes are unions of intervals of code points
    have hclass : c.isAlphanum = ((decide (65 ≤ c.val ∧ c.val ≤ 90) ||
        (decide (97 ≤ c.val) && decide (c.val ≤ 122))) ||
        (decide (48 ≤ c.val) && decide (c.val ≤ 57))) := rfl
    rw [hclass] at h
    simp only [Bool.or_eq_true, Bool.and_eq_true, decide_eq_true_eq, UInt32.le_iff_toNat_le] at h
    simp only [isBlank, blankRanges, List.any_cons, List.any_nil, Bool.or_false,
      Bool.or_eq_false_iff, Bool.and_eq_false_iff, decide_eq_false_iff_not]
    have hvalue : c.toNat = c.val.toNat := rfl
    simp at h
    omega
  · rfl

/-- A text of word characters is solid. -/
theorem solid_of_isWordChar {s : List Char} (hne : s ≠ []) (h : ∀ c ∈ s, IsWordChar c) :
    Solid s := solid_of_forall hne fun c hc => (h c hc).isBlank_eq

theorem IsWord.toList_ne_nil {s : String} (h : IsWord s) : s.toList ≠ [] := fun hs =>
  h.ne_empty (String.toList_eq_nil_iff.mp hs)

theorem IsWord.solid {s : String} (h : IsWord s) : Solid s.toList :=
  solid_of_isWordChar h.toList_ne_nil h.chars

/-- The digits of a number are a solid text. -/
theorem solid_toDigits (n : Nat) : Solid (Nat.toDigits 10 n) :=
  solid_of_isWordChar Nat.toDigits_ne_nil (isWordChar_toDigits n)

/-- Characters within a line of a body: no line break, no slash, no brace. -/
def IsLineChar (c : Char) : Prop := c ∉ ['\n', '/', leftBrace, rightBrace]

instance (c : Char) : Decidable (IsLineChar c) := inferInstanceAs (Decidable (c ∉ _))

theorem IsWordChar.isLineChar {c : Char} (h : IsWordChar c) : IsLineChar c := by
  simp only [IsLineChar, List.mem_cons, List.not_mem_nil, or_false, not_or]
  exact ⟨h.ne (by decide), h.ne (by decide), h.ne (by decide), h.ne (by decide)⟩

/-- **`Piece`** -- a text within a line that may stand in a list: solid, without outside commas,
and with its parentheses balanced. -/
structure Piece (s : List Char) : Prop where
  /-- It is solid. -/
  solid : Solid s
  /-- No comma is outside. -/
  unbroken : Unbroken s
  /-- Parentheses are balanced. -/
  matched : Matched '(' ')' s
  /-- It stands within a line. -/
  inLine : ∀ c ∈ s, IsLineChar c

section Lists

variable {ts : List (List Char)}

theorem Piece.items_eq (h : ∀ t ∈ ts, Piece t) : items (commaSeparated ts) = ts :=
  items_commaSeparated (fun t ht => (h t ht).unbroken) fun t ht => (h t ht).solid

theorem Piece.trim_list (h : ∀ t ∈ ts, Piece t) : trim (commaSeparated ts) = commaSeparated ts :=
  trim_commaSeparated fun t ht => (h t ht).solid

/-- Within a list of pieces, the parentheses are balanced. -/
theorem Piece.matched_list (h : ∀ t ∈ ts, Piece t) : Matched '(' ')' (commaSeparated ts) :=
  intercalate_of matched_nil (matched_of_notMem (by decide) (by decide))
    (fun _ _ => Matched.append) fun t ht => (h t ht).matched

/-- **A list of pieces** between parentheses is a piece. -/
theorem Piece.group (h : ∀ t ∈ ts, Piece t) : Piece ('(' :: (commaSeparated ts ++ [')'])) where
  solid := solid_wrap rfl rfl _
  unbroken := by
    refine Nested.wrap (by simp) (by simp) ?_
    exact intercalate_of (nested_of_forall (by simp)) (nested_of_forall (by decide))
      (fun _ _ => Nested.append) fun t ht => (h t ht).unbroken.nested
  matched := (matched_list h).wrap (by decide)
  inLine := by
    have hlist : ∀ c ∈ commaSeparated ts, IsLineChar c :=
      intercalate_chars (by decide) fun t ht => (h t ht).inLine
    exact List.forall_mem_cons.mpr ⟨by decide, List.forall_mem_append.mpr ⟨hlist, by decide⟩⟩

end Lists

/-! ## Outlines -/

namespace Nest

mutual

/-- The text of an outline. -/
def spell : Nest → List Char
  | .leaf text => text
  | .group elements => '(' :: (commaSeparated (spellAll elements) ++ [')'])
  | .unclosed => ['(']
  | .overrun text => text

/-- The texts of several outlines. -/
def spellAll : List Nest → List (List Char)
  | [] => []
  | nest :: rest => nest.spell :: spellAll rest

end

mutual

/-- **`Sound`** -- an outline without faults whose leaves are pieces that start with no
parenthesis. -/
def Sound : Nest → Prop
  | .leaf text => Piece text ∧ text.head? ≠ some '('
  | .group elements => AllSound elements
  | .unclosed => False
  | .overrun _ => False

/-- Several sound outlines. -/
def AllSound : List Nest → Prop
  | [] => True
  | nest :: rest => nest.Sound ∧ AllSound rest

end

mutual

/-- A sound outline is written as a piece. -/
theorem Sound.piece_spell : (n : Nest) → n.Sound → Piece n.spell
  | .leaf _, h => h.1
  | .group elements, h => .group (AllSound.pieces elements h)
  | .unclosed, h => h.elim
  | .overrun _, h => h.elim

theorem AllSound.pieces : (ns : List Nest) → AllSound ns → ∀ t ∈ spellAll ns, Piece t
  | [], _, _, ht => absurd ht List.not_mem_nil
  | n :: ns, h, t, ht => by
    rcases List.mem_cons.mp ht with rfl | ht
    · exact Sound.piece_spell n h.1
    · exact AllSound.pieces ns h.2 t ht

end

/-- A text without a parenthesis at its start is a leaf. -/
theorem ofText_leaf (lenient : Bool) {s : List Char} (h : (trim s).head? ≠ some '(') :
    ofText lenient s = .leaf (trim s) := by
  rw [ofText]
  split
  · next body hs => simp [hs] at h
  · rfl

/-- A text between parentheses is a list. -/
theorem ofText_group (lenient : Bool) {s body inside : List Char} (h : trim s = '(' :: body)
    (hc : closing? '(' ')' 0 body = some (inside, [])) :
    ofText lenient s =
      .group ((items (if lenient then trim inside else inside)).map (ofText lenient)) := by
  rw [ofText]
  split
  · next body' hs =>
    obtain rfl := (List.cons.inj (h.symm.trans hs)).2
    split
    · next hn => simp [hn] at hc
    · next inside' hi =>
      obtain rfl := (Prod.mk.inj (Option.some.inj (hc.symm.trans hi))).1
      rw [← List.attach_map_val]
    · next hi => simp [hi] at hc
  · next hs => exact absurd h (hs body)

mutual

/-- **An outline is read back** from its text. -/
theorem ofText_eq (lenient : Bool) :
    (n : Nest) → n.Sound → {s : List Char} → trim s = n.spell → ofText lenient s = n
  | .leaf text, h, s, hs => by
    have hs : trim s = text := hs
    rw [ofText_leaf lenient (by rw [hs]; exact h.2), hs]
  | .group elements, h, s, hs => by
    have hpieces := AllSound.pieces elements h
    have hclose := (Piece.matched_list hpieces).closing?_eq (by decide) []
    -- the list is solid or empty, so it does not matter whether it is trimmed
    have hinner : ∀ t, t = commaSeparated (spellAll elements) →
        (if lenient then trim t else t) = t := by
      rintro _ rfl
      rw [Piece.trim_list hpieces, ite_self]
    rw [ofText_group lenient hs hclose, hinner _ rfl, Piece.items_eq hpieces,
      ofText_all lenient elements h]
  | .unclosed, h, _, _ => h.elim
  | .overrun _, h, _, _ => h.elim

theorem ofText_all (lenient : Bool) :
    (ns : List Nest) → AllSound ns → (spellAll ns).map (ofText lenient) = ns
  | [], _ => rfl
  | n :: ns, h => by
    have hn := ofText_eq lenient n h.1 (Sound.piece_spell n h.1).solid.trim_eq
    rw [spellAll, List.map_cons, hn, ofText_all lenient ns h.2]

end

end Nest

/-! ## Types -/

/-- A tensor type whose extents can be read. -/
def TensorSpec.Bounded (t : TensorSpec) : Prop := ∀ d ∈ t.shape.dims, d < indexBound

instance (t : TensorSpec) : Decidable t.Bounded := inferInstanceAs (Decidable (∀ d ∈ _, _ < _))

namespace ValueType

mutual

/-- **`Bounded`** -- a type whose extents can be read. -/
def Bounded : ValueType → Prop
  | .tensor spec => spec.Bounded
  | .tuple elements => AllBounded elements

/-- Several types whose extents can be read. -/
def AllBounded : List ValueType → Prop
  | [] => True
  | ty :: rest => ty.Bounded ∧ AllBounded rest

end

mutual

/-- Decides whether the extents of a type can be read. -/
def decBounded : (ty : ValueType) → Decidable ty.Bounded
  | .tensor spec => inferInstanceAs (Decidable spec.Bounded)
  | .tuple elements => decAllBounded elements

/-- Decides whether the extents of several types can be read. -/
def decAllBounded : (tys : List ValueType) → Decidable (AllBounded tys)
  | [] => isTrue trivial
  | ty :: rest => @instDecidableAnd _ _ (decBounded ty) (decAllBounded rest)

end

instance : DecidablePred Bounded := decBounded

mutual

/-- The outline that spells a type. -/
def nest : ValueType → Nest
  | .tensor spec => .leaf spec.render
  | .tuple elements => .group (nestAll elements)

/-- The outlines that spell several types. -/
def nestAll : List ValueType → List Nest
  | [] => []
  | ty :: rest => ty.nest :: nestAll rest

end

mutual

/-- A type is written as its outline. -/
theorem spell_nest : (ty : ValueType) → ty.nest.spell = ty.render
  | .tensor _ => rfl
  | .tuple elements => by
    rw [nest, Nest.spell, spellAll_nestAll elements]
    rfl

theorem spellAll_nestAll : (tys : List ValueType) → Nest.spellAll (nestAll tys) = renderList tys
  | [] => rfl
  | ty :: tys => by rw [nestAll, Nest.spellAll, spell_nest ty, spellAll_nestAll tys]; rfl

end

end ValueType

/-! ### Tensor types -/

/-- Extents are written with digits and the letter between them. -/
theorem Shape.render_chars (s : Shape) : ∀ c ∈ s.render, IsWordChar c := by
  refine intercalate_chars (by decide) fun t ht c hc => ?_
  obtain ⟨d, _, rfl⟩ := List.mem_map.mp ht
  exact isWordChar_toDigits d c hc

theorem Shape.render_ne_nil {s : Shape} (h : s.dims ≠ []) : s.render ≠ [] := by
  obtain ⟨d, ds, hd⟩ := List.exists_cons_of_ne_nil h
  rw [render, hd]
  cases ds with
  | nil => simp [Nat.toDigits_ne_nil]
  | cons e es => simp [List.intercalate_cons_cons, Nat.toDigits_ne_nil]

namespace TensorSpec

/-- What stands between the angle brackets of a tensor type. -/
def body (t : TensorSpec) : List Char :=
  t.dtype.name.toList ++ if t.isScalar then [] else ',' :: ' ' :: t.shape.render

theorem render_eq (t : TensorSpec) : t.render = "tensor".toList ++ '<' :: (t.body ++ ['>']) := by
  have hopen : "tensor<".toList = "tensor".toList ++ ['<'] := rfl
  unfold render body
  generalize (if t.isScalar then [] else ',' :: ' ' :: t.shape.render) = dims
  simp only [hopen, List.append_assoc, List.cons_append, List.nil_append]

/-- The characters between the angle brackets. -/
theorem body_chars (t : TensorSpec) : ∀ c ∈ t.body, IsWordChar c ∨ c = ',' ∨ c = ' ' := by
  have hname : ∀ c ∈ t.dtype.name.toList, IsWordChar c := by
    cases t.dtype <;> decide
  rw [body]
  refine List.forall_mem_append.mpr ⟨fun c hc => .inl (hname c hc), ?_⟩
  split
  · simp
  · simpa using fun c hc => .inl (t.shape.render_chars c hc)

/-- A tensor type is a piece that starts with no parenthesis. -/
theorem piece_render (t : TensorSpec) : Piece t.render ∧ t.render.head? ≠ some '(' := by
  have hout : ∀ d, ¬IsWordChar d → d ≠ ',' → d ≠ ' ' → d ∉ t.body := fun d hd hcomma hspace hm =>
    (t.body_chars d hm).elim hd (not_or.mpr ⟨hcomma, hspace⟩)
  have hbracket : ∀ c ∈ t.body, ¬IsBracket c := by
    intro c hc hb
    revert hc
    simp only [IsBracket, List.mem_cons, List.not_mem_nil, or_false] at hb
    rcases hb with rfl | rfl | rfl | rfl | rfl | rfl <;>
      exact hout _ (by decide) (by decide) (by decide)
  have hword : ∀ c ∈ "tensor".toList, IsWordChar c := by decide
  have hline : ∀ c ∈ t.body, IsLineChar c := fun c hc => by
    rcases t.body_chars c hc with hc | rfl | rfl
    · exact hc.isLineChar
    · decide
    · decide
  rw [render_eq]
  refine ⟨⟨?_, ?_, ?_, ?_⟩, by simp⟩
  · have := (solid_of_isWordChar (by simp) hword).append
      (solid_of_forall (s := ['>']) (by simp) (by decide)) ('<' :: t.body)
    simpa using this
  · refine .append (unbroken_of_forall (by decide)) ?_
    exact (nested_of_forall hbracket).wrap (by simp) (by simp)
  · have hopen := hout '(' (by decide) (by decide) (by decide)
    have hclose := hout ')' (by decide) (by decide) (by decide)
    exact matched_of_notMem (by simp [hopen]) (by simp [hclose])
  · refine List.forall_mem_append.mpr ⟨fun c hc => (hword c hc).isLineChar, ?_⟩
    rw [List.forall_mem_cons, List.forall_mem_append, List.forall_mem_singleton]
    exact ⟨by decide, hline, by decide⟩

/-- No type has a dash. -/
theorem notMem_render (t : TensorSpec) : '-' ∉ t.render := by
  have hbody : '-' ∉ t.body := fun hm =>
    (t.body_chars '-' hm).elim (by decide) (by decide)
  rw [render_eq]
  simp [hbody]

end TensorSpec

/-- The word for an element type is read back. -/
theorem readDType_name (dtype : DType) : readDType dtype.name.toList = .ok dtype := by
  cases dtype <;> rfl

/-- Extents are read back. -/
theorem readDims_render {s : Shape} (hne : s.dims ≠ []) (h : ∀ d ∈ s.dims, d < indexBound) :
    readDims s.render = .ok s.dims := by
  have hpieces : ∀ piece ∈ s.dims.map (Nat.toDigits 10), 'x' ∉ piece := by
    intro piece hp hx
    obtain ⟨d, _, rfl⟩ := List.mem_map.mp hp
    simpa using allDigits_toDigits d 'x' hx
  rw [readDims, Shape.render, List.splitOn_intercalate 'x' hpieces (by simpa using hne)]
  refine mapM_map_eq_ok fun d hd => ?_
  simp [(solid_toDigits d).trim_eq, readIndex?_toDigits (h d hd), Nat.toDigits_ne_nil]

/-- What stands between the angle brackets is read back. -/
theorem readTensorBody_body {t : TensorSpec} (h : t.Bounded) : readTensorBody t.body = .ok t := by
  have hname : ',' ∉ t.dtype.name.toList := by cases t.dtype <;> decide
  -- a scalar has no comma behind its element type
  by_cases hscalar : t.shape.dims = []
  · have hbody : t.body = t.dtype.name.toList := by
      simp [TensorSpec.body, TensorSpec.isScalar, Shape.isScalar, hscalar]
    rw [readTensorBody, hbody, List.splitOn_eq_singleton hname]
    simp [readDType_name, trim, trimStart, trimEnd, ← hscalar]
  · have hbody : t.body = commaSeparated [t.dtype.name.toList, t.shape.render] := by
      simp [TensorSpec.body, TensorSpec.isScalar, Shape.isScalar, hscalar, commaSeparated,
        List.intercalate_cons_cons]
    have hword : ∀ c ∈ t.shape.render, IsWordChar c := t.shape.render_chars
    have hsolid := solid_of_isWordChar (Shape.render_ne_nil hscalar) hword
    have hsplit : (commaSeparated [t.dtype.name.toList, t.shape.render]).splitOn ',' =
        [t.dtype.name.toList, ' ' :: t.shape.render] :=
      splitOn_commaSeparated (by simpa using ⟨hname, fun hc => absurd (hword ',' hc) (by decide)⟩)
    rw [readTensorBody, hbody, hsplit]
    simp [readDType_name, hsolid.trim_space, hsolid.ne_nil, readDims_render hscalar h]

/-- **A tensor type** is read back. -/
theorem readTensorType_render {t : TensorSpec} (h : t.Bounded) :
    readTensorType t.render = .ok (.tensor t) := by
  have hbody : ((after? "tensor<" t.render).bind fun rest => ['>'].isSuffixOf? rest) =
      some t.body := by
    have hafter : after? "tensor<" t.render = some (t.body ++ ['>']) := by
      rw [after?_eq_some_iff, TensorSpec.render_eq]
      rfl
    rw [hafter, Option.bind_some, List.isSuffixOf?_eq_some_iff_append_eq]
  rw [readTensorType, hbody]
  simp [readTensorBody_body h, Except.map]

/-! ### All types -/

namespace ValueType

mutual

theorem sound_nest : (ty : ValueType) → ty.nest.Sound
  | .tensor spec => spec.piece_render
  | .tuple elements => allSound_nestAll elements

theorem allSound_nestAll : (tys : List ValueType) → Nest.AllSound (nestAll tys)
  | [] => trivial
  | ty :: tys => ⟨sound_nest ty, allSound_nestAll tys⟩

end

mutual

theorem ofNest_nest : (ty : ValueType) → ty.Bounded → ofNest ty.nest = .ok ty
  | .tensor _, h => readTensorType_render h
  | .tuple elements, h => by rw [nest, ofNest, ofNests_nestAll elements h]; rfl

theorem ofNests_nestAll : (tys : List ValueType) → AllBounded tys → ofNests (nestAll tys) = .ok tys
  | [], _ => rfl
  | ty :: tys, h => by rw [nestAll, ofNests, ofNest_nest ty h.1, ofNests_nestAll tys h.2]; rfl

end

/-- A type is written as a piece. -/
theorem piece_render (ty : ValueType) : Piece ty.render := by
  rw [← spell_nest]
  exact Nest.Sound.piece_spell ty.nest ty.sound_nest

/-- **A type is read back**, with blanks around it or without. -/
theorem ofText_render {ty : ValueType} (h : ty.Bounded) {s : List Char} (hs : trim s = ty.render) :
    ofText s = .ok ty := by
  rw [← spell_nest] at hs
  rw [ofText, Nest.ofText_eq true ty.nest ty.sound_nest hs, ofNest_nest ty h]

mutual

/-- A type has no dash. -/
theorem notMem_render : (ty : ValueType) → '-' ∉ ty.render
  | .tensor spec => spec.notMem_render
  | .tuple elements => by
    have hlist : ∀ c ∈ [',', ' '].intercalate (renderList elements), c ≠ '-' :=
      intercalate_chars (by decide) (notMem_renderList elements)
    have hinside : '-' ∉ [',', ' '].intercalate (renderList elements) := fun hm =>
      hlist '-' hm rfl
    simp [render, hinside]

theorem notMem_renderList : (tys : List ValueType) → ∀ t ∈ renderList tys, ∀ c ∈ t, c ≠ '-'
  | [], _, ht => absurd ht List.not_mem_nil
  | ty :: tys, t, ht => by
    rcases List.mem_cons.mp ht with rfl | ht
    · intro c hc hd
      exact notMem_render ty (hd ▸ hc)
    · exact notMem_renderList tys t ht

end

end ValueType

end TensorGraph
