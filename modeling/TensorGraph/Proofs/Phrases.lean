/-
# TensorGraph.Proofs.Phrases -- operands, expressions and bindings are read back

What a function writes on a line is read back in a scope in which the names that it shows stand
for the values that it means (`Function.Shows`). Operands come first; tuple constructions and
return expressions are outlines whose leaves are operands and values; a call is a list of operands
and its attributes.

A number beyond the largest is written by a name, and what is no number without its sign, so an
operand is read back as it is spelled (`Operand.spelled`); what can be read at all (`Printable`) is
spelled as it is.
-/
import TensorGraph.Proofs.Outlines
import TensorGraph.Text.Body

namespace TensorGraph

open scoped CoreInstances

/-! ## Plain texts -/

/-- Characters of names and numbers, and the sign in front of a name. -/
def IsPlainChar (c : Char) : Prop := IsWordChar c ∨ c ∈ ['%', '.', '-']

instance (c : Char) : Decidable (IsPlainChar c) := inferInstanceAs (Decidable (_ ∨ _))

/-- A plain character has no meaning where text is cut. -/
theorem IsPlainChar.spec {c : Char} (h : IsPlainChar c) :
    isBlank c = false ∧ ¬IsBracket c ∧ c ≠ ',' ∧ IsLineChar c := by
  rcases h with h | h
  · refine ⟨h.isBlank_eq, ?_, h.ne (by decide), h.isLineChar⟩
    simp only [IsBracket, List.mem_cons, List.not_mem_nil, or_false, not_or]
    exact ⟨h.ne (by decide), h.ne (by decide), h.ne (by decide), h.ne (by decide),
      h.ne (by decide), h.ne (by decide)⟩
  · simp only [List.mem_cons, List.not_mem_nil, or_false] at h
    rcases h with rfl | rfl | rfl <;> decide

/-- A plain text is a piece. -/
theorem piece_of_plain {s : List Char} (hne : s ≠ []) (h : ∀ c ∈ s, IsPlainChar c) : Piece s where
  solid := solid_of_forall hne fun c hc => (h c hc).spec.1
  unbroken := unbroken_of_forall fun c hc => ⟨(h c hc).spec.2.1, (h c hc).spec.2.2.1⟩
  matched := matched_of_notMem (fun hm => (h _ hm).spec.2.1 (by decide))
    fun hm => (h _ hm).spec.2.1 (by decide)
  inLine c hc := (h c hc).spec.2.2.2

/-- A plain text between square brackets is a piece. -/
theorem piece_bracketed {s : List Char} (h : ∀ c ∈ s, IsPlainChar c) :
    Piece ('[' :: (s ++ [']'])) where
  solid := solid_wrap rfl rfl s
  unbroken := (nested_of_forall fun c hc => (h c hc).spec.2.1).wrap (by simp) (by simp)
  matched := by
    refine matched_of_notMem ?_ ?_
    · simpa using fun hm => (h _ hm).spec.2.1 (by decide)
    · simpa using fun hm => (h _ hm).spec.2.1 (by decide)
  inLine := by
    rw [List.forall_mem_cons, List.forall_mem_append, List.forall_mem_singleton]
    exact ⟨by decide, fun c hc => (h c hc).spec.2.2.2, by decide⟩

/-- Two pieces side by side are a piece. -/
theorem Piece.append {s t : List Char} (hs : Piece s) (ht : Piece t) : Piece (s ++ t) where
  solid := by simpa using hs.solid.append ht.solid []
  unbroken := hs.unbroken.append ht.unbroken
  matched := hs.matched.append ht.matched
  inLine := List.forall_mem_append.mpr ⟨hs.inLine, ht.inLine⟩

theorem isPlainChar_toDigits (n : Nat) : ∀ c ∈ Nat.toDigits 10 n, IsPlainChar c := fun c hc =>
  .inl (isWordChar_toDigits n c hc)

/-! ## Names -/

section Names

variable {name : String} {s : List Char}

theorem IsWord.plain (h : IsWord name) : ∀ c ∈ '%' :: name.toList, IsPlainChar c := by
  rw [List.forall_mem_cons]
  exact ⟨.inr (by simp), fun c hc => .inl (h.chars c hc)⟩

/-- A name behind its sign is a piece. -/
theorem IsWord.piece (h : IsWord name) : Piece ('%' :: name.toList) :=
  piece_of_plain (List.cons_ne_nil _ _) h.plain

/-- **The name of a value** is read back. -/
theorem valueName_eq (h : IsWord name) (hs : trim s = '%' :: name.toList) :
    valueName s = name := by
  have hhead : ∀ c, name.toList.head? = some c → (c == '%') = false := fun c hc =>
    beq_false_of_ne ((h.chars c (List.mem_of_head? hc)).ne (by decide))
  have hsign : ∀ c ∈ ['%'], (c == '%') = true := by simp
  have hdrop : ('%' :: name.toList).dropWhile (· == '%') = name.toList :=
    dropWhile_append_of_boundary hsign hhead
  rw [valueName, hs, hdrop, String.ofList_toList]

/-- **`Shows`** -- the function shows a value by a name that stands for it in the scope. -/
def Function.Shows (f : Function) (scope : Scope) (id : ValueId) : Prop :=
  ∃ name, f.nameOf? id = some name ∧ IsWord name ∧ scope.resolve name = .ok id

end Names

/-! ## Operands -/

/-- A list is kept by a map that keeps its elements. -/
theorem map_eq_self_iff {α : Type} {g : α → α} {l : List α} :
    l.map g = l ↔ ∀ x ∈ l, g x = x := by
  have h : l.map g = l.map id ↔ ∀ x ∈ l, g x = id x := List.map_inj_left
  rwa [List.map_id] at h

/-- **`Plain`** -- a scalar of type `f32` with a finite value. -/
def Literal.Plain (l : Literal) : Prop :=
  l.spec = .scalar .f32 ∧ l.bytes.length = 4 ∧
    leValue l.bytes % BinaryFormat.single.signWeight < BinaryFormat.single.infinity

instance : DecidablePred Literal.Plain := fun _ => inferInstanceAs (Decidable (_ ∧ _ ∧ _))

/-- **`Printable`** -- an operand whose index or number can be read. -/
def Operand.Printable : Operand → Prop
  | .value _ => True
  | .tupleElement _ index => index < indexBound
  | .literal constant => constant.Plain

instance : DecidablePred Operand.Printable
  | .value _ => isTrue trivial
  | .tupleElement _ index => inferInstanceAs (Decidable (index < indexBound))
  | .literal constant => inferInstanceAs (Decidable constant.Plain)

/-- **`Legible`** -- a scalar of type `f32` with a word that is read of some text. -/
structure Literal.Legible (l : Literal) : Prop where
  /-- The type. -/
  spec : l.spec = .scalar .f32
  /-- The length of the word. -/
  length : l.bytes.length = 4
  /-- The word. -/
  word : IsReadWord (leValue l.bytes)

/-- **`spelled`** -- the literal that its text spells. -/
def Literal.spelled (l : Literal) : Literal :=
  if BinaryFormat.single.infinity < leValue l.bytes % BinaryFormat.single.signWeight then
    .ofSingle (UInt32.ofNat BinaryFormat.single.quietNaN)
  else l

/-- **`Leads`** -- a literal whose text starts with a digit or a minus sign: it is finite or
infinite below. -/
def Literal.Leads (l : Literal) : Prop :=
  leValue l.bytes % BinaryFormat.single.signWeight < BinaryFormat.single.infinity ∨
    leValue l.bytes = BinaryFormat.single.signWeight + BinaryFormat.single.infinity

namespace Operand

/-- **`Legible`** -- an operand whose index or number is read of some text. -/
def Legible : Operand → Prop
  | .value _ => True
  | .tupleElement _ index => index < indexBound
  | .literal constant => constant.Legible

/-- The operand that its text spells. -/
def spelled : Operand → Operand
  | .literal constant => .literal constant.spelled
  | x => x

/-- An operand whose text tells that it is one. -/
def Leads : Operand → Prop
  | .literal constant => constant.Leads
  | _ => True

end Operand

section Operands

variable {f : Function} {scope : Scope} {id : ValueId} {s : List Char} {name : String}

namespace Literal

variable {l : Literal}

/-- A finite literal is legible, and spelled as it is. -/
theorem Plain.legible (h : l.Plain) : l.Legible := by
  have hlt := leValue_lt l.bytes
  rw [h.2.1] at hlt
  exact ⟨h.1, h.2.1, hlt, .inl (Nat.le_of_lt h.2.2)⟩

theorem Plain.spelled_eq (h : l.Plain) : l.spelled = l := if_neg (by have := h.2.2; omega)

theorem Plain.leads (h : l.Plain) : l.Leads := .inl h.2.2

end Literal

theorem Function.renderValue_eq (h : f.nameOf? id = some name) :
    f.renderValue id = '%' :: name.toList := by
  rw [renderValue, h]

theorem Literal.Legible.render_eq {l : Literal} (h : l.Legible) :
    l.render = numberText literalStyle .single (leValue l.bytes) := by
  obtain ⟨hspec, hlength, _⟩ := h
  have hlt := leValue_lt l.bytes
  rw [hlength] at hlt
  have hsingle : l.single? = some (UInt32.ofNat (leValue l.bytes)) := by
    simp [single?, hspec, hlength, TensorSpec.scalar, TensorSpec.isScalar, Shape.isScalar,
      Shape.scalar]
  have hword : (UInt32.ofNat (leValue l.bytes)).toNat = leValue l.bytes := by
    rw [UInt32.toNat_ofNat']
    exact Nat.mod_eq_of_lt hlt
  simp only [render, hsingle, hword]

/-- A literal is the scalar of its bits. -/
theorem Literal.Legible.ofSingle_eq {l : Literal} (h : l.Legible) :
    Literal.ofSingle (UInt32.ofNat (leValue l.bytes)) = l := by
  obtain ⟨spec, bytes⟩ := l
  obtain ⟨hspec, hlength, _⟩ := h
  simp only at hspec hlength
  have hlt := leValue_lt bytes
  rw [hlength] at hlt
  rw [ofSingle, UInt32.toNat_ofNat', Nat.mod_eq_of_lt hlt, ← hlength, leBytes_leValue, hspec]

/-- What a literal is spelled as is the scalar of the word that its text spells. -/
theorem Literal.Legible.spelled_eq {l : Literal} (h : l.Legible) :
    l.spelled = .ofSingle (UInt32.ofNat (spelledWord (leValue l.bytes))) := by
  rw [spelled, spelledWord]
  split
  · rfl
  · exact h.ofSingle_eq.symm

theorem IsNumeralChar.isPlainChar {c : Char} (h : IsNumeralChar c) :
    IsPlainChar c ∧ c ≠ '%' := by
  rcases h with h | rfl | rfl | rfl
  · exact ⟨.inl (isWordChar_of_isDigit h), by rintro rfl; simp at h⟩
  all_goals decide

/-- **The text of a literal** is a plain text without the sign of a name. -/
theorem Literal.Legible.render_spec {l : Literal} (h : l.Legible) :
    l.render ≠ [] ∧ ∀ c ∈ l.render, IsPlainChar c ∧ c ≠ '%' := by
  rw [h.render_eq]
  by_cases hfinite :
      leValue l.bytes % BinaryFormat.single.signWeight < BinaryFormat.single.infinity
  · obtain ⟨hchars, c, rest, hrender, -⟩ := numberText_chars hfinite
    refine ⟨?_, fun c hc => (hchars c hc).isPlainChar⟩
    rw [hrender]
    exact List.cons_ne_nil c rest
  · rcases numberText_name h.word (Nat.le_of_not_lt hfinite) with ⟨-, htext⟩ | ⟨-, htext⟩
    · rw [htext]
      split
      · exact ⟨by decide, by decide⟩
      · exact ⟨by decide, by decide⟩
    · rw [htext]
      exact ⟨by decide, by decide⟩

/-- A literal that leads starts like an operand. -/
theorem Literal.Leads.head_eq {l : Literal} (h : l.Leads) (hl : l.Legible) :
    ∃ c rest, l.render = c :: rest ∧ startsOperand c = true := by
  rw [hl.render_eq]
  rcases h with hfinite | hword
  · obtain ⟨-, c, rest, hrender, hc⟩ := numberText_chars hfinite
    refine ⟨c, rest, hrender, ?_⟩
    rcases hc with hc | rfl
    · simp [startsOperand, hc]
    · rfl
  · rw [hword]
    exact ⟨'-', "inf".toList, by decide +kernel, rfl⟩

/-- A literal that does not lead goes by a name. -/
theorem Literal.Legible.render_of_not_leads {l : Literal} (hl : l.Legible) (h : ¬l.Leads) :
    l.render = "inf".toList ∨ l.render = "NaN".toList := by
  obtain ⟨hfinite, hminus⟩ := not_or.mp h
  have hlt := hl.word.lt
  rw [hl.render_eq]
  rcases numberText_name hl.word (Nat.le_of_not_lt hfinite) with ⟨hm, htext⟩ | ⟨-, htext⟩
  · rw [htext, if_neg]
    · exact .inl rfl
    · intro hsign
      rw [Nat.mod_eq_sub_mod hsign, Nat.mod_eq_of_lt (by omega)] at hm
      omega
  · exact .inr htext

/-- What is known of the text of an operand: it is a piece that does not start with a
parenthesis. -/
theorem Function.renderOperand_spec {x : Operand} (hx : x.Legible)
    (hshow : ∀ id ∈ x.value?, f.Shows scope id) :
    Piece (f.renderOperand x) ∧ (f.renderOperand x).head? ≠ some '(' := by
  cases x with
  | value id =>
    obtain ⟨name, hname, hword, _⟩ := hshow id rfl
    rw [renderOperand, renderValue_eq hname]
    exact ⟨hword.piece, by simp⟩
  | tupleElement tuple index =>
    obtain ⟨name, hname, hword, _⟩ := hshow tuple rfl
    rw [renderOperand, renderElement, renderValue_eq hname]
    exact ⟨hword.piece.append (piece_bracketed (isPlainChar_toDigits index)), by simp⟩
  | literal l =>
    have hl : l.Legible := hx
    obtain ⟨hne, hchars⟩ := hl.render_spec
    exact ⟨piece_of_plain hne fun c hc => (hchars c hc).1, fun hhead =>
      absurd (hchars '(' (List.mem_of_head? hhead)).1 (by decide)⟩

/-- The first character of an operand that leads tells that it is one. -/
theorem Function.renderOperand_head {x : Operand} (hx : x.Legible) (hleads : x.Leads)
    (hshow : ∀ id ∈ x.value?, f.Shows scope id) :
    ∃ c rest, f.renderOperand x = c :: rest ∧ startsOperand c = true := by
  cases x with
  | value id =>
    obtain ⟨name, hname, -, -⟩ := hshow id rfl
    rw [renderOperand, renderValue_eq hname]
    exact ⟨'%', name.toList, rfl, rfl⟩
  | tupleElement tuple index =>
    obtain ⟨name, hname, -, -⟩ := hshow tuple rfl
    rw [renderOperand, renderElement, renderValue_eq hname]
    exact ⟨'%', _, rfl, rfl⟩
  | literal l => exact Literal.Leads.head_eq hleads hx

namespace OperandText

/-- A name is read back. -/
theorem ofText_value (h : IsWord name) (hs : trim s = '%' :: name.toList) :
    ofText s = .ok (.value name) := by
  have hopen : cutAtFirst '[' name.toList = none :=
    cutAtFirst_eq_none_iff.mpr (h.notMem (by decide))
  have htrim := h.solid.trim_eq
  obtain ⟨c, cs, hc⟩ := List.exists_cons_of_ne_nil h.toList_ne_nil
  rw [hc] at hs hopen htrim
  simp only [ofText, hs, hopen, htrim]
  rw [← hc, String.ofList_toList]

/-- A component of a tuple is read back. -/
theorem ofText_element {index : Nat} (h : IsWord name) (hindex : index < indexBound)
    (hs : trim s = '%' :: name.toList ++ '[' :: (Nat.toDigits 10 index ++ [']'])) :
    ofText s = .ok (.element name index) := by
  have hopen : cutAtFirst '[' (name.toList ++ '[' :: (Nat.toDigits 10 index ++ [']'])) =
      some (name.toList, Nat.toDigits 10 index ++ [']']) :=
    cutAtFirst_append (h.notMem (by decide)) _
  have hread : ofElement name.toList (Nat.toDigits 10 index ++ [']']) =
      .ok (.element name index) := by
    simp [ofElement, h.solid.trim_eq, (solid_toDigits index).trim_eq, readIndex?_toDigits hindex,
      h.ne_empty]
  obtain ⟨c, cs, hc⟩ := List.exists_cons_of_ne_nil h.toList_ne_nil
  rw [List.cons_append] at hs
  rw [hc, List.cons_append] at hs hopen
  simp only [ofText, hs, hopen]
  rw [← hc, hread]

/-- A number is read as it is spelled. -/
theorem ofText_number {l : Literal} (h : l.Legible) (hs : trim s = l.render) :
    ofText s = .ok (.number (UInt32.ofNat (spelledWord (leValue l.bytes)))) := by
  have hread := readNumber?_spelled h.word
  obtain ⟨hne, hchars⟩ := h.render_spec
  rw [h.render_eq] at hs hne hchars
  obtain ⟨c, rest, hrender⟩ := List.exists_cons_of_ne_nil hne
  -- a number does not start like a name, so the last alternative is taken
  have hsign : c ≠ '%' := (hchars c (hrender ▸ List.mem_cons_self)).2
  rw [hrender] at hs hread
  rw [ofText, hs]
  split
  · next he => simp at he
  · next he => exact absurd (List.cons.inj he).1 hsign
  · next he => exact absurd (List.cons.inj he).1 hsign
  · rw [hread]

end OperandText

/-- **An operand is read back** as it is spelled. -/
theorem Operand.ofText_eq {x : Operand} (hx : x.Legible)
    (hshow : ∀ id ∈ x.value?, f.Shows scope id) (hs : trim s = f.renderOperand x) :
    Operand.ofText scope s = .ok x.spelled := by
  cases x with
  | value id =>
    obtain ⟨name, hname, hword, hresolve⟩ := hshow id rfl
    rw [Function.renderOperand, Function.renderValue_eq hname] at hs
    rw [ofText, OperandText.ofText_value hword hs]
    simp [Except.bind, OperandText.resolve, hresolve, Except.map, spelled]
  | tupleElement tuple index =>
    obtain ⟨name, hname, hword, hresolve⟩ := hshow tuple rfl
    rw [Function.renderOperand, Function.renderElement, Function.renderValue_eq hname] at hs
    rw [ofText, OperandText.ofText_element hword hx hs]
    simp [Except.bind, OperandText.resolve, hresolve, Except.map, spelled]
  | literal l =>
    have hl : l.Legible := hx
    rw [ofText, OperandText.ofText_number hl hs, spelled, hl.spelled_eq]
    rfl

/-- Operands that can be read are legible, lead, and are spelled as they are. -/
theorem Operand.Printable.legible {x : Operand} (h : x.Printable) :
    x.Legible ∧ x.Leads ∧ x.spelled = x := by
  cases x with
  | value id => exact ⟨trivial, trivial, rfl⟩
  | tupleElement tuple index => exact ⟨h, trivial, rfl⟩
  | literal l =>
    have hl : l.Plain := h
    exact ⟨hl.legible, hl.leads, congrArg Operand.literal hl.spelled_eq⟩

end Operands

/-! ## Tuple constructions -/

namespace TupleField

mutual

/-- **`Printable`** -- a field whose operands can be read. -/
def Printable : TupleField → Prop
  | .operand x => x.Printable
  | .tuple fields => AllPrintable fields

/-- Several fields whose operands can be read. -/
def AllPrintable : List TupleField → Prop
  | [] => True
  | field :: rest => field.Printable ∧ AllPrintable rest

end

mutual

/-- Decides whether the operands of a field can be read. -/
def decPrintable : (field : TupleField) → Decidable field.Printable
  | .operand x => inferInstanceAs (Decidable x.Printable)
  | .tuple fields => decAllPrintable fields

/-- Decides whether the operands of several fields can be read. -/
def decAllPrintable : (fields : List TupleField) → Decidable (AllPrintable fields)
  | [] => isTrue trivial
  | field :: rest => @instDecidableAnd _ _ (decPrintable field) (decAllPrintable rest)

end

instance : DecidablePred Printable := decPrintable

mutual

/-- **`Legible`** -- a field whose operands are legible. -/
def Legible : TupleField → Prop
  | .operand x => x.Legible
  | .tuple fields => AllLegible fields

/-- Several fields whose operands are legible. -/
def AllLegible : List TupleField → Prop
  | [] => True
  | field :: rest => field.Legible ∧ AllLegible rest

end

mutual

/-- The field that its text spells. -/
def spelled : TupleField → TupleField
  | .operand x => .operand x.spelled
  | .tuple fields => .tuple (spelledAll fields)

/-- The fields that their texts spell. -/
def spelledAll : List TupleField → List TupleField
  | [] => []
  | field :: rest => field.spelled :: spelledAll rest

end

mutual

/-- Fields that can be read are legible, and spelled as they are. -/
theorem Printable.legible : (field : TupleField) → field.Printable →
    field.Legible ∧ field.spelled = field
  | .operand _, h => ⟨(Operand.Printable.legible h).1,
      congrArg TupleField.operand (Operand.Printable.legible h).2.2⟩
  | .tuple fields, h => ⟨(AllPrintable.legible fields h).1,
      congrArg TupleField.tuple (AllPrintable.legible fields h).2⟩

theorem AllPrintable.legible : (fields : List TupleField) → AllPrintable fields →
    AllLegible fields ∧ spelledAll fields = fields
  | [], _ => ⟨trivial, rfl⟩
  | field :: rest, h => by
    obtain ⟨hfield, hspelled⟩ := Printable.legible field h.1
    obtain ⟨hrest, hspelledAll⟩ := AllPrintable.legible rest h.2
    exact ⟨⟨hfield, hrest⟩, by rw [spelledAll, hspelled, hspelledAll]⟩

end

mutual

/-- The outline that spells a field. -/
def nest (f : Function) : TupleField → Nest
  | .operand x => .leaf (f.renderOperand x)
  | .tuple fields => .group (nestAll f fields)

/-- The outlines that spell several fields. -/
def nestAll (f : Function) : List TupleField → List Nest
  | [] => []
  | field :: rest => field.nest f :: nestAll f rest

end

section

variable {f : Function} {scope : Scope}

mutual

/-- A field is written as its outline. -/
theorem spell_nest : (field : TupleField) → (field.nest f).spell = f.renderField field
  | .operand _ => rfl
  | .tuple fields => by rw [nest, Nest.spell, spellAll_nestAll fields, Function.renderField]

theorem spellAll_nestAll :
    (fields : List TupleField) → Nest.spellAll (nestAll f fields) = f.renderFields fields
  | [] => rfl
  | field :: rest => by
    rw [nestAll, Nest.spellAll, spell_nest field, spellAll_nestAll rest, Function.renderFields]

end

mutual

theorem sound_nest : (field : TupleField) → field.Legible →
    (∀ id ∈ field.values, f.Shows scope id) → (field.nest f).Sound
  | .operand _, hx, hshow => Function.renderOperand_spec hx fun id hid =>
      hshow id (by simpa [values] using hid)
  | .tuple fields, hx, hshow => allSound_nestAll fields hx hshow

theorem allSound_nestAll : (fields : List TupleField) → AllLegible fields →
    (∀ id ∈ valuesList fields, f.Shows scope id) → Nest.AllSound (nestAll f fields)
  | [], _, _ => trivial
  | field :: rest, hx, hshow => by
    rw [valuesList, List.forall_mem_append] at hshow
    exact ⟨sound_nest field hx.1 hshow.1, allSound_nestAll rest hx.2 hshow.2⟩

end

mutual

/-- **A field is read back** from its outline, as it is spelled. -/
theorem ofNest_nest : (field : TupleField) → field.Legible →
    (∀ id ∈ field.values, f.Shows scope id) → ofNest scope (field.nest f) = .ok field.spelled
  | .operand x, hx, hshow => by
    have hshow : ∀ id ∈ x.value?, f.Shows scope id := fun id hid =>
      hshow id (by simpa [values] using hid)
    have htrim := (Function.renderOperand_spec hx hshow).1.solid.trim_eq
    rw [nest, ofNest, Operand.ofText_eq hx hshow htrim]
    rfl
  | .tuple fields, hx, hshow => by
    rw [nest, ofNest, ofNests_nestAll fields hx hshow]
    rfl

theorem ofNests_nestAll : (fields : List TupleField) → AllLegible fields →
    (∀ id ∈ valuesList fields, f.Shows scope id) →
    ofNests scope (nestAll f fields) = .ok (spelledAll fields)
  | [], _, _ => rfl
  | field :: rest, hx, hshow => by
    rw [valuesList, List.forall_mem_append] at hshow
    rw [nestAll, ofNests, ofNest_nest field hx.1 hshow.1, ofNests_nestAll rest hx.2 hshow.2]
    rfl

end

end

end TupleField

/-! ## Return expressions -/

namespace ReturnExpr

mutual

/-- The outline that spells a return expression. -/
def nest (f : Function) : ReturnExpr → Nest
  | .value id => .leaf (f.renderValue id)
  | .tuple elements => .group (nestAll f elements)

/-- The outlines that spell several return expressions. -/
def nestAll (f : Function) : List ReturnExpr → List Nest
  | [] => []
  | element :: rest => element.nest f :: nestAll f rest

end

section

variable {f : Function} {scope : Scope}

mutual

/-- A return expression is written as its outline. -/
theorem spell_nest : (ret : ReturnExpr) → (ret.nest f).spell = f.renderReturn ret
  | .value _ => rfl
  | .tuple elements => by rw [nest, Nest.spell, spellAll_nestAll elements, Function.renderReturn]

theorem spellAll_nestAll :
    (rets : List ReturnExpr) → Nest.spellAll (nestAll f rets) = f.renderReturns rets
  | [] => rfl
  | ret :: rest => by
    rw [nestAll, Nest.spellAll, spell_nest ret, spellAll_nestAll rest, Function.renderReturns]

end

mutual

theorem sound_nest : (ret : ReturnExpr) → (∀ id ∈ ret.values, f.Shows scope id) →
    (ret.nest f).Sound
  | .value id, hshow => by
    obtain ⟨name, hname, hword, _⟩ := hshow id (by simp [values])
    rw [nest, Function.renderValue_eq hname]
    exact ⟨hword.piece, by simp⟩
  | .tuple elements, hshow => allSound_nestAll elements hshow

theorem allSound_nestAll : (rets : List ReturnExpr) → (∀ id ∈ valuesList rets, f.Shows scope id) →
    Nest.AllSound (nestAll f rets)
  | [], _ => trivial
  | ret :: rest, hshow => by
    rw [valuesList, List.forall_mem_append] at hshow
    exact ⟨sound_nest ret hshow.1, allSound_nestAll rest hshow.2⟩

end

mutual

/-- **A return expression is read back** from its outline. -/
theorem ofNest_nest : (ret : ReturnExpr) → (∀ id ∈ ret.values, f.Shows scope id) →
    ofNest scope (ret.nest f) = .ok ret
  | .value id, hshow => by
    obtain ⟨name, hname, hword, hresolve⟩ := hshow id (by simp [values])
    rw [nest, ofNest, Function.renderValue_eq hname, valueName_eq hword hword.piece.solid.trim_eq,
      hresolve]
    rfl
  | .tuple elements, hshow => by
    rw [nest, ofNest, ofNests_nestAll elements hshow]
    rfl

theorem ofNests_nestAll : (rets : List ReturnExpr) → (∀ id ∈ valuesList rets, f.Shows scope id) →
    ofNests scope (nestAll f rets) = .ok rets
  | [], _ => rfl
  | ret :: rest, hshow => by
    rw [valuesList, List.forall_mem_append] at hshow
    rw [nestAll, ofNests, ofNest_nest ret hshow.1, ofNests_nestAll rest hshow.2]
    rfl

end

end

end ReturnExpr

section Returns

variable {f : Function} {scope : Scope} {ret : ReturnExpr}

/-- A return expression is written as a piece. -/
theorem Function.piece_renderReturn (hshow : ∀ id ∈ ret.values, f.Shows scope id) :
    Piece (f.renderReturn ret) := by
  rw [← ReturnExpr.spell_nest]
  exact Nest.Sound.piece_spell _ (ret.sound_nest hshow)

/-- **What follows `return`** is read back. -/
theorem readReturn_eq (hshow : ∀ id ∈ ret.values, f.Shows scope id) {s : List Char}
    (hs : trim s = f.renderReturn ret) : readReturn scope s = .ok ret := by
  have hsolid := (Function.piece_renderReturn hshow).solid
  have hlast : ∀ c, (f.renderReturn ret).reverse.head? = some c → (c == ';') = false := by
    intro c hc
    rw [List.head?_reverse] at hc
    cases ret with
    | value id =>
      obtain ⟨name, hname, hword, _⟩ := hshow id (by simp [ReturnExpr.values])
      rw [Function.renderReturn, Function.renderValue_eq hname] at hc
      refine beq_false_of_ne fun he => ?_
      exact absurd (hword.plain c (List.mem_of_getLast? hc)) (by rw [he]; decide)
    | tuple elements =>
      rw [Function.renderReturn, ← List.cons_append, List.getLast?_concat] at hc
      obtain rfl := Option.some.inj hc
      rfl
  -- there is no semicolon to drop
  have hnone : ∀ c ∈ ([] : List Char), (c == ';') = true := by simp
  have hdrop : (f.renderReturn ret).reverse.dropWhile (· == ';') = (f.renderReturn ret).reverse :=
    dropWhile_append_of_boundary hnone hlast
  have hread := Nest.ofText_eq false (ret.nest f) (ret.sound_nest hshow)
    (hsolid.trim_eq.trans (ret.spell_nest).symm)
  rw [readReturn, hs, hdrop, List.reverse_reverse]
  simp [hsolid.ne_nil, hread, ReturnExpr.ofNest_nest ret hshow]

end Returns

end TensorGraph
