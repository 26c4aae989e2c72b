/-
# TensorGraph.Proofs.Codec -- the binary form is faithful and canonical

A reader and a writer belong together when the reader takes exactly the written forms of values
that fit from the front of the bytes (`Codes`): what was written is read back, whatever follows
it, and whatever is read was written in the only way there is. This is passed on from words to
lists, texts, expressions and functions. Trees are read level by level; as many levels as there
are bytes suffice, because every level takes bytes of its own (`codes_nested`).
-/
import TensorGraph.Binary.Decode
import TensorGraph.Binary.Encode
import TensorGraph.Proofs.Storable

namespace TensorGraph

open scoped CoreInstances

namespace Binary

variable {α β γ : Type} {bytes rest : List UInt8}

/-! ## Running readers -/

theorem bind_eq_some_iff {x : ByteReader α} {f : α → ByteReader β} {b : β} :
    (x >>= f) bytes = some (b, rest) ↔
      ∃ a mid, x bytes = some (a, mid) ∧ f a mid = some (b, rest) := by
  show (x bytes).bind (fun p => f p.1 p.2) = _ ↔ _
  simp [Option.bind_eq_some_iff]

theorem map_eq_some_iff {x : ByteReader α} {f : α → β} {b : β} :
    (f <$> x) bytes = some (b, rest) ↔ ∃ a, x bytes = some (a, rest) ∧ f a = b := by
  show (x bytes).bind (fun p => some (f p.1, p.2)) = _ ↔ _
  simp only [Option.bind_eq_some_iff, Option.some.injEq, Prod.mk.injEq, Prod.exists]
  constructor
  · rintro ⟨a, mid, hx, hf, rfl⟩
    exact ⟨a, hx, hf⟩
  · rintro ⟨a, hx, hf⟩
    exact ⟨a, rest, hx, hf, rfl⟩

theorem pure_eq_some_iff {a b : α} :
    (pure a : ByteReader α) bytes = some (b, rest) ↔ a = b ∧ bytes = rest := by
  show some (a, bytes) = some (b, rest) ↔ _
  simp

@[simp] theorem failure_eq_none : (failure : ByteReader α) bytes = none := rfl

/-! ## Readers and writers that belong together -/

/-- **`Codes`** -- a reader takes exactly the written forms of values that fit. -/
def Codes (read : ByteReader α) (write : α → List UInt8) (fits : α → Prop) : Prop :=
  ∀ bytes x rest, read bytes = some (x, rest) ↔ fits x ∧ bytes = write x ++ rest

section Codes

variable {read : ByteReader α} {write : α → List UInt8} {fits : α → Prop}

theorem Codes.bind_iff (h : Codes read write fits) {f : α → ByteReader β} {b : β} :
    (read >>= f) bytes = some (b, rest) ↔
      ∃ a mid, (fits a ∧ bytes = write a ++ mid) ∧ f a mid = some (b, rest) := by
  rw [bind_eq_some_iff]
  simp only [h _ _ _]

theorem Codes.map_iff (h : Codes read write fits) {f : α → β} {b : β} :
    (f <$> read) bytes = some (b, rest) ↔
      ∃ a, (fits a ∧ bytes = write a ++ rest) ∧ f a = b := by
  rw [map_eq_some_iff]
  simp only [h _ _ _]

/-- What is written is read back. -/
theorem Codes.read_write (h : Codes read write fits) {x : α} (hx : fits x) (rest : List UInt8) :
    read (write x ++ rest) = some (x, rest) := (h _ _ _).mpr ⟨hx, rfl⟩

/-- **Two readers in a row**, for a value that is made of two parts. -/
theorem Codes.pair {first : ByteReader β} {writeFirst : β → List UInt8} {fitsFirst : β → Prop}
    (h : Codes first writeFirst fitsFirst) (h' : Codes read write fits) (make : β → α → γ)
    (left : γ → β) (right : γ → α) (hmake : ∀ z, make (left z) (right z) = z)
    (hleft : ∀ x y, left (make x y) = x) (hright : ∀ x y, right (make x y) = y) :
    Codes (do return make (← first) (← read)) (fun z => writeFirst (left z) ++ write (right z))
      (fun z => fitsFirst (left z) ∧ fits (right z)) := by
  intro bytes z rest
  rw [h.bind_iff]
  simp only [h'.bind_iff, pure_eq_some_iff, List.append_assoc]
  constructor
  · rintro ⟨x, _, ⟨hx, rfl⟩, y, _, ⟨hy, rfl⟩, rfl, rfl⟩
    rw [hleft, hright]
    exact ⟨⟨hx, hy⟩, rfl⟩
  · rintro ⟨⟨hx, hy⟩, rfl⟩
    exact ⟨_, _, ⟨hx, rfl⟩, _, _, ⟨hy, rfl⟩, hmake z, rfl⟩

end Codes

/-! ## Words -/

theorem codes_byte : Codes byte (fun b => [b]) fun _ => True := by
  intro bytes b rest
  cases bytes with
  | nil => simp [byte]
  | cons c cs => simp [byte]

section Many

variable {item : ByteReader α} {write : α → List UInt8} {fits : α → Prop}

/-- Items that are taken one after the other were written one after the other. -/
theorem many_sound (h : ∀ bytes x rest, item bytes = some (x, rest) →
      fits x ∧ bytes = write x ++ rest) {count : Nat} {xs : List α}
    (hread : many item count bytes = some (xs, rest)) :
    xs.length = count ∧ (∀ x ∈ xs, fits x) ∧ bytes = xs.flatMap write ++ rest := by
  induction count generalizing bytes xs with
  | zero =>
    obtain ⟨rfl, rfl⟩ := pure_eq_some_iff.mp hread
    simp
  | succ count ih =>
    obtain ⟨x, mid, hx, hread⟩ := bind_eq_some_iff.mp hread
    obtain ⟨xs', mid', hxs, hread⟩ := bind_eq_some_iff.mp hread
    obtain ⟨rfl, rfl⟩ := pure_eq_some_iff.mp hread
    obtain ⟨hfits, rfl⟩ := h _ _ _ hx
    obtain ⟨rfl, hall, rfl⟩ := ih hxs
    refine ⟨rfl, List.forall_mem_cons.mpr ⟨hfits, hall⟩, ?_⟩
    rw [List.flatMap_cons, List.append_assoc]

/-- Items that were written one after the other are read back. -/
theorem many_complete {xs : List α}
    (h : ∀ x ∈ xs, ∀ rest, item (write x ++ rest) = some (x, rest)) (rest : List UInt8) :
    many item xs.length (xs.flatMap write ++ rest) = some (xs, rest) := by
  induction xs with
  | nil => rfl
  | cons x xs ih =>
    obtain ⟨hx, hxs⟩ := List.forall_mem_cons.mp h
    refine bind_eq_some_iff.mpr ⟨x, xs.flatMap write ++ rest, ?_, ?_⟩
    · rw [List.flatMap_cons, List.append_assoc]
      exact hx _
    · exact bind_eq_some_iff.mpr ⟨xs, rest, ih hxs, rfl⟩

end Many

/-- So many bytes. -/
theorem codes_bytes (count : Nat) :
    Codes (many byte count) id fun bs => bs.length = count := by
  intro bytes bs rest
  constructor
  · intro h
    obtain ⟨hlen, _, hbytes⟩ := many_sound (fun _ _ _ => (codes_byte _ _ _).mp) h
    rw [List.flatMap_singleton'] at hbytes
    exact ⟨hlen, hbytes⟩
  · rintro ⟨rfl, rfl⟩
    exact many_byte bs rest

/-- **Words** of so many bytes. -/
theorem codes_word (width : Nat) : Codes (word width) (leBytes width) (· < 256 ^ width) := by
  intro bytes n rest
  rw [word, (codes_bytes width).map_iff]
  constructor
  · rintro ⟨bs, ⟨rfl, rfl⟩, rfl⟩
    exact ⟨leValue_lt bs, by rw [leBytes_leValue]; rfl⟩
  · rintro ⟨hn, rfl⟩
    exact ⟨leBytes width n, ⟨length_leBytes width n, rfl⟩, leValue_leBytes hn⟩

theorem codes_nat : Codes nat ofNat (· < indexBound) := codes_word 8

theorem codes_tag : Codes tag ofTag (· < 256 ^ (4 : Nat)) := codes_word 4

/-- A mark that fits decides what is read behind it. -/
theorem read_tag {mark : Nat} (h : mark < 256 ^ (4 : Nat)) (f : Nat → ByteReader α) :
    (tag >>= f) (ofTag mark ++ bytes) = f mark bytes := by
  show (tag (ofTag mark ++ bytes)).bind (fun p => f p.1 p.2) = _
  rw [codes_tag.read_write h, Option.bind_some]

theorem codes_valueId : Codes valueId ofValueId ValueId.Storable := by
  rintro bytes ⟨n⟩ rest
  rw [valueId, (codes_word 4).map_iff]
  simp [ValueId.Storable, ofValueId, Json.idBound]

theorem codes_bool : Codes bool ofBool fun _ => True := by
  intro bytes b rest
  rw [bool, codes_byte.bind_iff]
  constructor
  · rintro ⟨c, mid, ⟨_, rfl⟩, h⟩
    split at h
    · obtain ⟨rfl, rfl⟩ := pure_eq_some_iff.mp h
      exact ⟨trivial, rfl⟩
    · obtain ⟨rfl, rfl⟩ := pure_eq_some_iff.mp h
      exact ⟨trivial, rfl⟩
    · simp at h
  · rintro ⟨_, rfl⟩
    cases b <;> exact ⟨_, rest, ⟨trivial, rfl⟩, rfl⟩

/-! ## Lists and texts -/

section Lists

variable {item : ByteReader α} {write : α → List UInt8} {fits : α → Prop}

theorem list_sound (h : ∀ bytes x rest, item bytes = some (x, rest) →
      fits x ∧ bytes = write x ++ rest) {xs : List α}
    (hread : list item bytes = some (xs, rest)) :
    ListFits fits xs ∧ bytes = ofList write xs ++ rest := by
  rw [Binary.list, codes_nat.bind_iff] at hread
  obtain ⟨n, mid, ⟨hn, rfl⟩, hread⟩ := hread
  obtain ⟨rfl, hall, rfl⟩ := many_sound h hread
  refine ⟨⟨hn, hall⟩, ?_⟩
  rw [ofList, List.append_assoc]

theorem list_complete {xs : List α} (hlen : xs.length < indexBound)
    (h : ∀ x ∈ xs, ∀ rest, item (write x ++ rest) = some (x, rest)) (rest : List UInt8) :
    list item (ofList write xs ++ rest) = some (xs, rest) := by
  rw [Binary.list, codes_nat.bind_iff]
  refine ⟨xs.length, xs.flatMap write ++ rest, ⟨hlen, ?_⟩, many_complete h rest⟩
  rw [ofList, List.append_assoc]

/-- **Lists** are their length and their elements. -/
theorem Codes.list (h : Codes item write fits) :
    Codes (list item) (ofList write) (ListFits fits) := by
  intro bytes xs rest
  constructor
  · exact list_sound fun bytes x rest => (h bytes x rest).mp
  · rintro ⟨⟨hlen, hall⟩, rfl⟩
    exact list_complete hlen (fun x hx => h.read_write (hall x hx)) rest

end Lists

theorem codes_octets :
    Codes (list byte) (ofList fun b => [b]) fun bs => bs.length < indexBound := by
  intro bytes bs rest
  rw [codes_byte.list bytes bs rest, ListFits]
  simp

theorem fromUTF8?_eq_some_iff {bs : ByteArray} {s : String} :
    String.fromUTF8? bs = some s ↔ s.toUTF8 = bs := by
  rw [String.fromUTF8?]
  split
  · next h =>
    rw [Option.some_inj]
    constructor
    · rintro rfl
      rfl
    · rintro rfl
      rfl
  · next h =>
    simp only [reduceCtorEq, false_iff]
    rintro rfl
    exact h s.isValidUTF8

/-- **Texts** are their length and their bytes. -/
theorem codes_text : Codes text ofText TextFits := by
  intro bytes s rest
  rw [text, codes_octets.bind_iff]
  have hlen : s.toUTF8.data.toList.length = s.utf8ByteSize := rfl
  have hwrite : ofText s = ofList (fun b => [b]) s.toUTF8.data.toList := by
    rw [ofText, ofList, List.flatMap_singleton']
  constructor
  · rintro ⟨bs, mid, ⟨hbs, rfl⟩, h⟩
    cases hs : String.fromUTF8? ⟨bs.toArray⟩ with
    | none =>
      rw [hs] at h
      cases h
    | some found =>
      rw [hs] at h
      obtain ⟨rfl, rfl⟩ := pure_eq_some_iff.mp h
      have hdata : found.toUTF8.data.toList = bs := by
        rw [fromUTF8?_eq_some_iff.mp hs]
      rw [TextFits, ← hlen, hwrite, hdata]
      exact ⟨hbs, rfl⟩
  · rintro ⟨hfits, rfl⟩
    refine ⟨s.toUTF8.data.toList, rest, ⟨hfits, by rw [hwrite]⟩, ?_⟩
    have hs : String.fromUTF8? ⟨s.toUTF8.data.toList.toArray⟩ = some s :=
      fromUTF8?_eq_some_iff.mpr rfl
    rw [hs]
    rfl

/-! ## Trees -/

/-- **`TreeForm`** -- trees whose leaves are marked with 0 and whose lists of trees with 1, with
their readers for so many levels. -/
structure TreeForm (levels : Nat → ByteReader β) (write : β → List UInt8) (fits : β → Prop)
    (leaf : ByteReader α) (writeLeaf : α → List UInt8) (fitsLeaf : α → Prop) (ofLeaf : α → β)
    (ofTrees : List β → β) : Prop where
  /-- Leaves are read and written. -/
  codes_leaf : Codes leaf writeLeaf fitsLeaf
  /-- A tree is a leaf or a list of trees. -/
  eq_cases : ∀ x, (∃ a, x = ofLeaf a) ∨ ∃ xs, x = ofTrees xs
  /-- Without levels nothing is read. -/
  levels_zero : levels 0 = failure
  /-- Each level reads a mark and a leaf or a list of the next level. -/
  levels_succ : ∀ n, levels (n + 1) = do
    match ← tag with
    | 0 => ofLeaf <$> leaf
    | 1 => ofTrees <$> list (levels n)
    | _ => failure
  /-- A leaf is written behind its mark. -/
  write_leaf : ∀ a, write (ofLeaf a) = ofTag 0 ++ writeLeaf a
  /-- A list is written behind its mark. -/
  write_trees : ∀ xs, write (ofTrees xs) = ofTag 1 ++ ofList write xs
  /-- A leaf fits as a tree. -/
  fits_leaf : ∀ a, fits (ofLeaf a) ↔ fitsLeaf a
  /-- A list of trees fits as a tree. -/
  fits_trees : ∀ xs, fits (ofTrees xs) ↔ ListFits fits xs

section Trees

variable {levels : Nat → ByteReader β} {write : β → List UInt8} {fits : β → Prop}
  {leaf : ByteReader α} {writeLeaf : α → List UInt8} {fitsLeaf : α → Prop} {ofLeaf : α → β}
  {ofTrees : List β → β}

/-- Whatever the levels read was written. -/
theorem TreeForm.sound (h : TreeForm levels write fits leaf writeLeaf fitsLeaf ofLeaf ofTrees)
    (n : Nat) (bytes : List UInt8) (x : β) (rest : List UInt8)
    (hread : levels n bytes = some (x, rest)) : fits x ∧ bytes = write x ++ rest := by
  induction n generalizing bytes x rest with
  | zero =>
    rw [h.levels_zero] at hread
    cases hread
  | succ n ih =>
    rw [h.levels_succ, codes_tag.bind_iff] at hread
    obtain ⟨mark, mid, ⟨_, rfl⟩, hread⟩ := hread
    split at hread
    · rw [h.codes_leaf.map_iff] at hread
      obtain ⟨a, ⟨ha, rfl⟩, rfl⟩ := hread
      rw [h.write_leaf, List.append_assoc]
      exact ⟨(h.fits_leaf a).mpr ha, rfl⟩
    · obtain ⟨xs, hxs, rfl⟩ := map_eq_some_iff.mp hread
      obtain ⟨hfits, rfl⟩ := list_sound ih hxs
      rw [h.write_trees, List.append_assoc]
      exact ⟨(h.fits_trees xs).mpr hfits, rfl⟩
    · cases hread

theorem length_le_flatMap (write : β → List UInt8) {xs : List β} {x : β} (hx : x ∈ xs) :
    (write x).length ≤ (xs.flatMap write).length := by
  obtain ⟨before, after, rfl⟩ := List.append_of_mem hx
  rw [List.flatMap_append, List.flatMap_cons, List.length_append, List.length_append]
  omega

/-- **Levels suffice** when there are as many as bytes: every level takes bytes of its own. -/
theorem TreeForm.complete (h : TreeForm levels write fits leaf writeLeaf fitsLeaf ofLeaf ofTrees)
    {n : Nat} {x : β} (hx : fits x) (hn : (write x).length ≤ n) (rest : List UInt8) :
    levels n (write x ++ rest) = some (x, rest) := by
  induction n generalizing x rest with
  | zero =>
    rcases h.eq_cases x with ⟨a, rfl⟩ | ⟨xs, rfl⟩
    · simp [h.write_leaf, ofTag] at hn
    · simp [h.write_trees, ofTag] at hn
  | succ n ih =>
    rw [h.levels_succ, codes_tag.bind_iff]
    rcases h.eq_cases x with ⟨a, rfl⟩ | ⟨xs, rfl⟩
    · refine ⟨0, writeLeaf a ++ rest, ⟨by decide, ?_⟩, ?_⟩
      · rw [h.write_leaf, List.append_assoc]
      · exact h.codes_leaf.map_iff.mpr ⟨a, ⟨(h.fits_leaf a).mp hx, rfl⟩, rfl⟩
    · obtain ⟨hlen, hall⟩ := (h.fits_trees xs).mp hx
      rw [h.write_trees, ofList, List.length_append, List.length_append, ofTag,
        length_leBytes] at hn
      refine ⟨1, ofList write xs ++ rest, ⟨by decide, ?_⟩, ?_⟩
      · rw [h.write_trees, List.append_assoc]
      · refine map_eq_some_iff.mpr ⟨xs, list_complete hlen (fun x hx rest => ?_) rest, rfl⟩
        have hle := length_le_flatMap write hx
        exact ih (hall x hx) (by omega) rest

/-- **Trees** are read and written. -/
theorem TreeForm.codes_nested
    (h : TreeForm levels write fits leaf writeLeaf fitsLeaf ofLeaf ofTrees) :
    Codes (nested levels) write fits := by
  intro bytes x rest
  constructor
  · exact h.sound bytes.length bytes x rest
  · rintro ⟨hx, rfl⟩
    exact h.complete hx (by rw [List.length_append]; omega) rest

end Trees

/-! ## Types and literals -/

theorem codes_dtype : Codes dtype ofDType fun _ => True := by
  intro bytes d rest
  rw [dtype, codes_tag.bind_iff]
  constructor
  · rintro ⟨n, mid, ⟨_, rfl⟩, h⟩
    cases hd : DType.all[n]? with
    | none =>
      rw [hd] at h
      cases h
    | some found =>
      rw [hd] at h
      obtain ⟨rfl, rfl⟩ := pure_eq_some_iff.mp h
      obtain ⟨hn, rfl⟩ := List.getElem?_eq_some_iff.mp hd
      have hnodup : DType.all.Nodup := by decide
      rw [ofDType, hnodup.idxOf_getElem]
      exact ⟨trivial, rfl⟩
  · rintro ⟨_, rfl⟩
    refine ⟨DType.all.idxOf d, rest, ⟨by cases d <;> decide, rfl⟩, ?_⟩
    cases d <;> rfl

theorem codes_spec : Codes spec ofSpec TensorSpec.Storable := by
  intro bytes t rest
  refine (codes_dtype.pair codes_nat.list (fun d dims => ⟨d, ⟨dims⟩⟩) TensorSpec.dtype
    (fun t => t.shape.dims) (fun _ => rfl) (fun _ _ => rfl) (fun _ _ => rfl) bytes t rest).trans ?_
  simp [TensorSpec.Storable, ofSpec]

theorem treeForm_type :
    TreeForm typeWithin ofType ValueType.Storable spec ofSpec TensorSpec.Storable
      .tensor .tuple where
  codes_leaf := codes_spec
  eq_cases := fun ty => by cases ty <;> simp
  levels_zero := rfl
  levels_succ := fun _ => rfl
  write_leaf := fun _ => rfl
  write_trees := fun elements => by rw [ofType, ofTypes_eq_flatMap, ofList]
  fits_leaf := fun _ => Iff.rfl
  fits_trees := fun _ => ValueType.storable_tuple

/-- **Types** are read and written. -/
theorem codes_type : Codes type ofType ValueType.Storable := treeForm_type.codes_nested

theorem codes_literal : Codes literal ofLiteral Literal.Storable :=
  codes_spec.pair codes_octets Literal.mk Literal.spec Literal.bytes (fun _ => rfl) (fun _ _ => rfl)
    fun _ _ => rfl

/-! ## Expressions -/

/-- A component of a tuple is its tuple and its index. -/
theorem element_iff {make : ValueId → Nat → α} {x : α} :
    (do return make (← valueId) (← nat) : ByteReader α) bytes = some (x, rest) ↔
      ∃ tuple index, (tuple.Storable ∧ index < indexBound) ∧
        bytes = ofElement tuple index ++ rest ∧ make tuple index = x := by
  rw [codes_valueId.bind_iff]
  simp only [codes_nat.bind_iff, pure_eq_some_iff, ofElement, List.append_assoc]
  constructor
  · rintro ⟨tuple, _, ⟨ht, rfl⟩, index, _, ⟨hi, rfl⟩, rfl, rfl⟩
    exact ⟨tuple, index, ⟨ht, hi⟩, rfl, rfl⟩
  · rintro ⟨tuple, index, ⟨ht, hi⟩, rfl, rfl⟩
    exact ⟨tuple, _, ⟨ht, rfl⟩, index, _, ⟨hi, rfl⟩, rfl, rfl⟩

theorem codes_operand : Codes operand ofOperand Operand.Storable := by
  intro bytes x rest
  constructor
  · rw [operand, codes_tag.bind_iff]
    rintro ⟨mark, mid, ⟨_, rfl⟩, h⟩
    split at h
    · obtain ⟨id, ⟨hid, rfl⟩, rfl⟩ := codes_valueId.map_iff.mp h
      exact ⟨hid, (List.append_assoc ..).symm⟩
    · obtain ⟨tuple, index, hfits, rfl, rfl⟩ := element_iff.mp h
      exact ⟨hfits, (List.append_assoc ..).symm⟩
    · obtain ⟨constant, ⟨hfits, rfl⟩, rfl⟩ := codes_literal.map_iff.mp h
      exact ⟨hfits, (List.append_assoc ..).symm⟩
    · cases h
  · rintro ⟨hx, rfl⟩
    cases x with
    | value id =>
      rw [operand, ofOperand, List.append_assoc, read_tag (by decide)]
      exact codes_valueId.map_iff.mpr ⟨id, ⟨hx, rfl⟩, rfl⟩
    | tupleElement tuple index =>
      rw [operand, ofOperand, List.append_assoc, read_tag (by decide)]
      exact element_iff.mpr ⟨tuple, index, hx, rfl, rfl⟩
    | literal constant =>
      rw [operand, ofOperand, List.append_assoc, read_tag (by decide)]
      exact codes_literal.map_iff.mpr ⟨constant, ⟨hx, rfl⟩, rfl⟩

theorem codes_axes :
    Codes axes ofAxes fun axes => ∀ ns ∈ axes, ListFits (· < indexBound) ns := by
  intro bytes given rest
  rw [axes, codes_bool.bind_iff]
  constructor
  · rintro ⟨present, mid, ⟨_, rfl⟩, h⟩
    cases present with
    | false =>
      obtain ⟨rfl, rfl⟩ := pure_eq_some_iff.mp h
      exact ⟨by simp, rfl⟩
    | true =>
      obtain ⟨ns, ⟨hns, rfl⟩, rfl⟩ := codes_nat.list.map_iff.mp h
      exact ⟨by simpa using hns, rfl⟩
  · rintro ⟨hfits, rfl⟩
    cases given with
    | none => exact ⟨false, rest, ⟨trivial, rfl⟩, rfl⟩
    | some ns =>
      exact ⟨true, _, ⟨trivial, rfl⟩, codes_nat.list.map_iff.mpr ⟨ns, ⟨hfits ns rfl, rfl⟩, rfl⟩⟩

/-- **Operations** are read and written. -/
theorem codes_operation : Codes operation ofOperation Operation.Storable := by
  intro bytes op rest
  constructor
  · rw [operation, codes_tag.bind_iff]
    rintro ⟨mark, mid, ⟨_, rfl⟩, h⟩
    split at h
    case h_9 | h_10 =>
      obtain ⟨ns, ⟨hns, rfl⟩, rfl⟩ := codes_nat.list.map_iff.mp h
      exact ⟨hns, (List.append_assoc ..).symm⟩
    case h_11 =>
      obtain ⟨given, _, ⟨hgiven, rfl⟩, hkeep⟩ := codes_axes.bind_iff.mp h
      obtain ⟨keepdims, _, ⟨_, rfl⟩, hsum⟩ := codes_bool.bind_iff.mp hkeep
      obtain ⟨rfl, rfl⟩ := pure_eq_some_iff.mp hsum
      refine ⟨hgiven, ?_⟩
      rw [ofOperation, List.append_assoc, List.append_assoc]
    case h_12 =>
      obtain ⟨axis, ⟨haxis, rfl⟩, rfl⟩ := codes_nat.map_iff.mp h
      exact ⟨haxis, (List.append_assoc ..).symm⟩
    case h_19 =>
      obtain ⟨target, ⟨htarget, rfl⟩, rfl⟩ := codes_text.map_iff.mp h
      exact ⟨htarget, (List.append_assoc ..).symm⟩
    case h_20 => cases h
    all_goals
      obtain ⟨rfl, rfl⟩ := pure_eq_some_iff.mp h
      exact ⟨trivial, rfl⟩
  · rintro ⟨hop, rfl⟩
    cases op with
    | transpose perm =>
      rw [operation, ofOperation, List.append_assoc, read_tag (by decide)]
      exact codes_nat.list.map_iff.mpr ⟨perm, ⟨hop, rfl⟩, rfl⟩
    | reshape dims =>
      rw [operation, ofOperation, List.append_assoc, read_tag (by decide)]
      exact codes_nat.list.map_iff.mpr ⟨dims, ⟨hop, rfl⟩, rfl⟩
    | sum given keepdims =>
      rw [operation, ofOperation, List.append_assoc, List.append_assoc, read_tag (by decide)]
      refine codes_axes.bind_iff.mpr ⟨given, _, ⟨hop, rfl⟩, ?_⟩
      exact codes_bool.bind_iff.mpr ⟨keepdims, rest, ⟨trivial, rfl⟩, rfl⟩
    | softmax axis =>
      rw [operation, ofOperation, List.append_assoc, read_tag (by decide)]
      exact codes_nat.map_iff.mpr ⟨axis, ⟨hop, rfl⟩, rfl⟩
    | customCall target =>
      rw [operation, ofOperation, List.append_assoc, read_tag (by decide)]
      exact codes_text.map_iff.mpr ⟨target, ⟨hop, rfl⟩, rfl⟩
    | _ =>
      rw [operation, ofOperation, read_tag (by decide)]
      rfl

theorem treeForm_field :
    TreeForm fieldWithin ofField TupleField.Storable operand ofOperand Operand.Storable
      .operand .tuple where
  codes_leaf := codes_operand
  eq_cases := fun field => by cases field <;> simp
  levels_zero := rfl
  levels_succ := fun _ => rfl
  write_leaf := fun _ => rfl
  write_trees := fun fields => by rw [ofField, ofFields_eq_flatMap, ofList]
  fits_leaf := fun _ => Iff.rfl
  fits_trees := fun _ => TupleField.storable_tuple

theorem codes_field : Codes field ofField TupleField.Storable := treeForm_field.codes_nested

/-- **Expressions** are read and written. -/
theorem codes_expr : Codes expr ofExpr Expr.Storable := by
  have hfields : ∀ fields, ofNat fields.length ++ ofFields fields = ofList ofField fields :=
    fun fields => by rw [ofFields_eq_flatMap, ofList]
  intro bytes e rest
  constructor
  · rw [expr, codes_tag.bind_iff]
    rintro ⟨mark, mid, ⟨_, rfl⟩, h⟩
    split at h
    · obtain ⟨op, _, ⟨hop, rfl⟩, hrest⟩ := codes_operation.bind_iff.mp h
      obtain ⟨operands, _, ⟨hoperands, rfl⟩, hcall⟩ := codes_operand.list.bind_iff.mp hrest
      obtain ⟨rfl, rfl⟩ := pure_eq_some_iff.mp hcall
      refine ⟨⟨hop, hoperands⟩, ?_⟩
      rw [ofExpr, List.append_assoc, List.append_assoc]
    · obtain ⟨fields, ⟨hall, rfl⟩, rfl⟩ := codes_field.list.map_iff.mp h
      refine ⟨hall, ?_⟩
      rw [ofExpr, hfields, List.append_assoc]
    · obtain ⟨tuple, index, hfits, rfl, rfl⟩ := element_iff.mp h
      exact ⟨hfits, (List.append_assoc ..).symm⟩
    · obtain ⟨x, ⟨hx, rfl⟩, rfl⟩ := codes_operand.map_iff.mp h
      exact ⟨hx, (List.append_assoc ..).symm⟩
    · cases h
  · rintro ⟨he, rfl⟩
    cases e with
    | call op operands =>
      rw [expr, ofExpr, List.append_assoc, List.append_assoc, read_tag (by decide)]
      refine codes_operation.bind_iff.mpr ⟨op, _, ⟨he.1, rfl⟩, ?_⟩
      exact codes_operand.list.bind_iff.mpr ⟨operands, rest, ⟨he.2, rfl⟩, rfl⟩
    | tuple fields =>
      rw [expr, ofExpr, hfields, List.append_assoc, read_tag (by decide)]
      exact codes_field.list.map_iff.mpr ⟨fields, ⟨he, rfl⟩, rfl⟩
    | tupleGet tuple index =>
      rw [expr, ofExpr, List.append_assoc, read_tag (by decide)]
      exact element_iff.mpr ⟨tuple, index, he, rfl, rfl⟩
    | «alias» x =>
      rw [expr, ofExpr, List.append_assoc, read_tag (by decide)]
      exact codes_operand.map_iff.mpr ⟨x, ⟨he, rfl⟩, rfl⟩

theorem treeForm_return :
    TreeForm returnWithin ofReturn ReturnExpr.Storable valueId ofValueId ValueId.Storable
      .value .tuple where
  codes_leaf := codes_valueId
  eq_cases := fun element => by cases element <;> simp
  levels_zero := rfl
  levels_succ := fun _ => rfl
  write_leaf := fun _ => rfl
  write_trees := fun elements => by rw [ofReturn, ofReturns_eq_flatMap, ofList]
  fits_leaf := fun _ => Iff.rfl
  fits_trees := fun _ => ReturnExpr.storable_tuple

theorem codes_return : Codes returnExpr ofReturn ReturnExpr.Storable :=
  treeForm_return.codes_nested

/-! ## Functions and modules -/

theorem codes_param : Codes param ofParam Param.Storable := by
  intro bytes p rest
  rw [param, codes_valueId.bind_iff]
  simp only [codes_text.bind_iff, codes_type.bind_iff, pure_eq_some_iff, ofParam,
    List.append_assoc]
  constructor
  · rintro ⟨id, _, ⟨hid, rfl⟩, name, _, ⟨hname, rfl⟩, ty, _, ⟨hty, rfl⟩, rfl, rfl⟩
    exact ⟨⟨hid, hname, hty⟩, rfl⟩
  · rintro ⟨⟨hid, hname, hty⟩, rfl⟩
    exact ⟨_, _, ⟨hid, rfl⟩, _, _, ⟨hname, rfl⟩, _, _, ⟨hty, rfl⟩, rfl, rfl⟩

theorem codes_binding : Codes binding ofBinding Binding.Storable := by
  intro bytes b rest
  rw [binding, codes_valueId.bind_iff]
  simp only [codes_text.bind_iff, codes_expr.bind_iff, codes_type.bind_iff, pure_eq_some_iff,
    ofBinding, List.append_assoc]
  constructor
  · rintro ⟨id, _, ⟨hid, rfl⟩, name, _, ⟨hname, rfl⟩, e, _, ⟨he, rfl⟩, ty, _, ⟨hty, rfl⟩,
      rfl, rfl⟩
    exact ⟨⟨hid, hname, he, hty⟩, rfl⟩
  · rintro ⟨⟨hid, hname, he, hty⟩, rfl⟩
    exact ⟨_, _, ⟨hid, rfl⟩, _, _, ⟨hname, rfl⟩, _, _, ⟨he, rfl⟩, _, _, ⟨hty, rfl⟩, rfl, rfl⟩

theorem codes_region : Codes region ofRegion Region.Storable :=
  codes_binding.list.pair codes_valueId.list Region.mk Region.bindings Region.outputs (fun _ => rfl)
    (fun _ _ => rfl) fun _ _ => rfl

theorem codes_function : Codes function ofFunction Function.Storable := by
  intro bytes f rest
  rw [function, codes_text.bind_iff]
  simp only [codes_param.list.bind_iff, codes_region.list.bind_iff, codes_return.bind_iff,
    pure_eq_some_iff, ofFunction, List.append_assoc]
  constructor
  · rintro ⟨name, _, ⟨hname, rfl⟩, params, _, ⟨hparams, rfl⟩, regions, _, ⟨hregions, rfl⟩,
      ret, _, ⟨hret, rfl⟩, rfl, rfl⟩
    exact ⟨⟨hname, hparams, hregions, hret⟩, rfl⟩
  · rintro ⟨⟨hname, hparams, hregions, hret⟩, rfl⟩
    exact ⟨_, _, ⟨hname, rfl⟩, _, _, ⟨hparams, rfl⟩, _, _, ⟨hregions, rfl⟩, _, _, ⟨hret, rfl⟩,
      rfl, rfl⟩

/-- **Modules** are read and written. -/
theorem codes_module : Codes module Module.toBytes Module.Storable :=
  codes_text.pair codes_function.list Module.mk Module.version Module.functions (fun _ => rfl)
    (fun _ _ => rfl) fun _ _ => rfl

end Binary

/-! ## The binary form -/

namespace Module

/-- **The binary form is faithful and canonical.** What is written of a storable module is read
back, whatever follows it: the module of the current version, when its version word is empty or
current, and otherwise a complaint about this word. And bytes that are read as a module, and do
not start with an empty version word, start with what is written of the module. -/
theorem ofBytes_canonical :
    (∀ (m : Module) (t : List UInt8), m.Storable →
      ofBytes (m.toBytes ++ t) = if m.version = "" ∨ m.version = currentVersion
        then .ok { m with version := currentVersion }
        else .error (.versionMismatch m.version)) ∧
    ∀ (bytes : List UInt8) (m : Module), ¬Binary.ofText "" <+: bytes →
      ofBytes bytes = .ok m → m.toBytes <+: bytes := by
  constructor
  · intro m t hm
    rw [ofBytes, StateT.run, Binary.codes_module.read_write hm t]
    exact acceptVersion_eq m
  · intro bytes m hversion h
    rw [ofBytes, StateT.run] at h
    cases hread : Binary.module bytes with
    | none =>
      rw [hread] at h
      cases h
    | some result =>
      obtain ⟨found, rest⟩ := result
      rw [hread] at h
      obtain ⟨_, rfl⟩ := (Binary.codes_module _ _ _).mp hread
      dsimp only at h
      rw [acceptVersion] at h
      split at h
      · next hempty =>
        -- the version word that was read stands at the front
        refine absurd ?_ hversion
        rw [toBytes, hempty, List.append_assoc]
        exact List.prefix_append _ _
      · split at h
        · cases h
          exact List.prefix_append _ _
        · cases h

/-- A function that sums its parameter over the rows and returns both. -/
def rowSums : Function where
  name := "row_sums"
  params := [⟨⟨0⟩, "x", .tensor ⟨.f32, ⟨[2, 3]⟩⟩⟩]
  regions := [⟨[⟨⟨1⟩, "s", .call (.sum (some [0]) false) [.value ⟨0⟩], .tensor ⟨.f32, ⟨[3]⟩⟩⟩],
    [⟨1⟩]⟩]
  ret := .tuple [.value ⟨1⟩, .value ⟨0⟩]

theorem ofBytes_rowSums :
    Storable ⟨"", [rowSums]⟩ ∧
      ofBytes (toBytes ⟨"", [rowSums]⟩ ++ [7]) = .ok ⟨currentVersion, [rowSums]⟩ ∧
      ¬Binary.ofText "" <+: toBytes ⟨currentVersion, [rowSums]⟩ ++ [7] ∧
      ofBytes (toBytes ⟨currentVersion, [rowSums]⟩ ++ [7]) = .ok ⟨currentVersion, [rowSums]⟩ ∧
      toBytes ⟨currentVersion, [rowSums]⟩ <+: toBytes ⟨currentVersion, [rowSums]⟩ ++ [7] := by
  have hempty : Storable ⟨"", [rowSums]⟩ := by decide +kernel
  have hcurrent : Storable ⟨currentVersion, [rowSums]⟩ := by decide +kernel
  have hversion : ¬Binary.ofText "" <+: toBytes ⟨currentVersion, [rowSums]⟩ ++ [7] := by
    decide +kernel
  have hread := ofBytes_canonical.1 ⟨currentVersion, [rowSums]⟩ [7] hcurrent
  rw [if_pos (.inr rfl)] at hread
  exact ⟨hempty, ofBytes_canonical.1 ⟨"", [rowSums]⟩ [7] hempty, hversion, hread,
    ofBytes_canonical.2 _ _ hversion hread⟩

end Module

end TensorGraph
