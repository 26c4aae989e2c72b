/-
# TensorGraph.Proofs.Legibility -- what has been read can be written

What the reader makes of a type, an operand or an expression has a text that can be cut again: the
numbers are below the bound of indices, and the literals are scalars with words that readers give
(`ValueType.within_of_ofText`, `Operand.legible_of_ofText`, `Expr.legible_of_ofText`). Only the
target of a custom call may be any text.

An axis need not stand in the text: without an attribute it is taken from the rank of a type. But a
type has no more axes than its text has characters, so in a text shorter than the bound of indices
such an axis is below the bound, too.
-/
import TensorGraph.Proofs.Accepted

namespace TensorGraph

/-! ## Texts within a text -/

section Lengths

variable {mark : Char} {s rest text : List Char}

theorem length_of_mem_splitOn (h : text ∈ s.splitOn mark) : text.length ≤ s.length := by
  induction s generalizing text with
  | nil =>
    rw [List.splitOn_nil, List.mem_singleton] at h
    rw [h]
  | cons c cs ih =>
    rw [List.splitOn, List.splitOnP_cons_eq_if_modifyHead, ← List.splitOn] at h
    split at h
    · rcases List.mem_cons.mp h with rfl | h
      · exact Nat.zero_le _
      · exact Nat.le_succ_of_le (ih h)
    · cases hpieces : cs.splitOn mark with
      | nil => simp [hpieces] at h
      | cons piece pieces =>
        rw [hpieces, List.modifyHead_cons] at h
        rcases List.mem_cons.mp h with rfl | h
        · exact Nat.succ_le_succ (ih (hpieces ▸ List.mem_cons_self))
        · exact Nat.le_succ_of_le (ih (hpieces ▸ List.mem_cons_of_mem piece h))

theorem length_splitOn (mark : Char) (s : List Char) :
    (s.splitOn mark).length ≤ s.length + 1 := by
  induction s with
  | nil => rw [List.splitOn_nil, List.length_singleton, List.length_nil]
  | cons c cs ih =>
    rw [List.splitOn, List.splitOnP_cons_eq_if_modifyHead, ← List.splitOn]
    split
    · rw [List.length_cons, List.length_cons]
      omega
    · rw [List.length_modifyHead, List.length_cons]
      omega

theorem length_after? {word : String} (h : after? word s = some rest) :
    rest.length ≤ s.length := by
  rw [after?_eq_some_iff] at h
  rw [← h, List.length_append]
  exact Nat.le_add_left _ _

end Lengths

namespace Nest

mutual

/-- The leaves of an outline. -/
def leaves : Nest → List (List Char)
  | .leaf text => [text]
  | .group elements => leavesAll elements
  | .unclosed => []
  | .overrun _ => []

/-- The leaves of several outlines. -/
def leavesAll : List Nest → List (List Char)
  | [] => []
  | nest :: rest => nest.leaves ++ leavesAll rest

end

theorem leavesAll_eq_flatMap (nests : List Nest) : leavesAll nests = nests.flatMap leaves := by
  induction nests with
  | nil => rfl
  | cons nest rest ih => rw [leavesAll, ih, List.flatMap_cons]

/-- **A leaf** is no longer than the text of the outline. -/
theorem length_leaves (lenient : Bool) (s : List Char) :
    ∀ text ∈ (ofText lenient s).leaves, text.length ≤ s.length := by
  -- on the length of the text: the items of a list are shorter than the list
  induction hn : s.length using Nat.strong_induction_on generalizing s with
  | h n ih =>
    subst hn
    have htrim := length_trim_le s
    rw [ofText]
    split
    · next body hbody =>
      rw [hbody, List.length_cons] at htrim
      split
      · simp [leaves]
      · next inside hclose =>
        have hinside := length_closing? hclose
        intro text htext
        rw [leaves, leavesAll_eq_flatMap, List.mem_flatMap] at htext
        obtain ⟨nest, hnest, htext⟩ := htext
        obtain ⟨⟨item, hitem⟩, -, rfl⟩ := List.mem_map.mp hnest
        have hlength := length_of_mem_items hitem
        have hinner : (if lenient then trim inside else inside).length ≤ inside.length := by
          split
          · exact length_trim_le inside
          · exact Nat.le_refl _
        have := ih item.length (by omega) item rfl text htext
        omega
      · simp [leaves]
    · intro text htext
      rw [leaves, List.mem_singleton] at htext
      rw [htext]
      exact htrim

end Nest

/-! ## Types -/

namespace ValueType

/-- **`Within`** -- a type whose extents can be read and whose ranks are at most `n`. -/
def Within (n : Nat) (ty : ValueType) : Prop :=
  ∀ spec ∈ ty.specs, spec.Bounded ∧ spec.shape.rank ≤ n

variable {n m : Nat} {ty : ValueType}

theorem Within.mono (h : ty.Within n) (hnm : n ≤ m) : ty.Within m := fun spec hspec =>
  ⟨(h spec hspec).1, Nat.le_trans (h spec hspec).2 hnm⟩

mutual

theorem bounded_of_specs : (ty : ValueType) → (∀ spec ∈ ty.specs, spec.Bounded) → ty.Bounded
  | .tensor spec, h => h spec List.mem_cons_self
  | .tuple elements, h => allBounded_of_specs elements h

theorem allBounded_of_specs : (tys : List ValueType) → (∀ spec ∈ specsAll tys, spec.Bounded) →
    AllBounded tys
  | [], _ => trivial
  | ty :: rest, h => by
    rw [specsAll, List.forall_mem_append] at h
    exact ⟨bounded_of_specs ty h.1, allBounded_of_specs rest h.2⟩

end

theorem Within.bounded (h : ty.Within n) : ty.Bounded :=
  ty.bounded_of_specs fun spec hspec => (h spec hspec).1

/-- A component of a tuple is within what the tuple is within. -/
theorem Within.element {index : Nat} {element : ValueType} (h : ty.Within n)
    (he : ty.element? index = some element) : element.Within n := by
  cases ty with
  | tensor spec => cases he
  | tuple elements =>
    intro spec hspec
    refine h spec ?_
    rw [specs, specsAll_eq_flatMap]
    exact List.mem_flatMap.mpr ⟨element, List.mem_of_getElem? he, hspec⟩

end ValueType

section Types

variable {s : List Char} {n : Nat}

theorem lt_of_readIndex? (h : readIndex? s = some n) : n < indexBound := by
  rw [readIndex?] at h
  split at h
  · next hall =>
    cases h
    simp only [Bool.and_eq_true, decide_eq_true_eq] at hall
    exact hall.2
  · cases h

theorem readDims_spec {dims : List Nat} (h : readDims s = .ok dims) :
    (∀ d ∈ dims, d < indexBound) ∧ dims.length ≤ s.length + 1 := by
  have hall := mapM_eq_ok_iff.mp h
  refine ⟨fun d hd => ?_, hall.length_eq ▸ length_splitOn 'x' s⟩
  obtain ⟨piece, -, hpiece⟩ := forall₂_exists_of_mem hall.flip hd
  dsimp only [flip] at hpiece
  split at hpiece
  · cases hpiece
  · split at hpiece
    · next hindex =>
      cases hpiece
      exact lt_of_readIndex? hindex
    · cases hpiece

theorem readTensorBody_spec {spec : TensorSpec} (h : readTensorBody s = .ok spec) :
    spec.Bounded ∧ spec.shape.rank ≤ s.length + 1 := by
  rw [readTensorBody] at h
  split at h
  · obtain ⟨dtype, -, h⟩ := bind_eq_ok_iff.mp h
    cases h
    exact ⟨fun d hd => absurd hd List.not_mem_nil, Nat.zero_le _⟩
  · next word parts hparts =>
    obtain ⟨dtype, -, h⟩ := bind_eq_ok_iff.mp h
    have hpart : (parts.headD []).length ≤ s.length := by
      cases parts with
      | nil => exact Nat.zero_le _
      | cons part parts =>
        have hmem : part ∈ s.splitOn ',' := hparts ▸ List.mem_cons_of_mem word List.mem_cons_self
        exact length_of_mem_splitOn hmem
    have htrim := length_trim_le (parts.headD [])
    dsimp only at h
    -- without extents the type is that of a scalar
    split at h
    · rw [pure_bind] at h
      split at h
      · cases h
        exact ⟨fun d hd => absurd hd List.not_mem_nil, Nat.zero_le _⟩
      · cases h
    · obtain ⟨dims, hdims, h⟩ := bind_eq_ok_iff.mp h
      obtain ⟨hall, hlength⟩ := readDims_spec hdims
      split at h
      · cases h
        exact ⟨hall, by simp only [Shape.rank]; omega⟩
      · cases h

theorem readTensorType_spec {ty : ValueType} (h : readTensorType s = .ok ty) :
    ty.Within s.length := by
  rw [readTensorType] at h
  split at h
  · next body hbody =>
    obtain ⟨spec, hspec, rfl⟩ := map_eq_ok_iff.mp h
    obtain ⟨rest, hrest, hsuffix⟩ := Option.bind_eq_some_iff.mp hbody
    have hlength : body.length + 1 ≤ s.length := by
      rw [after?_eq_some_iff] at hrest
      rw [List.isSuffixOf?_eq_some_iff_append_eq] at hsuffix
      rw [← hrest, ← hsuffix, List.length_append, List.length_append, List.length_singleton]
      omega
    obtain ⟨hbounded, hrank⟩ := readTensorBody_spec hspec
    intro spec' hspec'
    rw [List.mem_singleton.mp hspec']
    exact ⟨hbounded, Nat.le_trans hrank hlength⟩
  · cases h

mutual

theorem ValueType.within_of_ofNest (nest : Nest) {ty : ValueType}
    (hleaves : ∀ text ∈ nest.leaves, text.length ≤ n) (h : ValueType.ofNest nest = .ok ty) :
    ty.Within n := by
  cases nest with
  | leaf text => exact (readTensorType_spec h).mono (hleaves text List.mem_cons_self)
  | unclosed => cases h
  | overrun text => cases h
  | group nests =>
    obtain ⟨tys, htys, hty⟩ := bind_eq_ok_iff.mp h
    cases hty
    exact ValueType.within_of_ofNests nests hleaves htys

theorem ValueType.within_of_ofNests (nests : List Nest) {tys : List ValueType}
    (hleaves : ∀ text ∈ Nest.leavesAll nests, text.length ≤ n)
    (h : ValueType.ofNests nests = .ok tys) :
    ∀ spec ∈ ValueType.specsAll tys, spec.Bounded ∧ spec.shape.rank ≤ n := by
  cases nests with
  | nil =>
    cases h
    exact fun spec hspec => absurd hspec List.not_mem_nil
  | cons nest rest =>
    rw [Nest.leavesAll, List.forall_mem_append] at hleaves
    obtain ⟨ty, hty, h⟩ := bind_eq_ok_iff.mp h
    obtain ⟨tys', htys, hcons⟩ := bind_eq_ok_iff.mp h
    cases hcons
    rw [ValueType.specsAll]
    exact List.forall_mem_append.mpr ⟨ValueType.within_of_ofNest nest hleaves.1 hty,
      ValueType.within_of_ofNests rest hleaves.2 htys⟩

end

/-- **A type that is read** has extents that can be read, and no more axes than its text has
characters. -/
theorem ValueType.within_of_ofText {ty : ValueType} (h : ValueType.ofText s = .ok ty) :
    ty.Within s.length := within_of_ofNest _ (Nest.length_leaves true s) h

end Types

/-! ## Operations -/

/-- The target of a custom call. -/
def Expr.target? : Expr → Option String
  | .call (.customCall target) _ => some target
  | _ => none

/-- **`Worded`** -- an expression whose custom call, if it is one, has a word for a target. -/
def Expr.Worded (e : Expr) : Prop := ∀ target ∈ e.target?, IsWord target

instance : DecidablePred Expr.Worded := fun e =>
  inferInstanceAs (Decidable (∀ target ∈ e.target?, IsWord target))

section Operations

variable {s : List Char} {n : Nat} {scope : Scope}

theorem lt_of_readEntry (h : readEntry s = .ok n) : n < indexBound := by
  rw [readEntry] at h
  split at h
  · cases h
  · split at h
    · next hindex =>
      cases h
      exact lt_of_readIndex? hindex
    · cases h

theorem lt_of_readEntries {ns : List Nat} (h : readEntries s = .ok ns) :
    ∀ n ∈ ns, n < indexBound := by
  rw [readEntries] at h
  split at h
  · cases h
    exact fun n hn => absurd hn List.not_mem_nil
  · intro n hn
    obtain ⟨piece, -, hpiece⟩ := forall₂_exists_of_mem (mapM_eq_ok_iff.mp h).flip hn
    exact lt_of_readEntry hpiece

theorem Scope.within_of_typeOf? {id : ValueId} {ty : ValueType}
    (hscope : ∀ e ∈ scope.entries, e.ty.Within n) (h : scope.typeOf? id = some ty) :
    ty.Within n := by
  obtain ⟨e, he, rfl⟩ := Option.map_eq_some_iff.mp h
  exact hscope e (List.mem_of_find?_eq_some he)

/-- An operand has a type within those in scope. -/
theorem Scope.within_of_operandType {x : Operand} {ty : ValueType}
    (hscope : ∀ e ∈ scope.entries, e.ty.Within n)
    (hx : ∀ l, x = .literal l → l.spec = .scalar .f32) (h : scope.operandType x = .ok ty) :
    ty.Within n := by
  unfold operandType at h
  cases x with
  | value id =>
    dsimp only at h
    split at h
    · next hty =>
      cases h
      exact within_of_typeOf? hscope hty
    · cases h
  | tupleElement tuple index =>
    dsimp only at h
    split at h
    · next hty =>
      cases h
      obtain ⟨tupleTy, htuple, helement⟩ := Option.bind_eq_some_iff.mp hty
      exact (within_of_typeOf? hscope htuple).element helement
    · cases h
  | literal l =>
    cases h
    intro spec hspec
    rw [List.mem_singleton.mp hspec, hx l rfl]
    exact ⟨fun d hd => absurd hd List.not_mem_nil, Nat.zero_le _⟩

namespace CallText

variable {c : CallText} {op : Operation}

/-- Extents are read, or those of the declared type. -/
theorem printable_of_reshape (hdeclared : c.declared.Bounded) (h : c.reshape = .ok op) :
    op.Printable := by
  rw [reshape] at h
  split at h
  · obtain ⟨dims, hdims, rfl⟩ := map_eq_ok_iff.mp h
    exact lt_of_readEntries hdims
  · next hty =>
    cases h
    rw [hty] at hdeclared
    exact hdeclared
  · cases h

theorem printable_of_sum (h : c.sum = .ok op) : op.Printable := by
  obtain ⟨axes, haxes, h⟩ := bind_eq_ok_iff.mp h
  obtain ⟨keepdims, -, h⟩ := bind_eq_ok_iff.mp h
  cases h
  intro ns hns
  cases hvalue : attribute? c.clauses "axes" with
  | none =>
    rw [hvalue] at haxes
    cases haxes
    cases hns
  | some value =>
    rw [hvalue, Option.mapM_some] at haxes
    obtain ⟨ns', hread, rfl⟩ := map_eq_ok_iff.mp haxes
    cases hns
    exact lt_of_readEntries hread

section Ranks

variable (hn : n < indexBound) (hscope : ∀ e ∈ c.scope.entries, e.ty.Within n)
  (hoperands : ∀ x ∈ c.operands, ∀ l, x = .literal l → l.spec = .scalar .f32)

include hn hscope hoperands

/-- The rank of the first operand is bounded by the ranks in scope. -/
theorem firstRank_lt {name : String} {rank : Nat} (h : c.firstRank name = .ok rank) :
    rank < indexBound := by
  rw [firstRank] at h
  split at h
  · cases h
  · next x xs hx =>
    split at h
    · cases h
    · next spec hspec =>
      cases h
      have hmem : x ∈ c.operands := hx ▸ List.mem_cons_self
      have hwithin := Scope.within_of_operandType hscope (hoperands x hmem) hspec
      exact Nat.lt_of_le_of_lt (hwithin spec List.mem_cons_self).2 hn
    · cases h

theorem printable_of_transpose (h : c.transpose = .ok op) : op.Printable := by
  rw [transpose] at h
  split at h
  · obtain ⟨perm, hperm, rfl⟩ := map_eq_ok_iff.mp h
    exact lt_of_readEntries hperm
  · obtain ⟨rank, hrank, rfl⟩ := map_eq_ok_iff.mp h
    -- without an attribute the axes are those below a rank
    have hlt := firstRank_lt hn hscope hoperands hrank
    intro axis haxis
    rw [List.mem_reverse, List.mem_range] at haxis
    omega

theorem printable_of_softmax (h : c.softmax = .ok op) : op.Printable := by
  rw [softmax] at h
  split at h
  · obtain ⟨axis, haxis, rfl⟩ := map_eq_ok_iff.mp h
    exact lt_of_readEntry haxis
  · split at h
    · cases h
    · cases h
    · next hrank =>
      cases h
      exact Nat.lt_of_succ_lt (firstRank_lt hn hscope hoperands hrank)

/-- **An operation that is read** has attributes that can be read. -/
theorem printable_of_operation {name : String} (hdeclared : c.declared.Bounded)
    (hword : ∀ target, op = .customCall target → IsWord target)
    (h : c.operation name = .ok op) : op.Printable := by
  rw [operation] at h
  split at h
  · next hfind =>
    -- operators without attributes: there is nothing to read
    have hplain : ∀ op ∈ plainOperations, op.Printable := by decide
    cases h
    exact hplain op (List.mem_of_find?_eq_some hfind)
  · split at h
    · exact printable_of_transpose hn hscope hoperands h
    · split at h
      · exact printable_of_reshape hdeclared h
      · split at h
        · exact printable_of_sum h
        · split at h
          · exact printable_of_softmax hn hscope hoperands h
          · split at h
            · rw [customCall] at h
              split at h
              · split at h
                · cases h
                · cases h
                  exact hword _ rfl
              · cases h
            · cases h

end Ranks

end CallText

end Operations

/-! ## Expressions -/

section Expressions

variable {s : List Char} {n : Nat} {scope : Scope}

/-- The scalar of a word that is read is legible. -/
theorem Literal.legible_ofSingle {word : Nat} (h : IsReadWord word) :
    (Literal.ofSingle (UInt32.ofNat word)).Legible := by
  have hword : (UInt32.ofNat word).toNat = word := by
    rw [UInt32.toNat_ofNat']
    exact Nat.mod_eq_of_lt h.lt
  have hvalue : leValue (leBytes 4 word) = word := leValue_leBytes h.lt
  rw [ofSingle, hword]
  exact ⟨rfl, length_leBytes 4 word, hvalue.symm ▸ h⟩

theorem OperandText.element_of_ofElement {before after : List Char} {text : OperandText}
    (h : ofElement before after = .ok text) :
    ∃ tuple index, text = .element tuple index ∧ index < indexBound := by
  rw [ofElement] at h
  split at h
  · cases h
  · split at h
    · cases h
    · split at h
      · cases h
      · dsimp only at h
        split at h
        · next hindex =>
          cases h
          exact ⟨_, _, rfl, lt_of_readIndex? hindex⟩
        · cases h

/-- **An operand that is read** is legible. -/
theorem Operand.legible_of_ofText {x : Operand} (h : Operand.ofText scope s = .ok x) :
    x.Legible := by
  obtain ⟨text, htext, hresolve⟩ := bind_eq_ok_iff.mp h
  rw [OperandText.ofText] at htext
  split at htext
  · cases htext
  · cases htext
  · split at htext
    · obtain ⟨tuple, index, rfl, hindex⟩ := OperandText.element_of_ofElement htext
      obtain ⟨id, -, rfl⟩ := map_eq_ok_iff.mp hresolve
      exact hindex
    · cases htext
      obtain ⟨id, -, rfl⟩ := map_eq_ok_iff.mp hresolve
      exact trivial
  · split at htext
    · next hword =>
      cases htext
      cases hresolve
      exact Literal.legible_ofSingle (isReadWord_of_readNumber? hword)
    · cases htext

mutual

theorem TupleField.legible_of_ofNest (nest : Nest) {field : TupleField}
    (h : TupleField.ofNest scope nest = .ok field) : field.Legible := by
  cases nest with
  | leaf text =>
    obtain ⟨x, hx, rfl⟩ := map_eq_ok_iff.mp h
    exact Operand.legible_of_ofText hx
  | unclosed => cases h
  | overrun text => cases h
  | group nests =>
    obtain ⟨fields, hfields, rfl⟩ := map_eq_ok_iff.mp h
    exact TupleField.legible_of_ofNests nests hfields

theorem TupleField.legible_of_ofNests (nests : List Nest) {fields : List TupleField}
    (h : TupleField.ofNests scope nests = .ok fields) : TupleField.AllLegible fields := by
  cases nests with
  | nil =>
    cases h
    exact trivial
  | cons nest rest =>
    obtain ⟨field, hfield, h⟩ := bind_eq_ok_iff.mp h
    obtain ⟨fields', hfields, hcons⟩ := bind_eq_ok_iff.mp h
    cases hcons
    exact ⟨TupleField.legible_of_ofNest nest hfield, TupleField.legible_of_ofNests rest hfields⟩

end

/-- **An expression that is read** is legible if the target of a custom call is a word. -/
theorem Expr.legible_of_ofText {declared : ValueType} {e : Expr} (hn : n < indexBound)
    (hscope : ∀ e ∈ scope.entries, e.ty.Within n) (hdeclared : declared.Bounded)
    (hworded : e.Worded) (h : Expr.ofText scope declared s = .ok e) : e.Legible := by
  rcases Expr.parts_of_ofText h with ⟨text, x, hx, ⟨source, index, rfl, rfl⟩ | ⟨halone, rfl⟩⟩ |
    ⟨nests, fields, hfields, rfl⟩ | ⟨name, parts, op, operands, hoperands, hop, rfl⟩
  · exact Operand.legible_of_ofText hx
  · exact ⟨Operand.legible_of_ofText hx, halone⟩
  · exact TupleField.legible_of_ofNests nests hfields
  · have hlegible : ∀ x ∈ operands, x.Legible := by
      intro x hx
      obtain ⟨text, htext⟩ := hoperands x hx
      exact Operand.legible_of_ofText htext
    have hspec : ∀ x ∈ operands, ∀ l, x = .literal l → l.spec = .scalar .f32 := by
      rintro x hx l rfl
      exact (show l.Legible from hlegible _ hx).spec
    refine ⟨CallText.printable_of_operation hn hscope hspec hdeclared ?_ hop, hlegible⟩
    rintro target rfl
    exact hworded target rfl

end Expressions

end TensorGraph
