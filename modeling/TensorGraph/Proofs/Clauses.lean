/-
# TensorGraph.Proofs.Clauses -- calls and expressions are read back

A call is a word, a list of operands and attributes in square brackets. The cut into clauses finds
the list and the attributes as they were written, and from the attributes the operation comes back
with its parameters (`CallText.operation_eq`). An expression is told apart by its first character
and its first word (`Expr.ofText_eq`); a number that goes by a name is taken for an operation there
(`Expr.ofText_name`).
-/
import TensorGraph.Proofs.Phrases

namespace TensorGraph

open scoped CoreInstances

/-! ## Attributes -/

namespace Operation

/-- **`Printable`** -- an operation whose parameters can be read. -/
def Printable : Operation → Prop
  | .transpose perm => ∀ n ∈ perm, n < indexBound
  | .reshape dims => ∀ n ∈ dims, n < indexBound
  | .sum axes _ => ∀ ns ∈ axes, ∀ n ∈ ns, n < indexBound
  | .softmax axis => axis < indexBound
  | .customCall target => IsWord target
  | _ => True

instance : DecidablePred Printable
  | .transpose perm => inferInstanceAs (Decidable (∀ n ∈ perm, n < indexBound))
  | .reshape dims => inferInstanceAs (Decidable (∀ n ∈ dims, n < indexBound))
  | .sum axes _ => inferInstanceAs (Decidable (∀ ns ∈ axes, ∀ n ∈ ns, n < indexBound))
  | .softmax axis => inferInstanceAs (Decidable (axis < indexBound))
  | .customCall target => inferInstanceAs (Decidable (IsWord target))
  | .add | .subtract | .multiply | .divide | .negative | .exp | .log | .matmul
  | .softmaxCrossEntropy | .ones | .zeros | .onesLike | .zerosLike | .collapseSumLike =>
    isTrue trivial

/-- The attributes of an operation by their names and values. -/
def parameters : Operation → List (String × List Char)
  | .transpose perm => [("perm", renderNats perm)]
  | .reshape dims => [("shape", renderNats dims)]
  | .sum axes keepdims =>
    (axes.map fun axes => ("axes", renderNats axes)).toList ++
      (if keepdims then [("keepdims", "true".toList)] else [])
  | .softmax axis => [("axis", Nat.toDigits 10 axis)]
  | .customCall target => [("target", target.toList)]
  | _ => []

theorem attributes_eq (op : Operation) :
    op.attributes = op.parameters.map fun a => renderAttribute a.1 a.2 := by
  cases op with
  | sum axes keepdims => cases axes <;> cases keepdims <;> rfl
  | _ => rfl

end Operation

/-- **`IsParameter`** -- an attribute with a name of attribute characters and a value of word
characters and separators, without blanks at its ends. -/
structure IsParameter (a : String × List Char) : Prop where
  /-- There is a name. -/
  ne_nil : a.1.toList ≠ []
  /-- The name is found. -/
  name : ∀ c ∈ a.1.toList, isAttributeChar c = true ∧ IsWordChar c
  /-- The value has no bracket. -/
  value : ∀ c ∈ a.2, IsWordChar c ∨ c = ',' ∨ c = ' '
  /-- Nothing is trimmed. -/
  trim_eq : trim a.2 = a.2

theorem renderNats_chars (ns : List Nat) :
    ∀ c ∈ renderNats ns, IsWordChar c ∨ c = ',' ∨ c = ' ' := by
  refine intercalate_chars (by decide) fun t ht c hc => ?_
  obtain ⟨n, _, rfl⟩ := List.mem_map.mp ht
  exact .inl (isWordChar_toDigits n c hc)

theorem trim_renderNats (ns : List Nat) : trim (renderNats ns) = renderNats ns := by
  refine trim_commaSeparated fun t ht => ?_
  obtain ⟨n, _, rfl⟩ := List.mem_map.mp ht
  exact solid_toDigits n

/-- The attributes of an operation are parameters. -/
theorem Operation.isParameter {op : Operation} (h : op.Printable) :
    ∀ a ∈ op.parameters, IsParameter a := by
  have hnats : ∀ (name : String) (ns : List Nat), name.toList ≠ [] →
      (∀ c ∈ name.toList, isAttributeChar c = true ∧ IsWordChar c) →
      IsParameter (name, renderNats ns) := fun name ns hne hname =>
    ⟨hne, hname, renderNats_chars ns, trim_renderNats ns⟩
  have hword : ∀ (name : String) (value : List Char), name.toList ≠ [] →
      (∀ c ∈ name.toList, isAttributeChar c = true ∧ IsWordChar c) → value ≠ [] →
      (∀ c ∈ value, IsWordChar c) → IsParameter (name, value) := fun name value hne hname hv hc =>
    ⟨hne, hname, fun c hm => .inl (hc c hm), (solid_of_isWordChar hv hc).trim_eq⟩
  cases op with
  | transpose perm => simpa [parameters] using hnats "perm" perm (by decide) (by decide)
  | reshape dims => simpa [parameters] using hnats "shape" dims (by decide) (by decide)
  | sum axes keepdims =>
    have haxes : ∀ ns, IsParameter ("axes", renderNats ns) := fun ns =>
      hnats "axes" ns (by decide) (by decide)
    have hkeep := hword "keepdims" "true".toList (by decide) (by decide) (by decide) (by decide)
    cases axes <;> cases keepdims <;> simp_all [parameters]
  | softmax axis =>
    simpa [parameters] using hword "axis" (Nat.toDigits 10 axis) (by decide) (by decide)
      Nat.toDigits_ne_nil (isWordChar_toDigits axis)
  | customCall target =>
    have h : IsWord target := h
    simpa [parameters] using hword "target" target.toList (by decide) (by decide)
      h.toList_ne_nil h.chars
  | _ => simp [parameters]

/-! ## Clauses -/

section Clauses

variable {ts : List (List Char)} {a : String × List Char} {as : List (String × List Char)}

/-- A list of operands is cut off. -/
theorem clauses_operands (h : ∀ t ∈ ts, Piece t) (rest : List Char) :
    clauses ('(' :: (commaSeparated ts ++ ')' :: rest)) =
      (clauses rest).map fun more => .operands ts :: more := by
  have hclose := (Piece.matched_list h).closing?_eq (by decide) rest
  have hitems : (items (commaSeparated ts)).filter (fun item => !item.isEmpty) = ts := by
    rw [Piece.items_eq h, List.filter_eq_self]
    exact fun t ht => by simp [(h t ht).solid.ne_nil]
  rw [clauses]
  split
  · next hn => simp [hn] at hclose
  · next inside rest' hs =>
    obtain ⟨rfl, rfl⟩ := Prod.mk.inj (Option.some.inj (hclose.symm.trans hs))
    rw [hitems]

/-- A blank between clauses is passed over. -/
theorem clauses_space (s : List Char) : clauses (' ' :: s) = clauses s := by
  rw [clauses]
  · simp [isAsciiBlank]
  · simp

/-- An attribute is cut off. -/
theorem clauses_attribute (h : IsParameter a) (rest : List Char) :
    clauses (renderAttribute a.1 a.2 ++ rest) =
      (clauses rest).map fun more => .attribute a.1.toList a.2 :: more := by
  obtain ⟨name, value⟩ := a
  have hvalue : ∀ d, ¬IsWordChar d → d ≠ ',' → d ≠ ' ' → d ∉ value := fun d hd hcomma hspace hm =>
    (h.value d hm).elim hd (not_or.mpr ⟨hcomma, hspace⟩)
  have hclose : closing? '[' ']' 0 (value ++ ']' :: rest) = some (value, rest) := by
    refine Matched.closing?_eq (by decide) (matched_of_notMem ?_ ?_) rest
    · exact hvalue '[' (by decide) (by decide) (by decide)
    · exact hvalue ']' (by decide) (by decide) (by decide)
  have hname : ∀ c ∈ name.toList, isAttributeChar c = true := fun c hc => (h.name c hc).1
  have hend : ∀ c, ('[' :: (value ++ ']' :: rest)).head? = some c → isAttributeChar c = false :=
    fun c hc => by rw [← Option.some.inj hc]; rfl
  have htake := takeWhile_append_of_boundary hname hend
  have hdrop := dropWhile_append_of_boundary hname hend
  have hrender : renderAttribute name value ++ rest =
      name.toList ++ '[' :: (value ++ ']' :: rest) := by
    simp [renderAttribute]
  obtain ⟨c, cs, hc⟩ := List.exists_cons_of_ne_nil h.ne_nil
  have hfirst := h.name c (by simp only [hc, List.mem_cons_self])
  simp only at hc
  -- the name starts with a letter or an underscore: no blank, no comma, no parenthesis
  have hother : (isAsciiBlank c || c == ',') = false := by
    have hne : ∀ d, ¬IsWordChar d → c ≠ d := fun d hd => hfirst.2.ne hd
    simp [isAsciiBlank, hne ' ' (by decide), hne '\t' (by decide), hne '\n' (by decide),
      hne '\x0c' (by decide), hne '\x0d' (by decide), hne ',' (by decide)]
  rw [hrender]
  rw [hc, List.cons_append] at htake hdrop ⊢
  rw [clauses]
  · rw [hother]
    simp only [Bool.false_eq_true, ↓reduceIte]
    split
    · next body hs =>
      obtain rfl := (List.cons.inj (hdrop.symm.trans hs)).2
      split
      · next hn => simp [hn] at hclose
      · next inside rest' hi =>
        obtain ⟨rfl, rfl⟩ := Prod.mk.inj (Option.some.inj (hclose.symm.trans hi))
        rw [htake, h.trim_eq]
    · next hs => exact absurd hdrop (hs _)
  · exact hfirst.2.ne (by decide)

/-- Attributes with a blank in front of each are cut apart. -/
theorem clauses_attributes (h : ∀ a ∈ as, IsParameter a) :
    clauses (as.flatMap fun a => ' ' :: renderAttribute a.1 a.2) =
      .ok (as.map fun a => .attribute a.1.toList a.2) := by
  induction as with
  | nil => rw [List.flatMap_nil, clauses, List.map_nil]
  | cons a as ih =>
    rw [List.forall_mem_cons] at h
    rw [List.flatMap_cons, List.cons_append, clauses_space, clauses_attribute h.1, ih h.2]
    rfl

end Clauses

/-! ## Operations -/

/-- A number in an attribute is read back. -/
theorem readEntry_eq {n : Nat} (h : n < indexBound) {s : List Char}
    (hs : trim s = Nat.toDigits 10 n) : readEntry s = .ok n := by
  simp [readEntry, hs, Nat.toDigits_ne_nil, readIndex?_toDigits h]

/-- **Numbers in an attribute** are read back. -/
theorem readEntries_renderNats {ns : List Nat} (h : ∀ n ∈ ns, n < indexBound) :
    readEntries (renderNats ns) = .ok ns := by
  cases ns with
  | nil => rfl
  | cons n ns =>
    rw [List.forall_mem_cons] at h
    have hcommas : ∀ t ∈ Nat.toDigits 10 n :: ns.map (Nat.toDigits 10), ',' ∉ t := by
      intro t ht hm
      obtain ⟨k, _, rfl⟩ := List.mem_map.mp (List.map_cons (f := Nat.toDigits 10) ▸ ht)
      simpa using allDigits_toDigits k ',' hm
    have hsplit : (renderNats (n :: ns)).splitOn ',' =
        Nat.toDigits 10 n :: (ns.map (Nat.toDigits 10)).map (' ' :: ·) := by
      rw [renderNats, List.map_cons, splitOn_commaSeparated hcommas]
    have hne : (renderNats (n :: ns)).isEmpty = false := by
      cases hr : renderNats (n :: ns) with
      | nil => simp [hr] at hsplit
      | cons => rfl
    have hrest : ((ns.map (Nat.toDigits 10)).map (' ' :: ·)).mapM readEntry = .ok ns := by
      rw [List.map_map]
      exact mapM_map_eq_ok fun k hk => readEntry_eq (h.2 k hk) (solid_toDigits k).trim_space
    rw [readEntries, trim_renderNats, hne, hsplit, List.mapM_cons,
      readEntry_eq h.1 (solid_toDigits n).trim_eq, ok_bind, hrest]
    rfl

/-- The clauses of a call as it is written. -/
def writtenClauses (ts : List (List Char)) (op : Operation) : List Clause :=
  .operands ts :: op.parameters.map fun a => .attribute a.1.toList a.2

theorem operandTexts_written (ts : List (List Char)) (op : Operation) :
    operandTexts (writtenClauses ts op) = ts := by
  simp [operandTexts, writtenClauses, List.flatMap_map]

/-- The last attribute of a name is found among the parameters. -/
theorem attribute?_written (ts : List (List Char)) (op : Operation) (word : String) :
    attribute? (writtenClauses ts op) word =
      op.parameters.reverse.findSome? fun a => if a.1 = word then some a.2 else none := by
  rw [attribute?, writtenClauses, List.reverse_cons, List.findSome?_append, ← List.map_reverse,
    List.findSome?_map]
  simp [Function.comp_def, String.toList_inj]

/-- **An operation is read back** from its word and its attributes. -/
theorem CallText.operation_eq {c : CallText} {op : Operation} {ts : List (List Char)}
    (h : op.Printable) (hc : c.clauses = writtenClauses ts op) :
    c.operation op.keyword = .ok op := by
  cases op with
  | transpose perm =>
    have hread : readEntries (renderNats perm) = .ok perm := readEntries_renderNats h
    show c.transpose = _
    simp [transpose, hc, attribute?_written, Operation.parameters, hread, Except.map]
  | reshape dims =>
    have hread : readEntries (renderNats dims) = .ok dims := readEntries_renderNats h
    show c.reshape = _
    simp [reshape, hc, attribute?_written, Operation.parameters, hread, Except.map]
  | sum axes keepdims =>
    have haxes : attribute? c.clauses "axes" = axes.map renderNats := by
      rw [hc, attribute?_written]
      cases axes <;> cases keepdims <;> rfl
    have hkeep : attribute? c.clauses "keepdims" =
        if keepdims then some "true".toList else none := by
      rw [hc, attribute?_written]
      cases axes <;> cases keepdims <;> rfl
    have hread : (axes.map renderNats).mapM readEntries = .ok axes := by
      cases axes with
      | none => rfl
      | some ns =>
        rw [Option.map_some, Option.mapM_some, readEntries_renderNats (h ns rfl)]
        rfl
    show c.sum = _
    rw [sum, haxes, hread, hkeep]
    cases keepdims <;> rfl
  | softmax axis =>
    have hread := readEntry_eq (n := axis) h (solid_toDigits axis).trim_eq
    show c.softmax = _
    simp [softmax, hc, attribute?_written, Operation.parameters, hread, Except.map]
  | customCall target =>
    have h : IsWord target := h
    show c.customCall = _
    simp [customCall, hc, attribute?_written, Operation.parameters, h.solid.trim_eq, h.ne_empty]
  | _ => rfl

/-! ## Expressions -/

/-- **`Printable`** -- an expression that can be read; a component of a tuple is a projection and
no alias. -/
def Expr.Printable : Expr → Prop
  | .call op operands => op.Printable ∧ ∀ x ∈ operands, x.Printable
  | .tuple fields => TupleField.AllPrintable fields
  | .tupleGet _ index => index < indexBound
  | .alias (.tupleElement _ _) => False
  | .alias x => x.Printable

instance : DecidablePred Expr.Printable
  | .call _ _ => inferInstanceAs (Decidable (_ ∧ _))
  | .tuple fields => TupleField.decAllPrintable fields
  | .tupleGet _ index => inferInstanceAs (Decidable (index < indexBound))
  | .alias (.tupleElement _ _) => isFalse id
  | .alias (.value id) => inferInstanceAs (Decidable (Operand.value id).Printable)
  | .alias (.literal l) => inferInstanceAs (Decidable (Operand.literal l).Printable)

/-- What stands for its own is an operand that can be read. -/
theorem Expr.Printable.of_alias {x : Operand} (h : (Expr.alias x).Printable) : x.Printable := by
  cases x with
  | tupleElement tuple index => exact h.elim
  | _ => exact h

namespace Expr

/-- **`Legible`** -- an expression whose operation and operands are legible; a component of a
tuple is a projection and no alias. -/
def Legible : Expr → Prop
  | .call op operands => op.Printable ∧ ∀ x ∈ operands, x.Legible
  | .tuple fields => TupleField.AllLegible fields
  | .tupleGet _ index => index < indexBound
  | .alias x => x.Legible ∧ ∀ tuple index, x ≠ .tupleElement tuple index

/-- The expression that its text spells. -/
def spelled : Expr → Expr
  | .call op operands => .call op (operands.map Operand.spelled)
  | .tuple fields => .tuple (TupleField.spelledAll fields)
  | .tupleGet source index => .tupleGet source index
  | .alias x => .alias x.spelled

/-- **`Leads`** -- an expression that is told apart by its first character: an alias starts like
an operand. -/
def Leads : Expr → Prop
  | .alias x => x.Leads
  | _ => True

/-- Expressions that can be read are legible, lead, and are spelled as they are. -/
theorem Printable.legible {e : Expr} (h : e.Printable) : e.Legible ∧ e.Leads ∧ e.spelled = e := by
  cases e with
  | call op operands =>
    have hspelled : operands.map Operand.spelled = operands :=
      map_eq_self_iff.mpr fun x hx => (h.2 x hx).legible.2.2
    exact ⟨⟨h.1, fun x hx => (h.2 x hx).legible.1⟩, trivial, congrArg (Expr.call op) hspelled⟩
  | tuple fields =>
    obtain ⟨hlegible, hspelled⟩ := TupleField.AllPrintable.legible fields h
    exact ⟨hlegible, trivial, congrArg Expr.tuple hspelled⟩
  | tupleGet tuple index => exact ⟨h, trivial, rfl⟩
  | «alias» x =>
    obtain ⟨hlegible, hleads, hspelled⟩ := h.of_alias.legible
    refine ⟨⟨hlegible, ?_⟩, hleads, congrArg Expr.alias hspelled⟩
    rintro tuple index rfl
    exact h

end Expr

/-- The words for operations. -/
def keywords : List String :=
  plainOperations.map Operation.keyword ++
    ["transpose", "reshape", "sum", "softmax", "custom_call"]

theorem Operation.keyword_mem (op : Operation) : op.keyword ∈ keywords := by
  cases op <;> simp [keyword, name, keywords, plainOperations]

/-- The word for an operation is told apart from an operand and from a tuple. -/
theorem Operation.keyword_spec (op : Operation) :
    (∀ c ∈ op.keyword.toList, isOperationChar c = true ∧ IsWordChar c) ∧
      op.keyword.toList ≠ "tuple".toList ∧
      ∃ c rest, op.keyword.toList = c :: rest ∧ startsOperand c = false := by
  have hall : ∀ word ∈ keywords, (∀ c ∈ word.toList, isOperationChar c = true ∧ IsWordChar c) ∧
      word.toList ≠ "tuple".toList ∧ word.toList.head?.any (fun c => !startsOperand c) = true := by
    decide
  obtain ⟨hchars, htuple, hhead⟩ := hall op.keyword op.keyword_mem
  refine ⟨hchars, htuple, ?_⟩
  cases hword : op.keyword.toList with
  | nil => simp [hword] at hhead
  | cons c rest => exact ⟨c, rest, rfl, by simpa [hword] using hhead⟩

section Expressions

variable {f : Function} {scope : Scope} {e : Expr} {s : List Char}

/-- A text that starts like an operand is one. -/
theorem Expr.ofText_operand {c : Char} {rest : List Char} (hs : trim s = c :: rest)
    (hc : startsOperand c = true) (declared : ValueType) :
    Expr.ofText scope declared s = readAlias scope (trim s) := by
  rw [ofText, hs]
  simp only [hc, ↓reduceIte]

/-- A text that starts with a word and a parenthesis is a tuple or a call. -/
theorem Expr.ofText_word {word rest : List Char}
    (hword : ∀ c ∈ word, isOperationChar c = true)
    (hstart : ∃ c cs, word = c :: cs ∧ startsOperand c = false)
    (hs : trim s = word ++ '(' :: rest) (declared : ValueType) :
    Expr.ofText scope declared s =
      if word = "tuple".toList then readTuple scope ('(' :: rest)
      else readCall scope declared (String.ofList word) ('(' :: rest) := by
  have hend : ∀ c, ('(' :: rest).head? = some c → isOperationChar c = false := fun c hc => by
    rw [← Option.some.inj hc]
    rfl
  have htake := takeWhile_append_of_boundary hword hend
  have hdrop := dropWhile_append_of_boundary hword hend
  obtain ⟨c, cs, rfl, hc⟩ := hstart
  rw [List.cons_append] at hs htake hdrop
  rw [ofText, hs]
  simp only [htake, hdrop, hc, List.isEmpty_cons, Bool.false_eq_true, ↓reduceIte]

/-- Attributes keep a text solid. -/
theorem solid_attributes (as : List (String × List Char)) (hs : Solid s) :
    Solid (s ++ as.flatMap fun a => ' ' :: renderAttribute a.1 a.2) := by
  induction as generalizing s with
  | nil => simpa using hs
  | cons a as ih =>
    have hbracket : Solid [']'] := solid_of_forall (by simp) (by decide)
    have hstep := hs.append hbracket (' ' :: (a.1.toList ++ '[' :: a.2))
    have := ih hstep
    simpa [renderAttribute] using this

/-- What stands behind the word of a call. -/
def Function.renderArguments (f : Function) (op : Operation) (operands : List Operand) :
    List Char :=
  '(' :: (commaSeparated (operands.map f.renderOperand) ++
    ')' :: op.parameters.flatMap fun a => ' ' :: renderAttribute a.1 a.2)

theorem Function.renderCall_eq (f : Function) (op : Operation) (operands : List Operand) :
    f.renderCall op operands = op.keyword.toList ++ f.renderArguments op operands := by
  rw [renderCall, op.attributes_eq, List.flatMap_map, renderArguments]
  simp

section Call

variable {op : Operation} {operands : List Operand}

/-- Operands of a call are pieces. -/
theorem Function.piece_operands (hx : ∀ x ∈ operands, x.Legible)
    (hshow : ∀ id ∈ operands.filterMap Operand.value?, f.Shows scope id) :
    ∀ t ∈ operands.map f.renderOperand, Piece t := by
  intro t ht
  obtain ⟨x, hm, rfl⟩ := List.mem_map.mp ht
  exact (renderOperand_spec (hx x hm) fun id hid =>
    hshow id (List.mem_filterMap.mpr ⟨x, hm, hid⟩)).1

theorem Function.solid_renderArguments (hx : ∀ x ∈ operands, x.Legible)
    (hshow : ∀ id ∈ operands.filterMap Operand.value?, f.Shows scope id) :
    Solid (f.renderArguments op operands) := by
  have hgroup := (Piece.group (piece_operands hx hshow)).solid
  have hsolid := solid_attributes op.parameters hgroup
  rwa [List.cons_append, List.append_assoc, List.singleton_append] at hsolid

/-- The clauses of a call are cut apart. -/
theorem Function.clauses_renderArguments (hop : op.Printable) (hx : ∀ x ∈ operands, x.Legible)
    (hshow : ∀ id ∈ operands.filterMap Operand.value?, f.Shows scope id) :
    clauses (f.renderArguments op operands) =
      .ok (writtenClauses (operands.map f.renderOperand) op) := by
  rw [renderArguments, clauses_operands (piece_operands hx hshow),
    clauses_attributes (Operation.isParameter hop)]
  rfl

/-- **A call is read back** from what stands behind its word. -/
theorem readCall_eq (hop : op.Printable) (hx : ∀ x ∈ operands, x.Legible)
    (hshow : ∀ id ∈ operands.filterMap Operand.value?, f.Shows scope id) (declared : ValueType) :
    readCall scope declared op.keyword (f.renderArguments op operands) =
      .ok (.call op (operands.map Operand.spelled)) := by
  have hoperands : (operands.map f.renderOperand).mapM (Operand.ofText scope) =
      .ok (operands.map Operand.spelled) := by
    rw [List.mapM_map]
    refine mapM_eq_ok_map fun x hm => ?_
    have hid : ∀ id ∈ x.value?, f.Shows scope id := fun id hid =>
      hshow id (List.mem_filterMap.mpr ⟨x, hm, hid⟩)
    exact Operand.ofText_eq (hx x hm) hid
      (Function.renderOperand_spec (hx x hm) hid).1.solid.trim_eq
  have hread := CallText.operation_eq (c := ⟨scope, operands.map Operand.spelled,
    writtenClauses (operands.map f.renderOperand) op, declared⟩) hop rfl
  rw [readCall, (Function.solid_renderArguments hx hshow).trim_eq,
    Function.clauses_renderArguments hop hx hshow, ok_bind, operandTexts_written, hoperands,
    ok_bind, hread, ok_bind]
  rfl

/-- The characters behind the word of a call. -/
theorem Function.inLine_renderArguments (hop : op.Printable) (hx : ∀ x ∈ operands, x.Legible)
    (hshow : ∀ id ∈ operands.filterMap Operand.value?, f.Shows scope id) :
    ∀ c ∈ f.renderArguments op operands, IsLineChar c := by
  have hgroup := (Piece.group (piece_operands hx hshow)).inLine
  have hattributes : ∀ c ∈ op.parameters.flatMap (fun a => ' ' :: renderAttribute a.1 a.2),
      IsLineChar c := by
    intro c hc
    obtain ⟨a, ha, hc⟩ := List.mem_flatMap.mp hc
    have hp := Operation.isParameter hop a ha
    simp only [renderAttribute, List.mem_cons, List.mem_append, List.not_mem_nil, or_false] at hc
    rcases hc with rfl | hc | rfl | hc | rfl
    · decide
    · exact (hp.name c hc).2.isLineChar
    · decide
    · rcases hp.value c hc with hc | rfl | rfl
      · exact hc.isLineChar
      · decide
      · decide
    · decide
  have hsplit : f.renderArguments op operands =
      '(' :: (commaSeparated (operands.map f.renderOperand) ++ [')']) ++
        op.parameters.flatMap fun a => ' ' :: renderAttribute a.1 a.2 := by
    rw [renderArguments, List.cons_append, List.append_assoc, List.singleton_append]
  rw [hsplit]
  exact List.forall_mem_append.mpr ⟨hgroup, hattributes⟩

end Call

/-- An operand on its own that leads is read back. -/
theorem Expr.ofText_alias {x : Operand} (hx : x.Legible) (hleads : x.Leads)
    (hshow : ∀ id ∈ x.value?, f.Shows scope id) {declared : ValueType}
    (hs : trim s = f.renderOperand x) :
    Expr.ofText scope declared s =
      match x with
      | .tupleElement source index => .ok (.tupleGet source index)
      | x => .ok (.alias x.spelled) := by
  obtain ⟨hpiece, -⟩ := Function.renderOperand_spec hx hshow
  obtain ⟨c, rest, hrender, hc⟩ := Function.renderOperand_head hx hleads hshow
  have htrim : trim (trim s) = f.renderOperand x := by rw [hs, hpiece.solid.trim_eq]
  rw [ofText_operand (hs.trans hrender) hc, readAlias, Operand.ofText_eq hx hshow htrim, ok_bind]
  cases x <;> rfl

/-- **A number that goes by a name** is not read on its own: the name is taken for that of an
operation. -/
theorem Expr.ofText_name {l : Literal} (hl : l.Legible) (hleads : ¬l.Leads) (declared : ValueType)
    (hs : trim s = l.render) : ∃ e, Expr.ofText scope declared s = .error e := by
  have hparts : clauses (trim []) = .ok [] := by rw [show trim [] = [] from rfl, clauses]
  have hcall : ∀ name, (∃ e, CallText.operation ⟨scope, [], [], declared⟩ name = .error e) →
      ∃ e, readCall scope declared name [] = .error e := by
    rintro name ⟨e, he⟩
    have hoperands : (operandTexts []).mapM (Operand.ofText scope) = .ok [] := rfl
    rw [readCall, hparts, ok_bind, hoperands, ok_bind, he]
    exact ⟨e, rfl⟩
  rcases hl.render_of_not_leads hleads with hname | hname
  · rw [ofText, hs, hname]
    exact hcall "inf" ⟨_, rfl⟩
  · rw [ofText, hs, hname]
    exact hcall "NaN" ⟨_, rfl⟩

/-- A field is written as a piece. -/
theorem Function.piece_renderField {field : TupleField} (hfield : field.Legible)
    (hshow : ∀ id ∈ field.values, f.Shows scope id) : Piece (f.renderField field) := by
  rw [← TupleField.spell_nest]
  exact Nest.Sound.piece_spell _ (field.sound_nest hfield hshow)

/-- **An expression that leads is read back** as it is spelled, whatever type is declared. -/
theorem Expr.ofText_eq (he : e.Legible) (hleads : e.Leads)
    (hshow : ∀ id ∈ e.values, f.Shows scope id) (declared : ValueType)
    (hs : trim s = f.renderExpr e) : Expr.ofText scope declared s = .ok e.spelled := by
  cases e with
  | call op operands =>
    obtain ⟨hchars, htuple, c, rest, hword, hstart⟩ := op.keyword_spec
    rw [Function.renderExpr, Function.renderCall_eq] at hs
    rw [ofText_word (fun c hc => (hchars c hc).1) ⟨c, rest, hword, hstart⟩ hs, if_neg htuple,
      String.ofList_toList]
    exact readCall_eq he.1 he.2 hshow declared
  | tuple fields =>
    have hpiece : Piece (f.renderField (.tuple fields)) := Function.piece_renderField he hshow
    have hnest : Nest.ofText false (f.renderField (.tuple fields)) =
        (TupleField.tuple fields).nest f :=
      Nest.ofText_eq false _ ((TupleField.tuple fields).sound_nest he hshow)
        (hpiece.solid.trim_eq.trans (TupleField.spell_nest _).symm)
    rw [Function.renderExpr] at hs
    have hword : ∃ c cs, "tuple".toList = c :: cs ∧ startsOperand c = false :=
      ⟨'t', ['u', 'p', 'l', 'e'], rfl, rfl⟩
    rw [ofText_word (by decide) hword hs, if_pos rfl, readTuple]
    rw [Function.renderField] at hnest
    rw [hnest, TupleField.nest]
    simp only [TupleField.ofNests_nestAll fields he hshow]
    rfl
  | tupleGet tuple index =>
    have hx : (Operand.tupleElement tuple index).Legible := he
    have hid : ∀ id ∈ (Operand.tupleElement tuple index).value?, f.Shows scope id :=
      fun id hid => hshow id (by simpa [values, Operand.value?] using Eq.symm hid)
    rw [ofText_alias hx trivial hid hs]
    rfl
  | «alias» x =>
    have hid : ∀ id ∈ x.value?, f.Shows scope id := fun id hid =>
      hshow id (by simpa [values] using hid)
    rw [ofText_alias he.1 hleads hid hs]
    cases x with
    | tupleElement tuple index => exact absurd rfl (he.2 tuple index)
    | _ => rfl

/-- Expressions stand within a line and are solid. -/
theorem Function.renderExpr_spec (he : e.Legible) (hshow : ∀ id ∈ e.values, f.Shows scope id) :
    Solid (f.renderExpr e) ∧ ∀ c ∈ f.renderExpr e, IsLineChar c := by
  cases e with
  | call op operands =>
    obtain ⟨hchars, -, c, rest, hword, -⟩ := op.keyword_spec
    have hkeyword : Solid op.keyword.toList :=
      solid_of_isWordChar (by simp [hword]) fun c hc => (hchars c hc).2
    rw [renderExpr, renderCall_eq]
    refine ⟨?_, List.forall_mem_append.mpr ⟨fun c hc => (hchars c hc).2.isLineChar, ?_⟩⟩
    · simpa using hkeyword.append (solid_renderArguments he.2 hshow) []
    · exact inLine_renderArguments he.1 he.2 hshow
  | tuple fields =>
    have hword : Piece "tuple".toList := piece_of_plain (by simp) (by decide)
    have hfields : Piece (f.renderField (.tuple fields)) := piece_renderField he hshow
    have hpiece := hword.append hfields
    exact ⟨hpiece.solid, hpiece.inLine⟩
  | tupleGet tuple index =>
    have hpiece := (renderOperand_spec (x := .tupleElement tuple index) he fun id hid =>
      hshow id (by simpa [Expr.values, Operand.value?] using Eq.symm hid)).1
    exact ⟨hpiece.solid, hpiece.inLine⟩
  | «alias» x =>
    have hpiece := (renderOperand_spec he.1 fun id hid =>
      hshow id (by simpa [Expr.values] using hid)).1
    exact ⟨hpiece.solid, hpiece.inLine⟩

end Expressions

end TensorGraph
