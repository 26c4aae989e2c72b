/-
# TensorGraph.Proofs.Comments -- what a comment in a body changes

Comments are cut off line by line, but the text has been cut into functions before that, and
there the braces of a comment count like any others. So a comment adds no statement to the body
in which it stands (`Annotation.statements_eq`), while its braces can move the end of that body.
A comment is inert exactly if its braces lead back to the depth of the place where it is put
(`ParsedModule.ofText_annotated_iff`): braces in balance are, and so is a comment without braces.
-/
import TensorGraph.Proofs.Headers

namespace TensorGraph

/-! ## Statements, line by line -/

section Lines

variable {s t line rest : List Char}

/-- **`Idle`** -- a text that adds nothing to the statement in front of it on a line. -/
structure Idle (s : List Char) : Prop where
  /-- It stays on the line. -/
  line : '\n' ∉ s
  /-- Only blanks stand in front of its comment, if it has one. -/
  blank : ∀ c ∈ uncommented s, isBlank c = true
  /-- No slash at the end of the statement becomes part of a mark. -/
  head : s.head? ≠ some '/'

theorem idle_of_blank (h : ∀ c ∈ s, isBlank c = true ∧ c ≠ '\n') : Idle s where
  line hm := (h _ hm).2 rfl
  blank c hc := by
    have hsub := uncommented_prefix s
    exact (h c (hsub.subset hc)).1
  head hs := absurd (h _ (List.mem_of_head? hs)).1 (by decide)

theorem idle_comment (h : '\n' ∉ s) : Idle (" // ".toList ++ s) where
  line hm := (List.mem_append.mp hm).elim (by decide) h
  blank := by
    show ∀ c ∈ [' '], isBlank c = true
    intro c hc
    rw [List.mem_singleton.mp hc]
    rfl
  head := by
    show some ' ' ≠ some '/'
    decide

/-- What is appended to a line is cut off with the comment of that line, or by itself. -/
theorem uncommented_append (ht : t.head? ≠ some '/') :
    uncommented (s ++ t) = uncommented s ∨
      uncommented (s ++ t) = uncommented s ++ uncommented t := by
  fun_induction uncommented s with
  | case1 cs => exact .inl rfl
  | case2 c cs hno ih =>
    have hstep : uncommented (c :: cs ++ t) = c :: uncommented (cs ++ t) := by
      rw [List.cons_append, uncommented]
      rintro more rfl hslash
      cases cs with
      | nil => exact ht (congrArg List.head? hslash)
      | cons d ds =>
        rw [List.cons_append, List.cons.injEq] at hslash
        exact hno ds rfl (by rw [hslash.1])
    rw [hstep]
    rcases ih with h | h
    · exact .inl (by rw [h])
    · exact .inr (by rw [h, List.cons_append])
  | case3 => exact .inr rfl

/-- Blanks at the end are trimmed. -/
theorem trim_append_blank (ht : ∀ c ∈ t, isBlank c = true) : trim (s ++ t) = trim s := by
  unfold trim trimStart
  rw [List.dropWhile_append]
  split
  · next hblank =>
    rw [List.isEmpty_iff.mp hblank, List.dropWhile_eq_nil_iff.mpr ht]
  · have hrev : ∀ c ∈ t.reverse, isBlank c = true := fun c hc => ht c (List.mem_reverse.mp hc)
    unfold trimEnd
    rw [List.reverse_append, List.dropWhile_append_of_pos hrev]

theorem Idle.trim_uncommented (h : Idle t) (s : List Char) :
    trim (uncommented (s ++ t)) = trim (uncommented s) := by
  rcases uncommented_append (s := s) h.head with hs | hs
  · rw [hs]
  · rw [hs, trim_append_blank h.blank]

/-- **The statements behind a line break** follow those before it. -/
theorem statements_append (s t : List Char) :
    statements (s ++ '\n' :: t) = statements s ++ statements t := by
  unfold statements
  rw [List.splitOn, List.splitOnP_append_cons s t (by decide), ← List.splitOn, List.map_append,
    List.filterMap_append]
  rfl

theorem statements_line (h : '\n' ∉ line) :
    statements line = [trim (uncommented line)].filterMap fun line =>
      if line.isEmpty then none else some (Statement.ofLine line) := by
  unfold statements
  rw [List.splitOn_eq_singleton h]
  rfl

/-- **An idle text** behind a text adds no statement to it. -/
theorem Idle.statements_append (h : Idle t) (s : List Char) :
    statements (s ++ t) = statements s := by
  -- on the length of the text: one line is taken off after the other
  induction hn : s.length using Nat.strong_induction_on generalizing s with
  | h n ih =>
    by_cases hbreak : '\n' ∈ s
    · obtain ⟨line, rest, rfl⟩ := List.append_of_mem hbreak
      have hshort : rest.length < n := by
        rw [← hn, List.length_append, List.length_cons]
        omega
      rw [List.append_assoc, List.cons_append, TensorGraph.statements_append,
        TensorGraph.statements_append, ih rest.length hshort rest rfl]
    · have hline : '\n' ∉ s ++ t := fun hm => (List.mem_append.mp hm).elim hbreak h.line
      rw [statements_line hline, statements_line hbreak, h.trim_uncommented]

theorem Idle.statements_eq_nil (h : Idle s) : statements s = [] := h.statements_append []

end Lines

/-! ## Comments in a body -/

/-- **`EndsLine`** -- nothing but blanks is left of the line, which ends with a line break or with
the body. -/
def EndsLine (depth : Nat) (below : List Char) : Prop :=
  ∃ gap rest, (∀ c ∈ gap, isBlank c = true ∧ c ≠ '\n') ∧
    (below = gap ++ '\n' :: rest ∨ depth = 0 ∧ below = gap ++ rightBrace :: rest)

/-- **`StartsLine`** -- a line of the body starts behind the text. -/
def StartsLine (front : List Char) : Prop := front = [] ∨ ∃ lines, front = lines ++ ['\n']

/-- **`Annotation`** -- the ways to put a comment into a body, `front` of which stands before the
place and the rest of which stands in `below`. -/
inductive Annotation (comment front : List Char) (depth : Nat) (below : List Char) :
    List Char → Prop
  /-- At the end of a line. -/
  | appended (h : EndsLine depth below) :
    Annotation comment front depth below (" // ".toList ++ comment)
  /-- On a line of its own, below another one. -/
  | lineBelow (h : EndsLine depth below) :
    Annotation comment front depth below ('\n' :: (" // ".toList ++ comment))
  /-- On a line of its own, above another one. -/
  | lineAbove (h : StartsLine front) :
    Annotation comment front depth below (" // ".toList ++ comment ++ ['\n'])

section Annotations

variable {above front below comment inserted back after : List Char} {depth : Nat}

/-- The rest of a body whose line ends here. -/
theorem EndsLine.exists_back (h : EndsLine depth below)
    (hclose : closing? leftBrace rightBrace depth below = some (back, after)) :
    ∃ gap, (∀ c ∈ gap, isBlank c = true ∧ c ≠ '\n') ∧
      (back = gap ∨ ∃ more, back = gap ++ '\n' :: more) := by
  obtain ⟨gap, rest, hgap, hbelow⟩ := h
  refine ⟨gap, hgap, ?_⟩
  have hpass : braceDepth? depth gap = some depth :=
    braceDepth?_of_notMem (fun hm => absurd (hgap _ hm).1 (by decide))
      fun hm => absurd (hgap _ hm).1 (by decide)
  rcases hbelow with rfl | ⟨rfl, rfl⟩
  · rw [closing?_append hpass, closing?_other (by decide) (by decide), Option.map_map] at hclose
    obtain ⟨⟨more, rest'⟩, -, he⟩ := Option.map_eq_some_iff.mp hclose
    obtain ⟨rfl, rfl⟩ := Prod.mk.inj he
    exact .inr ⟨more, rfl⟩
  · rw [closing?_append hpass] at hclose
    obtain ⟨⟨more, rest'⟩, hmore, he⟩ := Option.map_eq_some_iff.mp hclose
    obtain ⟨rfl, rfl⟩ := Prod.mk.inj he
    obtain ⟨rfl, rfl⟩ := Prod.mk.inj (Option.some.inj hmore)
    exact .inl (List.append_nil gap)

/-- **No statement is added** by a comment. -/
theorem Annotation.statements_eq (h : Annotation comment front depth below inserted)
    (hcomment : '\n' ∉ comment)
    (hclose : closing? leftBrace rightBrace depth below = some (back, after)) :
    statements (front ++ (inserted ++ back)) = statements (front ++ back) := by
  cases h with
  | appended hend =>
    obtain ⟨gap, hgap, hback⟩ := hend.exists_back hclose
    have hline : '\n' ∉ comment ++ gap := fun hm =>
      (List.mem_append.mp hm).elim hcomment (idle_of_blank hgap).line
    have hwith : statements (front ++ (" // ".toList ++ (comment ++ gap))) =
        statements (front ++ gap) := by
      rw [(idle_comment hline).statements_append, (idle_of_blank hgap).statements_append]
    rcases hback with rfl | ⟨more, rfl⟩
    · simpa only [List.append_assoc] using hwith
    · have hassoc : front ++ (" // ".toList ++ comment ++ (gap ++ '\n' :: more)) =
          front ++ (" // ".toList ++ (comment ++ gap)) ++ '\n' :: more := by
        simp only [List.append_assoc]
      rw [hassoc, statements_append, hwith, ← statements_append, List.append_assoc]
  | lineBelow hend =>
    obtain ⟨gap, hgap, hback⟩ := hend.exists_back hclose
    have hline : '\n' ∉ comment ++ gap := fun hm =>
      (List.mem_append.mp hm).elim hcomment (idle_of_blank hgap).line
    have hnone := (idle_comment hline).statements_eq_nil
    have hgap' := (idle_of_blank hgap).statements_append front
    rw [List.cons_append, statements_append]
    rcases hback with rfl | ⟨more, rfl⟩
    · rw [List.append_assoc, hnone, List.append_nil, hgap']
    · have hassoc : " // ".toList ++ comment ++ (gap ++ '\n' :: more) =
          " // ".toList ++ (comment ++ gap) ++ '\n' :: more := by
        simp only [List.append_assoc]
      rw [hassoc, statements_append, hnone, List.nil_append, ← List.append_assoc front,
        statements_append, hgap']
  | lineAbove hstart =>
    have hassoc : front ++ (" // ".toList ++ comment ++ ['\n'] ++ back) =
        front ++ (" // ".toList ++ comment) ++ '\n' :: back := by
      simp only [List.append_assoc, List.singleton_append]
    rw [hassoc, statements_append, (idle_comment hcomment).statements_append]
    rcases hstart with rfl | ⟨lines, rfl⟩
    · rfl
    · rw [List.append_assoc, List.singleton_append, statements_append, statements_append]
      show statements lines ++ [] ++ statements back = _
      rw [List.append_nil]

/-- The braces of a comment are those of its text. -/
theorem Annotation.braceDepth?_eq (h : Annotation comment front depth below inserted) (d : Nat) :
    braceDepth? d inserted = braceDepth? d comment := by
  have hmark : ∀ s, braceDepth? d (" // ".toList ++ s) = braceDepth? d s := by
    intro s
    rw [braceDepth?_append, braceDepth?_of_notMem (by decide) (by decide), Option.bind_some]
  cases h with
  | appended => exact hmark comment
  | lineBelow => rw [braceDepth?_other (by decide) (by decide), hmark]
  | lineAbove =>
    have hbreak : ∀ d', braceDepth? d' ['\n'] = some d' := fun d' =>
      braceDepth?_of_notMem (by decide) (by decide)
    rw [braceDepth?_append, hmark]
    simp only [hbreak, Option.bind_fun_some]

end Annotations

/-! ## Modules -/

/-- **A function is read through its header and its statements.** -/
theorem ParsedFunction.ofText_congr (header : List Char) {body body' : List Char}
    (h : statements body = statements body') :
    ParsedFunction.ofText ⟨header, body⟩ = ParsedFunction.ofText ⟨header, body'⟩ := by
  simp only [ParsedFunction.ofText, Header.complete, ParsedBody.ofText, h]

namespace ParsedModule

/-- A module is read through what its functions are read as. -/
theorem ofText_congr {s s' : List Char} {before more : List FunctionText} {t t' : FunctionText}
    (hs : functionTexts s = .ok (before ++ t :: more))
    (hs' : functionTexts s' = .ok (before ++ t' :: more))
    (ht : ParsedFunction.ofText t = ParsedFunction.ofText t') : ofText s = ofText s' := by
  have hadd : ∀ m, add m t = add m t' := fun m => by simp only [add, ht]
  unfold ofText
  rw [hs, hs', ok_bind, ok_bind]
  cases before with
  | nil => simp only [List.nil_append, List.foldlM_cons, hadd]
  | cons u us => simp only [List.cons_append, List.foldlM_cons, List.foldlM_append, hadd]

variable {above front below comment inserted : List Char} {depth : Nat} {m : ParsedModule}

/-- **A comment whose braces lead back to its own depth** changes nothing. -/
theorem ofText_annotated_of_depth (h : ofText (above ++ below) = .ok m)
    (hbody : InBody above front depth) (hcomment : '\n' ∉ comment)
    (hinserted : Annotation comment front depth below inserted)
    (hdepth : braceDepth? depth comment = some depth) :
    ofText (above ++ inserted ++ below) = .ok m := by
  obtain ⟨before, header, htexts⟩ := hbody.functionTexts_eq
  obtain ⟨texts, pfs, -, hplain, -⟩ := parts_of_ofText h
  have hpass : braceDepth? depth inserted = some depth := by
    rw [hinserted.braceDepth?_eq, hdepth]
  -- the body goes on to the same brace, with the comment and without
  rw [htexts] at hplain
  split at hplain
  · cases hplain
  · next back after hclose =>
    obtain ⟨more, hmore, rfl⟩ := map_eq_ok_iff.mp hplain
    have hwith : functionTexts (above ++ inserted ++ below) =
        .ok (before ++ ⟨header, front ++ (inserted ++ back)⟩ :: more) := by
      rw [List.append_assoc, htexts, closing?_append hpass, hclose]
      show Except.map _ (functionTexts after) = _
      rw [hmore]
      rfl
    have hwithout : functionTexts (above ++ below) =
        .ok (before ++ ⟨header, front ++ back⟩ :: more) := by
      rw [htexts, hclose]
      show Except.map _ (functionTexts after) = _
      rw [hmore]
      rfl
    have hsame := ParsedFunction.ofText_congr header (hinserted.statements_eq hcomment hclose)
    rw [ofText_congr hwith hwithout hsame, h]

/-- **A comment is inert exactly if its braces are.** Put into the body of a function of a text
that is accepted, at the end of a line or on a line of its own, it leaves the module and the names
of the values as they were if and only if its braces lead from the depth of that place back to
it. -/
theorem ofText_annotated_iff (h : ofText (above ++ below) = .ok m)
    (hbody : InBody above front depth) (hcomment : '\n' ∉ comment)
    (hinserted : Annotation comment front depth below inserted) :
    ofText (above ++ inserted ++ below) = .ok m ↔ braceDepth? depth comment = some depth := by
  constructor
  · intro hwith
    obtain ⟨texts, htexts, hstrays⟩ := strays_of_ofText h
    obtain ⟨texts', htexts', hstrays'⟩ := strays_of_ofText hwith
    rw [← hinserted.braceDepth?_eq]
    exact hbody.depth_eq_of_strays htexts htexts' (hstrays.trans hstrays'.symm)
  · exact ofText_annotated_of_depth h hbody hcomment hinserted

/-- A function of one scalar, up to a place in its body. -/
def scalarUpTo (front : List Char) : List Char :=
  "func @f(%x: tensor<f32>) -> tensor<f32> ".toList ++ leftBrace :: front

theorem inBody_scalarUpTo (hdepth : braceDepth? 0 front = some depth) :
    InBody (scalarUpTo front) front depth :=
  ⟨[], [], "func @f(%x: tensor<f32>) -> tensor<f32> ".toList, functionTexts_of_blank (by simp),
    by decide, rfl, hdepth⟩

/-- A body up to a place in a region. -/
def regionFront : List Char := "\n  region \x7b\n    %y = exp(%x) -> tensor<f32>".toList

/-- What is left of the function. -/
def regionBelow : List Char := "\n    output %y\n  \x7d\n  return %y\n\x7d\n".toList

/-- In a region a comment may close the brace of the region and open it again. -/
theorem ofText_annotated_region : ∃ m, ofText (scalarUpTo regionFront ++ regionBelow) = .ok m ∧
    InBody (scalarUpTo regionFront) regionFront 1 ∧ '\n' ∉ "\x7d then \x7b".toList ∧
    Annotation "\x7d then \x7b".toList regionFront 1 regionBelow
      " // \x7d then \x7b".toList ∧
    ofText (scalarUpTo regionFront ++ " // \x7d then \x7b".toList ++ regionBelow) = .ok m := by
  obtain ⟨m, hm⟩ := exists_eq_ok_of_isOk
    (show (ofText (scalarUpTo regionFront ++ regionBelow)).isOk = true by decide +kernel)
  have hbody : InBody (scalarUpTo regionFront) regionFront 1 := inBody_scalarUpTo (by decide)
  have hcomment : '\n' ∉ "\x7d then \x7b".toList := by decide
  have hend : EndsLine 1 regionBelow := ⟨[], _, by simp, .inl rfl⟩
  have hinserted : Annotation "\x7d then \x7b".toList regionFront 1 regionBelow
      " // \x7d then \x7b".toList := .appended hend
  exact ⟨m, hm, hbody, hcomment, hinserted,
    (ofText_annotated_iff hm hbody hcomment hinserted).mpr (by decide)⟩

/-- A body up to the end of its last line. -/
def returnFront : List Char := "\n  return %x".toList

/-- **A closing brace in a comment** outside of regions closes the body, and what follows is taken
for the header of another function. -/
theorem ofText_closingComment : ∃ m,
    ofText (scalarUpTo returnFront ++ "\n\x7d\n".toList) = .ok m ∧
    InBody (scalarUpTo returnFront) returnFront 0 ∧ '\n' ∉ "\x7d".toList ∧
    Annotation "\x7d".toList returnFront 0 "\n\x7d\n".toList " // \x7d".toList ∧
    ofText (scalarUpTo returnFront ++ " // \x7d".toList ++ "\n\x7d\n".toList) =
      .error .missingBodyOpen := by
  obtain ⟨m, hm⟩ := exists_eq_ok_of_isOk
    (show (ofText (scalarUpTo returnFront ++ "\n\x7d\n".toList)).isOk = true by decide +kernel)
  have hbody : InBody (scalarUpTo returnFront) returnFront 0 := inBody_scalarUpTo (by decide)
  have hend : EndsLine 0 "\n\x7d\n".toList := ⟨[], _, by simp, .inl rfl⟩
  refine ⟨m, hm, hbody, by decide, .appended hend, ?_⟩
  have hmodule : Module.ofText (scalarUpTo returnFront ++ " // \x7d".toList ++
      "\n\x7d\n".toList) = .error .missingBodyOpen := by decide +kernel
  unfold Module.ofText at hmodule
  cases hread : ofText (scalarUpTo returnFront ++ " // \x7d".toList ++ "\n\x7d\n".toList) with
  | ok m' =>
    rw [hread] at hmodule
    cases hmodule
  | error e =>
    rw [hread] at hmodule
    exact congrArg Except.error (Except.error.inj hmodule)

end ParsedModule

end TensorGraph
