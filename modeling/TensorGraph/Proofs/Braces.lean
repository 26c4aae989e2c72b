/-
# TensorGraph.Proofs.Braces -- where the functions of a text begin and end

A text is cut into functions by counting braces. `braceDepth?` is that count over a stretch of
a body: behind a stretch that ends as deep as it began, the brace that closes the body is the
same as without it (`closing?_append`, `InBody.functionTexts_eq`).

The converse rests on the `Outline` of a text, which forgets all of a function but the number
of closing braces in its header. The outline is read one character at a time, and no step of it
loses anything (`Outline.step_injective`): two outlines that become the same over one text were
the same before it.
-/
import Mathlib.Data.List.Induction
import Mathlib.Data.List.TakeWhile
import TensorGraph.Proofs.Outcome
import TensorGraph.Proofs.Scanning
import TensorGraph.Text.Module

namespace TensorGraph

/-! ## The depth behind a stretch of a body -/

/-- **`braceDepth?`** -- how many braces are open behind a text, when `depth` of them are open
before it; none if the text closes one more than that. -/
def braceDepth? : Nat → List Char → Option Nat
  | depth, [] => some depth
  | depth, c :: cs =>
    if c = leftBrace then braceDepth? (depth + 1) cs
    else if c = rightBrace then
      match depth with
      | 0 => none
      | depth + 1 => braceDepth? depth cs
    else braceDepth? depth cs

section Depth

variable {depth depth' : Nat} {c : Char} {s t inside rest : List Char}

theorem braceDepth?_other (hopen : c ≠ leftBrace) (hclose : c ≠ rightBrace) :
    braceDepth? depth (c :: s) = braceDepth? depth s := by
  cases depth <;> simp [braceDepth?, hopen, hclose]

theorem braceDepth?_of_notMem (hopen : leftBrace ∉ s) (hclose : rightBrace ∉ s) :
    braceDepth? depth s = some depth := by
  induction s with
  | nil => rfl
  | cons c s ih =>
    rw [List.mem_cons, not_or] at hopen hclose
    rw [braceDepth?_other (Ne.symm hopen.1) (Ne.symm hclose.1)]
    exact ih hopen.2 hclose.2

theorem braceDepth?_append :
    braceDepth? depth (s ++ t) = (braceDepth? depth s).bind fun d => braceDepth? d t := by
  induction s generalizing depth with
  | nil => rfl
  | cons c s ih =>
    simp only [List.cons_append, braceDepth?]
    split
    · exact ih
    · split
      · cases depth with
        | zero => rfl
        | succ depth => exact ih
      · exact ih

/-- **The search for the closing brace** passes over a text and goes on at the depth behind
it. -/
theorem closing?_append (h : braceDepth? depth s = some depth') (tail : List Char) :
    closing? leftBrace rightBrace depth (s ++ tail) =
      (closing? leftBrace rightBrace depth' tail).map fun p => (s ++ p.1, p.2) := by
  induction s generalizing depth with
  | nil =>
    obtain rfl := Option.some.inj h
    show closing? _ _ depth tail = _
    simp
  | cons c s ih =>
    simp only [braceDepth?] at h
    simp only [List.cons_append, closing?]
    split at h
    · next hopen => simp [hopen, ih h, Option.map_map, Function.comp_def]
    · next hopen =>
      split at h
      · next hclose =>
        cases depth with
        | zero => cases h
        | succ depth => simp [hclose, ih h, Option.map_map, Function.comp_def]
      · next hclose => simp [hopen, hclose, ih h, Option.map_map, Function.comp_def]

/-- In front of the brace that closes it, a body has closed every brace that it opened. -/
theorem braceDepth?_of_closing? (h : closing? leftBrace rightBrace depth s = some (inside, rest)) :
    braceDepth? depth inside = some 0 := by
  induction s generalizing depth inside with
  | nil => simp [closing?] at h
  | cons c s ih =>
    simp only [closing?] at h
    split at h
    · next hopen =>
      obtain ⟨⟨i, r⟩, hr, he⟩ := Option.map_eq_some_iff.mp h
      obtain ⟨rfl, rfl⟩ := Prod.mk.inj he
      simpa [braceDepth?, hopen] using ih hr
    · next hopen =>
      split at h
      · next hclose =>
        cases depth with
        | zero =>
          obtain ⟨rfl, rfl⟩ := Prod.mk.inj (Option.some.inj h)
          rfl
        | succ depth =>
          obtain ⟨⟨i, r⟩, hr, he⟩ := Option.map_eq_some_iff.mp h
          obtain ⟨rfl, rfl⟩ := Prod.mk.inj he
          simpa [braceDepth?, hclose] using ih hr
      · next hclose =>
        obtain ⟨⟨i, r⟩, hr, he⟩ := Option.map_eq_some_iff.mp h
        obtain ⟨rfl, rfl⟩ := Prod.mk.inj he
        rw [braceDepth?_other hopen hclose]
        exact ih hr

/-- A character that closes one brace more than are open closes the body. -/
theorem closing?_of_braceDepth?_eq_none (h : braceDepth? depth [c] = none) :
    closing? leftBrace rightBrace depth [c] = some ([], []) := by
  by_cases hopen : c = leftBrace
  · simp [braceDepth?, hopen] at h
  · by_cases hclose : c = rightBrace
    · cases depth with
      | zero => simp [closing?, hclose]
      | succ depth => simp [braceDepth?, hclose] at h
    · rw [braceDepth?_other hopen hclose] at h
      cases h

end Depth

/-! ## Functions one behind the other -/

section Cutting

variable {s header : List Char} {texts : List FunctionText}

theorem functionTexts_of_blank (h : ∀ c ∈ s, isBlank c = true) : functionTexts s = .ok [] := by
  have hnil : trimStart s = [] := List.dropWhile_eq_nil_iff.mpr h
  rw [functionTexts, hnil]
  rfl

/-- **A function is cut off** at the brace that closes its body. -/
theorem functionTexts_open (hheader : leftBrace ∉ header) (rest : List Char) :
    functionTexts (header ++ leftBrace :: rest) =
      match closing? leftBrace rightBrace 0 rest with
      | none => .error .missingBodyClose
      | some (body, after) => (functionTexts after).map fun more => ⟨header, body⟩ :: more := by
  have hstart : (trimStart (header ++ leftBrace :: rest)).isEmpty = false := by
    rw [List.isEmpty_eq_false_iff, trimStart, Ne, List.dropWhile_eq_nil_iff]
    intro hblank
    exact absurd (hblank leftBrace (by simp)) (by decide)
  rw [functionTexts, hstart]
  simp only [Bool.false_eq_true, ↓reduceIte]
  split
  · next hcut =>
    rw [cutAtFirst_append hheader] at hcut
    cases hcut
  · next header' rest' hcut =>
    rw [cutAtFirst_append hheader] at hcut
    obtain ⟨rfl, rfl⟩ := Prod.mk.inj (Option.some.inj hcut)
    split <;> next hclose => rw [hclose]

/-- **Functions in front of a text** are cut off first; of the functions' text only blanks are
left over for the next header. -/
theorem functionTexts_append (h : functionTexts s = .ok texts) :
    ∃ tail, (∀ c ∈ tail, isBlank c = true) ∧ ∀ rest,
      functionTexts (s ++ rest) = (functionTexts (tail ++ rest)).map (texts ++ ·) := by
  -- the induction is that of the cutting
  fun_induction functionTexts s generalizing texts with
  | case1 s hblank =>
    cases h
    refine ⟨s, List.dropWhile_eq_nil_iff.mp (List.isEmpty_iff.mp hblank), ?_⟩
    intro rest
    cases functionTexts (s ++ rest) <;> rfl
  | case2 => cases h
  | case3 => cases h
  | case4 s _ header rest hopen body rest' hclose ih =>
    obtain ⟨more, hmore, rfl⟩ := map_eq_ok_iff.mp h
    obtain ⟨tail, htail, htexts⟩ := ih hmore
    refine ⟨tail, htail, ?_⟩
    intro behind
    obtain ⟨rfl, hheader⟩ := eq_append_of_cutAtFirst hopen
    obtain rfl := eq_append_of_closing? hclose
    have hbody : closing? leftBrace rightBrace 0 (body ++ rightBrace :: (rest' ++ behind)) =
        some (body, rest' ++ behind) := by
      rw [closing?_append (braceDepth?_of_closing? hclose)]
      simp [closing?]
    have hcut := functionTexts_open hheader (body ++ rightBrace :: (rest' ++ behind))
    rw [hbody] at hcut
    simp only [List.append_assoc, List.cons_append]
    rw [hcut]
    dsimp only
    rw [htexts behind]
    cases functionTexts (tail ++ behind) <;> rfl

end Cutting

/-! ## A place in a body -/

/-- **`InBody`** -- a text that ends inside the body of a function: functions that are complete,
a header, the brace that opens the body, and `front` of the body, behind which `depth` braces of
its own are open. -/
def InBody (above front : List Char) (depth : Nat) : Prop :=
  ∃ whole texts header, functionTexts whole = .ok texts ∧ leftBrace ∉ header ∧
    above = whole ++ header ++ leftBrace :: front ∧ braceDepth? 0 front = some depth

/-- **From a place in a body** the text goes on with the rest of that body. -/
theorem InBody.functionTexts_eq {above front : List Char} {depth : Nat}
    (h : InBody above front depth) :
    ∃ texts header, ∀ below, functionTexts (above ++ below) =
      match closing? leftBrace rightBrace depth below with
      | none => .error .missingBodyClose
      | some (back, after) =>
        (functionTexts after).map fun more => texts ++ ⟨header, front ++ back⟩ :: more := by
  obtain ⟨whole, texts, header, hwhole, hheader, rfl, hdepth⟩ := h
  obtain ⟨tail, htail, htexts⟩ := functionTexts_append hwhole
  refine ⟨texts, tail ++ header, ?_⟩
  intro below
  have hnew : leftBrace ∉ tail ++ header := by
    rw [List.mem_append, not_or]
    exact ⟨fun hm => absurd (htail _ hm) (by decide), hheader⟩
  have hassoc : whole ++ header ++ leftBrace :: front ++ below =
      whole ++ (header ++ leftBrace :: (front ++ below)) := by
    simp only [List.append_assoc, List.cons_append]
  rw [hassoc, htexts, ← List.append_assoc, functionTexts_open hnew, closing?_append hdepth]
  cases closing? leftBrace rightBrace depth below with
  | none => rfl
  | some p =>
    obtain ⟨back, after⟩ := p
    show Except.map _ (Except.map _ (functionTexts after)) = Except.map _ (functionTexts after)
    cases functionTexts after <;> rfl

/-- **Every place of a text** is in a header or in a body. -/
theorem inHeader_or_inBody (s : List Char) :
    (∃ whole texts header, functionTexts whole = .ok texts ∧ leftBrace ∉ header ∧
      s = whole ++ header) ∨ ∃ front depth, InBody s front depth := by
  induction s using List.reverseRecOn with
  | nil =>
    exact .inl ⟨[], [], [], functionTexts_of_blank (by simp), List.not_mem_nil, rfl⟩
  | append_singleton s c ih =>
    rcases ih with ⟨whole, texts, header, hwhole, hheader, rfl⟩ | ⟨front, depth, hbody⟩
    · by_cases hopen : c = leftBrace
      · subst hopen
        exact .inr ⟨[], 0, whole, texts, header, hwhole, hheader, rfl, rfl⟩
      · refine .inl ⟨whole, texts, header ++ [c], hwhole, ?_, List.append_assoc ..⟩
        rw [List.mem_append, List.mem_singleton, not_or]
        exact ⟨hheader, Ne.symm hopen⟩
    · cases hnext : braceDepth? depth [c] with
      | some depth' =>
        obtain ⟨whole, texts, header, hwhole, hheader, rfl, hdepth⟩ := hbody
        refine .inr ⟨front ++ [c], depth', whole, texts, header, hwhole, hheader, ?_, ?_⟩
        · rw [List.append_assoc, List.cons_append]
        · rw [braceDepth?_append, hdepth, Option.bind_some, hnext]
      | none =>
        -- the body is closed here, and the next header starts
        have hclose : closing? leftBrace rightBrace depth [c] = some ([], []) :=
          closing?_of_braceDepth?_eq_none hnext
        obtain ⟨texts, header, htexts⟩ := hbody.functionTexts_eq
        have hcut := htexts [c]
        rw [hclose] at hcut
        dsimp only at hcut
        rw [functionTexts_of_blank (s := []) (by simp)] at hcut
        exact .inl ⟨s ++ [c], _, [], hcut, List.not_mem_nil, (List.append_nil _).symm⟩

/-! ## Outlines -/

/-- **`Outline`** -- what a text has come to. -/
structure Outline where
  /-- The number of closing braces in the header of each function that is complete. -/
  complete : List Nat
  /-- The number of closing braces in the header that was read last. -/
  header : Nat
  /-- How many braces are open in a body; none outside of bodies. -/
  depth : Option Nat

namespace Outline

/-- **`step`** -- reads one more character. -/
def step (o : Outline) (c : Char) : Outline :=
  match o.depth with
  | none =>
    if c = leftBrace then { o with depth := some 0 }
    else if c = rightBrace then { o with header := o.header + 1 }
    else o
  | some depth =>
    if c = leftBrace then { o with depth := some (depth + 1) }
    else if c = rightBrace then
      match depth with
      | 0 => ⟨o.complete ++ [o.header], 0, none⟩
      | depth + 1 => { o with depth := some depth }
    else o

/-- **`read`** -- reads a text. -/
def read (o : Outline) (s : List Char) : Outline := s.foldl step o

variable {o o' : Outline} {complete : List Nat} {header depth depth' : Nat} {s : List Char}

theorem read_append (o : Outline) (s t : List Char) : o.read (s ++ t) = (o.read s).read t :=
  List.foldl_append

/-- **No step loses anything.** A closing brace leaves none behind it in the next header, while
in a header there is one behind it. -/
theorem step_injective {c : Char} (h : o.step c = o'.step c) : o = o' := by
  obtain ⟨complete, header, depth⟩ := o
  obtain ⟨complete', header', depth'⟩ := o'
  by_cases hopen : c = leftBrace
  · cases depth <;> cases depth' <;> simp_all [step]
  · by_cases hclose : c = rightBrace
    · rcases depth with _ | _ | depth <;> rcases depth' with _ | _ | depth' <;> simp_all [step]
    · cases depth <;> cases depth' <;> simp_all [step]

/-- Two outlines that become the same over one text were the same before it. -/
theorem read_injective (h : o.read s = o'.read s) : o = o' := by
  induction s generalizing o o' with
  | nil => exact h
  | cons c s ih => exact step_injective (ih h)

/-- The functions that are complete stay. -/
theorem length_complete_step (o : Outline) (c : Char) :
    o.complete.length ≤ (o.step c).complete.length := by
  obtain ⟨complete, header, depth⟩ := o
  by_cases hopen : c = leftBrace
  · cases depth <;> simp [step, hopen]
  · by_cases hclose : c = rightBrace
    · rcases depth with _ | _ | depth <;> simp [step, hclose]
    · cases depth <;> simp [step, hopen, hclose]

theorem length_complete_read (o : Outline) (s : List Char) :
    o.complete.length ≤ (o.read s).complete.length := by
  induction s generalizing o with
  | nil => exact Nat.le_refl _
  | cons c s ih => exact Nat.le_trans (o.length_complete_step c) (ih (o.step c))

/-- A header is read up to the brace that ends it. -/
theorem read_header (h : leftBrace ∉ s) :
    read ⟨complete, header, none⟩ s = ⟨complete, header + s.count rightBrace, none⟩ := by
  induction s generalizing header with
  | nil => rfl
  | cons c s ih =>
    rw [List.mem_cons, not_or] at h
    show read (step ⟨complete, header, none⟩ c) s = _
    by_cases hclose : c = rightBrace
    · subst hclose
      show read ⟨complete, header + 1, none⟩ s = _
      rw [ih h.2, List.count_cons_self, Nat.add_assoc, Nat.add_comm 1]
    · have hstep : step ⟨complete, header, none⟩ c = ⟨complete, header, none⟩ := by
        simp [step, Ne.symm h.1, hclose]
      rw [hstep, ih h.2, List.count_cons_of_ne hclose]

/-- **A stretch of a body** leads from one depth to another in that body exactly if its own
braces do: once a body is closed, one function more is complete for good. -/
theorem read_body_iff :
    read ⟨complete, header, some depth⟩ s = ⟨complete, header, some depth'⟩ ↔
      braceDepth? depth s = some depth' := by
  induction s generalizing depth with
  | nil => simp [read, braceDepth?]
  | cons c s ih =>
    show read (step ⟨complete, header, some depth⟩ c) s = _ ↔ _
    by_cases hopen : c = leftBrace
    · subst hopen
      exact ih
    · by_cases hclose : c = rightBrace
      · subst hclose
        cases depth with
        | succ depth => exact ih
        | zero =>
          have hlonger := length_complete_read ⟨complete ++ [header], 0, none⟩ s
          refine ⟨fun h => ?_, fun h => by cases h⟩
          have hleft : read ⟨complete ++ [header], 0, none⟩ s =
              ⟨complete, header, some depth'⟩ := h
          rw [hleft, List.length_append, List.length_singleton] at hlonger
          exact absurd hlonger (Nat.not_succ_le_self _)
      · have hstep : step ⟨complete, header, some depth⟩ c = ⟨complete, header, some depth⟩ := by
          simp [step, hopen, hclose]
        rw [hstep, braceDepth?_other hopen hclose]
        exact ih

end Outline

/-- The number of closing braces in the header of a function. -/
def FunctionText.strays (t : FunctionText) : Nat := t.header.count rightBrace

/-- **The outline of a text** that is cut into functions. -/
theorem Outline.read_of_functionTexts {s : List Char} {texts : List FunctionText}
    (complete : List Nat) (h : functionTexts s = .ok texts) :
    read ⟨complete, 0, none⟩ s = ⟨complete ++ texts.map FunctionText.strays, 0, none⟩ := by
  fun_induction functionTexts s generalizing texts complete with
  | case1 s hblank =>
    cases h
    have hall := List.dropWhile_eq_nil_iff.mp (List.isEmpty_iff.mp hblank)
    have hopen : leftBrace ∉ s := fun hm => absurd (hall _ hm) (by decide)
    have hclose : rightBrace ∉ s := fun hm => absurd (hall _ hm) (by decide)
    rw [read_header hopen, List.count_eq_zero_of_not_mem hclose, List.map_nil, List.append_nil]
  | case2 => cases h
  | case3 => cases h
  | case4 s _ header rest hopen body rest' hclose ih =>
    obtain ⟨more, hmore, rfl⟩ := map_eq_ok_iff.mp h
    obtain ⟨rfl, hheader⟩ := eq_append_of_cutAtFirst hopen
    obtain rfl := eq_append_of_closing? hclose
    have hbody := braceDepth?_of_closing? hclose
    rw [read_append, read_header hheader, Nat.zero_add]
    show read ⟨complete, header.count rightBrace, some 0⟩ (body ++ rightBrace :: rest') = _
    rw [read_append, read_body_iff.mpr hbody]
    show read ⟨complete ++ [header.count rightBrace], 0, none⟩ rest' = _
    rw [ih _ hmore, List.append_assoc]
    rfl

/-- **The outline at a place in a body** has the depth of that place. -/
theorem InBody.exists_outline {above front : List Char} {depth : Nat}
    (h : InBody above front depth) :
    ∃ complete header, Outline.read ⟨[], 0, none⟩ above = ⟨complete, header, some depth⟩ := by
  obtain ⟨whole, texts, header, hwhole, hheader, rfl, hdepth⟩ := h
  refine ⟨texts.map FunctionText.strays, header.count rightBrace, ?_⟩
  rw [Outline.read_append, Outline.read_append, Outline.read_of_functionTexts [] hwhole,
    List.nil_append, Outline.read_header hheader, Nat.zero_add]
  exact Outline.read_body_iff.mpr hdepth

/-- **Texts with the same stray braces.** If a text is cut into functions with and without a
stretch in a body, and header by header as many closing braces are found, then the stretch ends
as deep as it began. -/
theorem InBody.depth_eq_of_strays {above front inserted below : List Char} {depth : Nat}
    {texts texts' : List FunctionText} (h : InBody above front depth)
    (htexts : functionTexts (above ++ below) = .ok texts)
    (htexts' : functionTexts (above ++ inserted ++ below) = .ok texts')
    (hstrays : texts.map FunctionText.strays = texts'.map FunctionText.strays) :
    braceDepth? depth inserted = some depth := by
  obtain ⟨complete, header, habove⟩ := h.exists_outline
  have hplain := Outline.read_of_functionTexts [] htexts
  have hwith := Outline.read_of_functionTexts [] htexts'
  rw [Outline.read_append, habove] at hplain
  rw [Outline.read_append, Outline.read_append, habove, ← hstrays, ← hplain] at hwith
  exact Outline.read_body_iff.mp (Outline.read_injective hwith)

end TensorGraph
