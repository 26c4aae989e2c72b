/-
# TensorGraph.Proofs.Headers -- closing braces in a header stand in its names

Trimming, cutting at a mark and cutting at commas lose nothing but blanks and marks, so that
what a header holds of any other character is found again in its parts. No type has a closing
brace in it. A closing brace in a header that is read is therefore part of the name of the
function or of a parameter, and a module tells how many of them there were in each header
(`ParsedModule.strays_of_ofText`).
-/
import TensorGraph.Proofs.Accepted
import TensorGraph.Proofs.Braces

namespace TensorGraph

/-! ## Characters that no cut loses -/

section Counts

variable {c mark : Char} {s rest : List Char}

theorem count_dropWhile {p : Char → Bool} (hc : p c = false) (s : List Char) :
    (s.dropWhile p).count c = s.count c := by
  have hno : c ∉ s.takeWhile p := by
    intro hm
    simpa [hc] using List.mem_takeWhile_imp hm
  calc (s.dropWhile p).count c
      = (s.takeWhile p).count c + (s.dropWhile p).count c := by
        rw [List.count_eq_zero_of_not_mem hno, Nat.zero_add]
    _ = s.count c := by rw [← List.count_append, List.takeWhile_append_dropWhile]

theorem count_trim (hc : isBlank c = false) (s : List Char) : (trim s).count c = s.count c := by
  unfold trim trimEnd trimStart
  rw [List.count_reverse, count_dropWhile hc, List.count_reverse, count_dropWhile hc]

theorem count_after? {word : String} (h : after? word s = some rest) :
    s.count c = word.toList.count c + rest.count c := by
  rw [after?_eq_some_iff] at h
  rw [← h, List.count_append]

theorem count_after?_of_notMem {word : String} (hc : c ∉ word.toList)
    (h : after? word s = some rest) : s.count c = rest.count c := by
  rw [count_after? h, List.count_eq_zero_of_not_mem hc, Nat.zero_add]

theorem count_cutAtFirst {before after : List Char} (hc : mark ≠ c)
    (h : cutAtFirst mark s = some (before, after)) :
    s.count c = before.count c + after.count c := by
  obtain ⟨rfl, -⟩ := eq_append_of_cutAtFirst h
  rw [List.count_append, List.count_cons_of_ne hc]

theorem count_closing? {opening close : Char} {depth : Nat} {inside : List Char} (hc : close ≠ c)
    (h : closing? opening close depth s = some (inside, rest)) :
    s.count c = inside.count c + rest.count c := by
  obtain rfl := eq_append_of_closing? h
  rw [List.count_append, List.count_cons_of_ne hc]

theorem count_cutAtCommas (hc : ',' ≠ c) (depth : Nat) (s : List Char) :
    (cutAtCommas depth s).1.count c + ((cutAtCommas depth s).2.map (List.count c)).sum =
      s.count c := by
  induction s generalizing depth with
  | nil => rfl
  | cons x s ih =>
    simp only [cutAtCommas]
    split
    · next hcomma =>
      have := ih 0
      simp only [List.map_cons, List.sum_cons, List.count_nil, hcomma.1,
        List.count_cons_of_ne hc]
      omega
    · have := ih (depthAfter x depth)
      simp only [List.count_cons]
      omega

theorem count_keptItems (hc : isBlank c = false) (text : List Char) (rest : List (List Char)) :
    ((keptItems text rest).map (List.count c)).sum =
      text.count c + (rest.map (List.count c)).sum := by
  induction rest generalizing text with
  | nil =>
    unfold keptItems
    split
    · next hblank =>
      rw [← count_trim hc text, List.isEmpty_iff.mp hblank]
      rfl
    · simp
  | cons next rest ih =>
    unfold keptItems
    split
    · next hempty =>
      rw [ih, List.isEmpty_iff.mp hempty]
      simp
    · simp [ih]

/-- **The items of a list** hold every character of it that is neither a comma nor a blank. -/
theorem count_items (hcomma : ',' ≠ c) (hc : isBlank c = false) (s : List Char) :
    ((items s).map (List.count c)).sum = s.count c := by
  have htrim : List.count c ∘ trim = List.count c := funext (count_trim hc)
  show (((keptItems _ _).map trim).map (List.count c)).sum = _
  rw [List.map_map, htrim, count_keptItems hc, count_cutAtCommas hcomma]

theorem notMem_of_trim (hc : isBlank c = false) (h : c ∉ trim s) : c ∉ s := by
  rwa [← List.count_eq_zero, ← count_trim hc, List.count_eq_zero]

/-- A character between marks stands in one of the pieces. -/
theorem notMem_of_splitOn (hc : c ≠ mark) (h : ∀ piece ∈ s.splitOn mark, c ∉ piece) : c ∉ s := by
  have hjoin : [mark].intercalate (s.splitOn mark) = s := List.intercalate_splitOn mark
  have hpieces : ∀ x ∈ [mark].intercalate (s.splitOn mark), x ≠ c := by
    refine intercalate_chars ?_ ?_
    · intro x hx
      rw [List.mem_singleton.mp hx]
      exact Ne.symm hc
    · rintro piece hpiece x hx rfl
      exact h piece hpiece hx
  intro hm
  rw [hjoin] at hpieces
  exact hpieces c hm rfl

end Counts

/-! ## Types -/

section Types

variable {s : List Char}

theorem notMem_of_readIndex? {n : Nat} (h : readIndex? s = some n) : rightBrace ∉ s := by
  have hdigits : ∀ c ∈ withoutPlus s, c.isDigit = true := by
    simp only [readIndex?] at h
    split at h
    · next hall =>
      simp only [Bool.and_eq_true, List.all_eq_true] at hall
      exact hall.1.2
    · cases h
  intro hm
  unfold withoutPlus at hdigits
  split at hdigits
  · have htail := (List.mem_cons.mp hm).resolve_left (by decide)
    exact absurd (hdigits _ htail) (by decide)
  · exact absurd (hdigits _ hm) (by decide)

theorem notMem_of_readDims {dims : List Nat} (h : readDims s = .ok dims) : rightBrace ∉ s := by
  refine notMem_of_splitOn (show rightBrace ≠ 'x' by decide) ?_
  intro piece hpiece
  obtain ⟨d, -, hd⟩ := forall₂_exists_of_mem (mapM_eq_ok_iff.mp h) hpiece
  dsimp only at hd
  refine notMem_of_trim (by decide) ?_
  split at hd
  · cases hd
  · split at hd
    · next hindex => exact notMem_of_readIndex? hindex
    · cases hd

theorem notMem_of_readDType {dtype : DType} (h : readDType s = .ok dtype) : rightBrace ∉ s := by
  refine notMem_of_trim (by decide) ?_
  intro hm
  have hlower : rightBrace ∈ (trim s).map Char.toLower := List.mem_map.mpr ⟨_, hm, by decide⟩
  -- lower case letters and digits only make the word
  simp only [readDType] at h
  split at h
  · next dtype' hname =>
    have hword := List.find?_some hname
    rw [beq_iff_eq] at hword
    have hbrace : rightBrace ∉ dtype'.name.toList := by cases dtype' <;> decide
    rw [hword, String.toList_ofList] at hbrace
    exact hbrace hlower
  · cases h

theorem notMem_of_readTensorBody {spec : TensorSpec} (h : readTensorBody s = .ok spec) :
    rightBrace ∉ s := by
  refine notMem_of_splitOn (show rightBrace ≠ ',' by decide) ?_
  unfold readTensorBody at h
  split at h
  · next hpieces =>
    rw [hpieces]
    exact fun piece hpiece => absurd hpiece List.not_mem_nil
  · next word parts hparts =>
    obtain ⟨dtype, hword, h⟩ := bind_eq_ok_iff.mp h
    rw [hparts]
    refine List.forall_mem_cons.mpr ⟨notMem_of_readDType hword, ?_⟩
    obtain ⟨hlength, hdims⟩ : parts.length ≤ 1 ∧
        rightBrace ∉ trim (parts.headD []) := by
      dsimp only at h
      split at h
      · next hempty =>
        rw [pure_bind] at h
        split at h
        · next hlength =>
          rw [List.isEmpty_iff.mp hempty]
          exact ⟨hlength, List.not_mem_nil⟩
        · cases h
      · obtain ⟨dims, hdims, h⟩ := bind_eq_ok_iff.mp h
        split at h
        · next hlength => exact ⟨hlength, notMem_of_readDims hdims⟩
        · cases h
    intro part hpart
    obtain ⟨x, rfl⟩ := List.length_eq_one_iff.mp
      (Nat.le_antisymm hlength (List.length_pos_of_mem hpart))
    rw [List.mem_singleton.mp hpart]
    exact notMem_of_trim (by decide) hdims

theorem notMem_of_readTensorType {ty : ValueType} (h : readTensorType s = .ok ty) :
    rightBrace ∉ s := by
  unfold readTensorType at h
  split at h
  · next body hbody =>
    obtain ⟨spec, hspec, -⟩ := map_eq_ok_iff.mp h
    obtain ⟨rest, hrest, hsuffix⟩ := Option.bind_eq_some_iff.mp hbody
    rw [after?_eq_some_iff] at hrest
    rw [List.isSuffixOf?_eq_some_iff_append_eq] at hsuffix
    rw [← hrest, ← hsuffix, List.mem_append, List.mem_append]
    rintro (hm | hm | hm)
    · exact absurd hm (by decide)
    · exact notMem_of_readTensorBody hspec hm
    · exact absurd hm (by decide)
  · cases h

/-- **A type** has no closing brace in it. -/
theorem ValueType.notMem_of_ofText {ty : ValueType} (h : ValueType.ofText s = .ok ty) :
    rightBrace ∉ s := by
  -- on the length of the text: the items of a list are shorter than the list
  induction hn : s.length using Nat.strong_induction_on generalizing s ty with
  | h n ih =>
    subst hn
    have htrim := length_trim_le s
    refine notMem_of_trim (by decide) ?_
    unfold ValueType.ofText at h
    rw [Nest.ofText] at h
    split at h
    · next body hbody =>
      rw [hbody, List.length_cons] at htrim
      split at h
      · cases h
      · next inside hclose =>
        have hinside := length_closing? hclose
        have hlength := length_trim_le inside
        rw [ValueType.ofNest, ValueType.ofNests_eq_mapM] at h
        obtain ⟨tys, htys, -⟩ := bind_eq_ok_iff.mp h
        have hitems : ∀ item ∈ items (trim inside), rightBrace ∉ item := by
          intro item hitem
          have hshort := length_of_mem_items hitem
          have hnest : Nest.ofText true item ∈
              (items (trim inside)).attach.map fun x => Nest.ofText true x.1 :=
            List.mem_map.mpr ⟨⟨item, hitem⟩, List.mem_attach _ _, rfl⟩
          obtain ⟨ty', -, hty'⟩ := forall₂_exists_of_mem (mapM_eq_ok_iff.mp htys) hnest
          exact ih item.length (by omega) hty' rfl
        have hsum : ((items (trim inside)).map (List.count rightBrace)).sum = 0 := by
          rw [List.sum_eq_zero_iff_forall_eq_nat, List.forall_mem_map]
          intro item hitem
          exact List.count_eq_zero_of_not_mem (hitems item hitem)
        rw [count_items (by decide) (by decide), count_trim (by decide)] at hsum
        rw [hbody, ← List.count_eq_zero, List.count_cons_of_ne (by decide),
          count_closing? (by decide) hclose, hsum]
        rfl
      · cases h
    · exact notMem_of_readTensorType h

end Types

/-! ## Headers -/

/-- The closing braces in the names of a function and of its parameters. -/
def Function.strays (f : Function) : Nat :=
  f.name.toList.count rightBrace + (f.params.map fun p => p.name.toList.count rightBrace).sum

section Headers

variable {s : List Char}

theorem count_valueName (s : List Char) :
    (valueName s).toList.count rightBrace = s.count rightBrace := by
  rw [valueName, String.toList_ofList, count_dropWhile (by decide), count_trim (by decide)]

theorem count_functionName (s : List Char) :
    (functionName s).toList.count rightBrace = s.count rightBrace := by
  have hsign : ((after? "@" (trim s)).getD (trim s)).count rightBrace =
      (trim s).count rightBrace := by
    cases hafter : after? "@" (trim s) with
    | none => rfl
    | some rest => exact (count_after?_of_notMem (by decide) hafter).symm
  show (String.ofList _).toList.count rightBrace = _
  rw [String.toList_ofList, count_trim (by decide), hsign, count_trim (by decide)]

/-- The closing braces of a parameter whose type is not read yet. -/
def ParamText.strays (p : ParamText) : Nat := p.name.toList.count rightBrace + p.ty.count rightBrace

theorem ParamText.strays_of_ofText {p : ParamText} (h : ParamText.ofText s = .ok p) :
    p.strays = s.count rightBrace := by
  obtain ⟨name, ty, hcolon, rfl⟩ := parts_of_ofText h
  have hblank : isBlank rightBrace = false := by decide
  rw [count_cutAtFirst (by decide) hcolon]
  simp only [strays, count_valueName, count_trim hblank]

theorem ParamText.map_strays {texts : List (List Char)} {params : List ParamText}
    (h : List.Forall₂ (fun text p => ParamText.ofText text = .ok p) texts params) :
    params.map ParamText.strays = texts.map (List.count rightBrace) := by
  rw [← List.forall₂_eq_eq_eq, List.forall₂_map_left_iff, List.forall₂_map_right_iff]
  exact h.flip.imp fun p text hp => strays_of_ofText hp

/-- **The parts of a header** hold its closing braces. -/
theorem Header.count_of_ofText {header : Header} (h : Header.ofText s = .ok header) :
    s.count rightBrace = header.name.toList.count rightBrace +
      (header.params.map ParamText.strays).sum + header.result.count rightBrace := by
  obtain ⟨word, name, behind, inside, rest, params, result, hkeyword, hopen, hclose, hparams,
    hresult, rfl⟩ := parts_of_ofText h
  have hblank : isBlank rightBrace = false := by decide
  -- the parts, from the outside to the inside
  have hword : (trim s).count rightBrace = word.count rightBrace := by
    rcases Option.or_eq_some_iff.mp hkeyword with hafter | ⟨-, hafter⟩ <;>
      exact count_after?_of_notMem (by decide) hafter
  have hname := count_cutAtFirst (c := rightBrace) (by decide) hopen
  have hlist := count_closing? (c := rightBrace) (by decide) hclose
  have hitems : (params.map ParamText.strays).sum = inside.count rightBrace := by
    rw [← count_trim hblank inside, ← count_items (by decide) hblank, ParamText.map_strays hparams]
  have hresult' := count_after?_of_notMem (c := rightBrace) (by decide) hresult
  rw [count_trim hblank] at hword hresult'
  simp only [count_functionName]
  omega

/-- No type of a parameter has a closing brace in it. -/
theorem sum_of_defineParams {texts : List ParamText} {params : List Param} {scope scope' : Scope}
    (h : defineParams scope texts = .ok (params, scope')) :
    (texts.map ParamText.strays).sum =
      (params.map fun p => p.name.toList.count rightBrace).sum := by
  induction texts generalizing params scope with
  | nil =>
    cases h
    rfl
  | cons p texts ih =>
    obtain ⟨ty, id, mid, params', hty, -, hrest, rfl⟩ := exists_of_defineParams h
    have hno := List.count_eq_zero_of_not_mem (ValueType.notMem_of_ofText hty)
    simp only [List.map_cons, List.sum_cons, ih hrest, ParamText.strays, hno, Nat.add_zero]

/-- **A function that is read** has in its names the closing braces of its header. -/
theorem ParsedFunction.strays_of_ofText {t : FunctionText} {pf : ParsedFunction}
    (h : ParsedFunction.ofText t = .ok pf) : t.strays = pf.function.strays := by
  obtain ⟨header, ty, params, scope, body, hheader, hty, hparams, -, -, rfl⟩ := parts_of_ofText h
  have hno := List.count_eq_zero_of_not_mem (ValueType.notMem_of_ofText hty)
  rw [FunctionText.strays, Header.count_of_ofText hheader, sum_of_defineParams hparams, hno,
    Nat.add_zero, Function.strays]

/-- **A module that is read** tells how many closing braces each header had. -/
theorem ParsedModule.strays_of_ofText {m : ParsedModule} (h : ParsedModule.ofText s = .ok m) :
    ∃ texts, functionTexts s = .ok texts ∧
      texts.map FunctionText.strays = m.module.functions.map Function.strays := by
  obtain ⟨texts, pfs, -, htexts, hpfs, rfl, -⟩ := ParsedModule.parts_of_ofText h
  refine ⟨texts, htexts, ?_⟩
  show _ = (pfs.map ParsedFunction.function).map Function.strays
  rw [List.map_map, ← List.forall₂_eq_eq_eq, List.forall₂_map_left_iff,
    List.forall₂_map_right_iff]
  exact hpfs.imp fun t pf hpf => ParsedFunction.strays_of_ofText hpf

end Headers

end TensorGraph
