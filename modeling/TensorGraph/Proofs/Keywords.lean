/-
# TensorGraph.Proofs.Keywords -- the two keywords of a header

A header starts with `func` or with `function`. The shorter keyword is tried first, and it is the
start of the longer one, which therefore is never read (`afterKeyword?_eq`): where a header is
spelled with the longer keyword, what is left of it is taken for the start of the name. Of the
rest of the function nothing is read differently, so that a text with some of its keywords
exchanged is read as the same module under other names, or rejected where two of these are the
same (`ParsedModule.ofText_respell_iff`).
-/
import Mathlib.Data.List.DropRight
import TensorGraph.Proofs.Accepted

namespace TensorGraph

open scoped CoreInstances

/-! ## Trimming behind characters that are no blanks -/

section Trimming

variable {s t : List Char}

theorem trimEnd_prefix (s : List Char) : trimEnd s <+: s := List.rdropWhile_prefix isBlank s

theorem trimEnd_trimEnd (s : List Char) : trimEnd (trimEnd s) = trimEnd s :=
  List.rdropWhile_idempotent isBlank s

/-- Trimming at the end stops at a character that is no blank. -/
theorem trimEnd_append (hs : ∀ c ∈ s, isBlank c = false) (t : List Char) :
    trimEnd (s ++ t) = s ++ trimEnd t := by
  unfold trimEnd
  rw [List.reverse_append, List.dropWhile_append]
  split
  · next hblank =>
    rw [List.isEmpty_iff.mp hblank, List.reverse_nil, List.append_nil]
    refine List.rdropWhile_eq_self_iff.mpr fun hne => ?_
    rw [hs _ (List.getLast_mem hne)]
    exact Bool.false_ne_true
  · rw [List.reverse_append, List.reverse_reverse]

/-- A text that starts with characters that are no blanks is trimmed at the end only. -/
theorem trim_append (hne : s ≠ []) (hs : ∀ c ∈ s, isBlank c = false) (t : List Char) :
    trim (s ++ t) = s ++ trimEnd t := by
  obtain ⟨c, rest, rfl⟩ := List.exists_cons_of_ne_nil hne
  have hstart : trimStart (c :: rest ++ t) = c :: rest ++ t := by
    rw [trimStart, List.cons_append, List.dropWhile_cons_of_neg]
    rw [hs c List.mem_cons_self]
    exact Bool.false_ne_true
  rw [trim, hstart, trimEnd_append hs]

/-- Blanks at the start that are kept make a text longer. -/
theorem length_trim_le_trimEnd (s : List Char) : (trim s).length ≤ (trimEnd s).length := by
  have hsplit : s.takeWhile isBlank ++ trimStart s = s := List.takeWhile_append_dropWhile
  have hend : trimEnd s = trimEnd (s.takeWhile isBlank ++ trimStart s) := by rw [hsplit]
  rw [hend, trim]
  unfold trimEnd
  rw [List.reverse_append, List.dropWhile_append, List.length_reverse, List.length_reverse]
  split
  · next hblank =>
    rw [List.isEmpty_iff.mp hblank]
    exact Nat.zero_le _
  · rw [List.length_append]
    exact Nat.le_add_right _ _

end Trimming

/-! ## Respelling -/

/-- A header with the longer keyword in place of the shorter one. -/
def longKeyword (header : List Char) : List Char :=
  match after? "func" (trimStart header) with
  | some rest => header.takeWhile isBlank ++ "function".toList ++ rest
  | none => header

/-- A function whose keyword is made the longer one, or left as it is. -/
def FunctionText.respell (t : FunctionText) (long : Bool) : FunctionText :=
  if long then ⟨longKeyword t.header, t.body⟩ else t

/-- **`respell`** -- a text in which the keywords of some functions are made the longer ones. -/
def respell : List Bool → List Char → List Char
  | [], s => s
  | long :: chosen, s =>
    match cutAtFirst leftBrace s with
    | none => s
    | some (header, behind) =>
      match closing? leftBrace rightBrace 0 behind with
      | none => s
      | some (body, after) =>
        ((FunctionText.mk header body).respell long).header ++ leftBrace ::
          (body ++ rightBrace :: respell chosen after)

/-- What stands between the keyword of a function and its parameters. -/
def FunctionText.nameSection (t : FunctionText) : List Char :=
  (((afterKeyword? (trim t.header)).bind (cutAtFirst '(')).map Prod.fst).getD []

/-- **`nameRead`** -- the name under which a function is read, with the longer keyword or as it
is spelled. -/
def FunctionText.nameRead (t : FunctionText) (long : Bool) : String :=
  if long then String.ofList (trim ("tion".toList ++ t.nameSection))
  else functionName t.nameSection

/-- A function under another name. -/
def ParsedFunction.rename (pf : ParsedFunction) (name : String) : ParsedFunction :=
  ⟨{ pf.function with name }, pf.symbols⟩

/-- **`ParsedModule.rename`** -- a module and its symbols, with other names for its functions. -/
def ParsedModule.rename (m : ParsedModule) (names : List String) : ParsedModule :=
  ⟨⟨m.module.version, List.zipWith (fun f name => { f with name }) m.module.functions names⟩,
    List.zipWith (fun entry name => (name, entry.2)) m.symbols names⟩

/-! ## Cutting a respelled text -/

section Respelling

variable {s header : List Char} {texts : List FunctionText} {chosen : List Bool}

theorem notMem_longKeyword {mark : Char} (h : mark ∉ header)
    (hword : mark ∉ "function".toList) : mark ∉ longKeyword header := by
  unfold longKeyword
  split
  · next rest hafter =>
    rw [after?_eq_some_iff] at hafter
    have hrest : mark ∉ rest := by
      intro hm
      have hstart : mark ∈ trimStart header := hafter ▸ List.mem_append_right _ hm
      exact h ((List.dropWhile_suffix isBlank).mem hstart)
    have hgap : mark ∉ header.takeWhile isBlank := fun hm =>
      h ((List.takeWhile_prefix isBlank).mem hm)
    simp only [List.mem_append, not_or]
    exact ⟨⟨hgap, hword⟩, hrest⟩
  · exact h

/-- **A respelled text** is cut into the respelled functions. -/
theorem functionTexts_respell (h : functionTexts s = .ok texts)
    (hlen : chosen.length = texts.length) :
    functionTexts (respell chosen s) = .ok (List.zipWith FunctionText.respell texts chosen) := by
  -- the induction is that of the cutting, one function and one choice after the other
  fun_induction functionTexts s generalizing texts chosen with
  | case1 s hblank =>
    cases h
    obtain rfl := List.length_eq_zero_iff.mp hlen
    exact functionTexts_of_blank (List.dropWhile_eq_nil_iff.mp (List.isEmpty_iff.mp hblank))
  | case2 => cases h
  | case3 => cases h
  | case4 s _ header behind hopen body after hclose ih =>
    obtain ⟨more, hmore, rfl⟩ := map_eq_ok_iff.mp h
    cases chosen with
    | nil => cases hlen
    | cons long chosen =>
      -- neither keyword has a brace in it, so that the function is cut where it was
      have hheader : leftBrace ∉ ((FunctionText.mk header body).respell long).header := by
        have hplain := (eq_append_of_cutAtFirst hopen).2
        cases long with
        | false => exact hplain
        | true => exact notMem_longKeyword hplain (by decide)
      have hbody : ((FunctionText.mk header body).respell long).body = body := by
        cases long <;> rfl
      have hclosed : closing? leftBrace rightBrace 0 (body ++ rightBrace :: respell chosen after) =
          some (body, respell chosen after) := by
        rw [closing?_append (braceDepth?_of_closing? hclose)]
        simp [closing?]
      rw [respell, hopen]
      dsimp only
      rw [hclose]
      dsimp only
      rw [functionTexts_open hheader, hclosed]
      dsimp only
      rw [ih hmore (Nat.succ.inj hlen), List.zipWith_cons_cons]
      exact congrArg (fun b => Except.ok (FunctionText.mk _ b :: _)) hbody.symm

end Respelling

/-! ## Reading a respelled header -/

/-- **The longer keyword is never read**: where it stands, the shorter one does. -/
theorem afterKeyword?_eq (s : List Char) : afterKeyword? s = after? "func" s := by
  cases hshort : after? "func" s with
  | some rest => rw [afterKeyword?, hshort, Option.some_or]
  | none =>
    cases hlong : after? "function" s with
    | none => rw [afterKeyword?, hshort, hlong, Option.none_or]
    | some rest =>
      rw [after?_eq_some_iff] at hlong
      subst hlong
      cases hshort

/-- **What follows the keyword** of a respelled header starts with the rest of the longer
keyword. -/
theorem afterKeyword?_longKeyword {header word : List Char}
    (h : afterKeyword? (trim header) = some word) :
    afterKeyword? (trim (longKeyword header)) = some ("tion".toList ++ word) := by
  have hsolid : ∀ c ∈ "func".toList, isBlank c = false := by decide
  have hlong : ∀ c ∈ "function".toList, isBlank c = false := by decide
  rw [afterKeyword?_eq, after?_eq_some_iff] at h
  -- `back` are the blanks at the end, which trimming drops from either spelling
  obtain ⟨back, hback⟩ := trimEnd_prefix (trimStart header)
  have hstart : trimStart header = "func".toList ++ (word ++ back) := by
    rw [← List.append_assoc, h, trim, hback]
  have hword : word = trimEnd (word ++ back) := by
    have htrim := congrArg trimEnd hstart
    rw [trimEnd_append hsolid] at htrim
    exact List.append_cancel_left (h.trans htrim)
  have hafter : after? "func" (trimStart header) = some (word ++ back) := by
    rw [after?_eq_some_iff, hstart]
  have hrespelled : longKeyword header =
      header.takeWhile isBlank ++ ("function".toList ++ (word ++ back)) := by
    rw [longKeyword, hafter]
    exact List.append_assoc ..
  have hgap : ∀ c ∈ header.takeWhile isBlank, isBlank c = true := fun c hc =>
    List.mem_takeWhile_imp hc
  have htrim : trim (longKeyword header) = "function".toList ++ word := by
    rw [hrespelled, trim, trimStart, List.dropWhile_append_of_pos hgap]
    show trim ("function".toList ++ (word ++ back)) = _
    rw [trim_append (by decide) hlong, ← hword]
  rw [afterKeyword?_eq, htrim, after?_eq_some_iff]
  rfl

/-- The name that starts with the rest of the longer keyword. -/
theorem functionName_tion (name : List Char) :
    functionName ("tion".toList ++ name) = String.ofList (trim ("tion".toList ++ name)) := by
  have hsolid : ∀ c ∈ "tion".toList, isBlank c = false := by decide
  have htrim : trim ("tion".toList ++ name) = "tion".toList ++ trimEnd name :=
    trim_append (by decide) hsolid name
  have hsign : after? "@" ("tion".toList ++ trimEnd name) = none := rfl
  rw [functionName, htrim, hsign, Option.getD_none, trim_append (by decide) hsolid,
    trimEnd_trimEnd]

/-- **The longer keyword makes a name longer.** -/
theorem functionName_ne_tion (name : List Char) :
    functionName name ≠ String.ofList (trim ("tion".toList ++ name)) := by
  have hsolid : ∀ c ∈ "tion".toList, isBlank c = false := by decide
  intro h
  have hlength := congrArg String.length h
  have hsign : ((after? "@" (trim name)).getD (trim name)).length ≤ (trim name).length := by
    cases hafter : after? "@" (trim name) with
    | none => exact Nat.le_refl _
    | some rest =>
      rw [after?_eq_some_iff] at hafter
      rw [← hafter, List.length_append]
      exact Nat.le_add_left _ _
  have hinner := length_trim_le ((after? "@" (trim name)).getD (trim name))
  have houter := length_trim_le_trimEnd name
  rw [functionName, String.length_ofList, String.length_ofList,
    trim_append (by decide) hsolid, List.length_append] at hlength
  have hfour : "tion".toList.length = 4 := rfl
  omega

section Functions

variable {t : FunctionText} {header : Header} {pf : ParsedFunction}

/-- A header is read under the name in its text. -/
theorem FunctionText.name_of_ofText (h : Header.ofText t.header = .ok header) :
    header.name = t.nameRead false := by
  obtain ⟨word, name, behind, inside, rest, params, result, hkeyword, hopen, -, -, -, rfl⟩ :=
    Header.parts_of_ofText h
  rw [nameRead, nameSection, hkeyword, Option.bind_some, hopen]
  rfl

/-- **A respelled header** is read as before, but for the name. -/
theorem Header.ofText_longKeyword (h : Header.ofText t.header = .ok header) :
    Header.ofText (longKeyword t.header) = .ok { header with name := t.nameRead true } := by
  obtain ⟨word, name, behind, inside, rest, params, result, hkeyword, hopen, hclose, hparams,
    hresult, rfl⟩ := Header.parts_of_ofText h
  obtain ⟨rfl, hname⟩ := eq_append_of_cutAtFirst hopen
  have hread : t.nameRead true = functionName ("tion".toList ++ name) := by
    rw [functionName_tion, FunctionText.nameRead, FunctionText.nameSection, hkeyword,
      Option.bind_some, hopen]
    rfl
  have hnew : '(' ∉ "tion".toList ++ name := by
    rw [List.mem_append, not_or]
    exact ⟨by decide, hname⟩
  have hcut : cutAtFirst '(' ("tion".toList ++ (name ++ '(' :: behind)) =
      some ("tion".toList ++ name, behind) := by
    rw [← List.append_assoc, cutAtFirst_append hnew]
  have hne : functionName ("tion".toList ++ name) ≠ "" := by
    rw [functionName_tion, trim_append (by decide) (by decide)]
    exact fun he => by simpa using congrArg String.toList he
  rw [hread, Header.ofText, afterKeyword?_longKeyword hkeyword]
  dsimp only
  rw [hcut]
  dsimp only
  rw [hclose]
  dsimp only
  rw [if_neg hne, mapM_eq_ok_iff.mpr hparams, ok_bind, hresult]
  rfl

/-- What follows the header is read alike under every name. -/
theorem Header.complete_rename {body : List Char} (h : header.complete body = .ok pf)
    (name : String) : { header with name }.complete body = .ok (pf.rename name) := by
  obtain ⟨⟨params, scope⟩, hparams, h⟩ := bind_eq_ok_iff.mp h
  obtain ⟨b, hbody, h⟩ := bind_eq_ok_iff.mp h
  obtain ⟨ty, hty, h⟩ := bind_eq_ok_iff.mp h
  refine bind_eq_ok_iff.mpr ⟨(params, scope), hparams, bind_eq_ok_iff.mpr ⟨b, hbody,
    bind_eq_ok_iff.mpr ⟨ty, hty, ?_⟩⟩⟩
  split at h
  · next hreturn =>
    cases h
    exact if_pos hreturn
  · cases h

/-- **A respelled function** is read as before, but for the name. -/
theorem ParsedFunction.ofText_respell (h : ParsedFunction.ofText t = .ok pf) (long : Bool) :
    ParsedFunction.ofText (t.respell long) = .ok (pf.rename (t.nameRead long)) := by
  obtain ⟨header, hheader, hcomplete⟩ := bind_eq_ok_iff.mp h
  have hcomplete := Header.complete_rename (mapError_eq_ok_iff.mp hcomplete) (t.nameRead long)
  refine bind_eq_ok_iff.mpr ⟨{ header with name := t.nameRead long }, ?_,
    mapError_eq_ok_iff.mpr ?_⟩
  · cases long with
    | false =>
      rw [← FunctionText.name_of_ofText hheader]
      exact hheader
    | true => exact Header.ofText_longKeyword hheader
  · cases long <;> exact hcomplete

theorem ParsedFunction.name_of_ofText (h : ParsedFunction.ofText t = .ok pf) :
    pf.function.name = t.nameRead false := by
  obtain ⟨header, -, -, -, -, hheader, -, -, -, -, rfl⟩ := ParsedFunction.parts_of_ofText h
  exact FunctionText.name_of_ofText hheader

end Functions

/-! ## Reading a respelled text -/

namespace ParsedModule

variable {s : List Char} {m : ParsedModule} {texts : List FunctionText}
  {pfs : List ParsedFunction} {chosen : List Bool}

/-- **A text is accepted** if its functions are, under distinct names. -/
theorem ofText_eq_ok_iff (htexts : functionTexts s = .ok texts) (hne : texts ≠ [])
    (hpfs : List.Forall₂ (fun t pf => ParsedFunction.ofText t = .ok pf) texts pfs) :
    ofText s = .ok m ↔
      (pfs.map fun pf => pf.function.name).Nodup ∧ m = ofFunctions pfs := by
  constructor
  · intro h
    obtain ⟨texts', pfs', -, htexts', hpfs', rfl, hn⟩ := parts_of_ofText h
    obtain rfl := Except.ok.inj (htexts.symm.trans htexts')
    obtain rfl : pfs = pfs' :=
      Except.ok.inj ((mapM_eq_ok_iff.mpr hpfs).symm.trans (mapM_eq_ok_iff.mpr hpfs'))
    rw [names_ofFunctions] at hn
    exact ⟨hn, rfl⟩
  · rintro ⟨hn, rfl⟩
    obtain ⟨t, texts, rfl⟩ := List.exists_cons_of_ne_nil hne
    rw [ofText, htexts, ok_bind]
    exact foldlM_add hpfs hn

/-- The functions of a respelled text. -/
theorem forall₂_respell
    (hpfs : List.Forall₂ (fun t pf => ParsedFunction.ofText t = .ok pf) texts pfs)
    (hlen : chosen.length = texts.length) :
    List.Forall₂ (fun t pf => ParsedFunction.ofText t = .ok pf)
      (List.zipWith FunctionText.respell texts chosen)
      (List.zipWith ParsedFunction.rename pfs (List.zipWith FunctionText.nameRead texts chosen)) ∧
    ((List.zipWith ParsedFunction.rename pfs
      (List.zipWith FunctionText.nameRead texts chosen)).map fun pf => pf.function.name) =
      List.zipWith FunctionText.nameRead texts chosen := by
  induction hpfs generalizing chosen with
  | nil => exact ⟨.nil, rfl⟩
  | cons hpf _ ih =>
    cases chosen with
    | nil => cases hlen
    | cons long chosen =>
      obtain ⟨hrest, hnames⟩ := ih (Nat.succ.inj hlen)
      exact ⟨.cons (ParsedFunction.ofText_respell hpf long) hrest, congrArg (List.cons _) hnames⟩

theorem ofFunctions_rename (pfs : List ParsedFunction) (names : List String) :
    ofFunctions (List.zipWith ParsedFunction.rename pfs names) =
      (ofFunctions pfs).rename names := by
  simp only [ofFunctions, rename, List.map_zipWith, List.zipWith_map_left]
  rfl

/-- The names stay as they are if no keyword is respelled, and only then. -/
theorem zipWith_nameRead_eq_iff (hlen : chosen.length = texts.length) :
    List.zipWith FunctionText.nameRead texts chosen =
      texts.map (fun t => t.nameRead false) ↔ true ∉ chosen := by
  induction texts generalizing chosen with
  | nil =>
    obtain rfl := List.length_eq_zero_iff.mp hlen
    simp
  | cons t texts ih =>
    cases chosen with
    | nil => cases hlen
    | cons long chosen =>
      rw [List.zipWith_cons_cons, List.map_cons, List.cons_eq_cons, ih (Nat.succ.inj hlen),
        List.mem_cons, not_or]
      refine and_congr_left fun _ => ?_
      cases long with
      | false => simp
      | true => simpa [FunctionText.nameRead] using (functionName_ne_tion t.nameSection).symm

/-- **The longer keyword is read as the shorter one and a longer name.** If the keywords of some
functions of a text that is accepted are made `function`, then these functions are read under
names that start with `tion`, and everything else as before; the text is accepted exactly if the
names are still distinct, and only a text in which no keyword was changed is read as the same
module. -/
theorem ofText_respell_iff (h : ofText s = .ok m) :
    ∃ texts, functionTexts s = .ok texts ∧
      m.module.names = texts.map (fun t => t.nameRead false) ∧
      ∀ chosen : List Bool, chosen.length = m.module.functions.length →
        (∀ m', ofText (respell chosen s) = .ok m' ↔
          (List.zipWith FunctionText.nameRead texts chosen).Nodup ∧
            m' = m.rename (List.zipWith FunctionText.nameRead texts chosen)) ∧
        (ofText (respell chosen s) = .ok m ↔ true ∉ chosen) := by
  obtain ⟨texts, pfs, hne, htexts, hpfs, rfl, hn⟩ := parts_of_ofText h
  have hnames : (ofFunctions pfs).module.names = texts.map fun t => t.nameRead false := by
    rw [names_ofFunctions, ← List.forall₂_eq_eq_eq, List.forall₂_map_left_iff,
      List.forall₂_map_right_iff]
    exact hpfs.flip.imp fun pf t hpf => ParsedFunction.name_of_ofText hpf
  refine ⟨texts, htexts, hnames, fun chosen hlen => ?_⟩
  have hlen : chosen.length = texts.length := by
    rw [hlen, ofFunctions, List.length_map, hpfs.length_eq]
  obtain ⟨hpfs', hnames'⟩ := forall₂_respell hpfs hlen
  have hne' : List.zipWith FunctionText.respell texts chosen ≠ [] := by
    rw [Ne, ← List.length_eq_zero_iff, List.length_zipWith, hlen, Nat.min_self,
      List.length_eq_zero_iff]
    exact hne
  have hread : ∀ m', ofText (respell chosen s) = .ok m' ↔
      (List.zipWith FunctionText.nameRead texts chosen).Nodup ∧
        m' = (ofFunctions pfs).rename (List.zipWith FunctionText.nameRead texts chosen) := by
    intro m'
    rw [ofText_eq_ok_iff (functionTexts_respell htexts hlen) hne' hpfs', hnames',
      ofFunctions_rename]
  refine ⟨hread, ?_⟩
  rw [hread, ← zipWith_nameRead_eq_iff hlen, ← hnames]
  constructor
  · rintro ⟨-, hsame⟩
    have hsame' := congrArg (fun m => m.module.names) hsame
    rw [← ofFunctions_rename, names_ofFunctions (List.zipWith _ _ _), hnames'] at hsame'
    exact hsame'.symm
  · intro hsame
    rw [hsame]
    refine ⟨hn, ?_⟩
    rw [← ofFunctions_rename, names_ofFunctions, List.zipWith_map_right, List.zipWith_self]
    exact congrArg ofFunctions (List.map_id _).symm

/-- A function of one scalar. -/
def scalarFunction (keyword name : String) : List Char :=
  (keyword ++ " @" ++ name ++ "(%x: tensor<f32>) -> tensor<f32> \x7b\n  return %x\n\x7d\n").toList

/-- Of two functions the second one is respelled, and read under another name. -/
theorem ofText_respell_second :
    ∃ m, ofText (scalarFunction "func" "f" ++ scalarFunction "func" "g") = .ok m ∧
      [false, true].length = m.module.functions.length ∧
      respell [false, true] (scalarFunction "func" "f" ++ scalarFunction "func" "g") =
        scalarFunction "func" "f" ++ scalarFunction "function" "g" ∧
      ofText (scalarFunction "func" "f" ++ scalarFunction "function" "g") =
        .ok (m.rename ["f", "tion @g"]) ∧
      m.module.names = ["f", "g"] := by
  obtain ⟨m, hm⟩ := exists_eq_ok_of_isOk
    (show (ofText (scalarFunction "func" "f" ++ scalarFunction "func" "g")).isOk = true by
      decide +kernel)
  have hspelled : respell [false, true] (scalarFunction "func" "f" ++ scalarFunction "func" "g") =
      scalarFunction "func" "f" ++ scalarFunction "function" "g" := by decide +kernel
  obtain ⟨texts, htexts, hnames, hrespell⟩ := ofText_respell_iff hm
  have hread : (functionTexts (scalarFunction "func" "f" ++ scalarFunction "func" "g")).map
      (fun texts => (texts.map fun t => t.nameRead false,
        List.zipWith FunctionText.nameRead texts [false, true])) =
      .ok (["f", "g"], ["f", "tion @g"]) := by decide +kernel
  rw [htexts] at hread
  obtain ⟨hplain, hlong⟩ := Prod.mk.inj (Except.ok.inj hread)
  rw [hplain] at hnames
  have hlength : [false, true].length = m.module.functions.length := by
    simpa [Module.names] using (congrArg List.length hnames).symm
  obtain ⟨hiff, -⟩ := hrespell [false, true] hlength
  rw [hspelled, hlong] at hiff
  exact ⟨m, hm, hlength, hspelled, (hiff _).mpr ⟨by decide, rfl⟩, hnames⟩

theorem exists_of_names {names : List String}
    (h : (Module.ofText s).map Module.names = .ok names) :
    ∃ m, ofText s = .ok m ∧ m.module.names = names := by
  obtain ⟨found, hmodule, rfl⟩ := map_eq_ok_iff.mp h
  obtain ⟨m, hm, rfl⟩ := map_eq_ok_iff.mp hmodule
  exact ⟨m, hm, rfl⟩

/-- **The two keywords are not synonymous**: one function, spelled with either, is read under two
names. -/
theorem ofText_longKeyword : ∃ m m', ofText (scalarFunction "func" "f") = .ok m ∧
    respell [true] (scalarFunction "func" "f") = scalarFunction "function" "f" ∧
    ofText (respell [true] (scalarFunction "func" "f")) = .ok m' ∧
    m.module.names = ["f"] ∧ m'.module.names = ["tion @f"] ∧
    ofText (respell [true] (scalarFunction "func" "f")) ≠ .ok m := by
  obtain ⟨m, hm, hshort⟩ := exists_of_names
    (show (Module.ofText (scalarFunction "func" "f")).map Module.names = .ok ["f"] by
      decide +kernel)
  obtain ⟨m', hm', hlong⟩ := exists_of_names
    (show (Module.ofText (scalarFunction "function" "f")).map Module.names = .ok ["tion @f"] by
      decide +kernel)
  have hspelled : respell [true] (scalarFunction "func" "f") = scalarFunction "function" "f" := by
    decide +kernel
  rw [hspelled]
  refine ⟨m, m', hm, rfl, hm', hshort, hlong, fun h => ?_⟩
  obtain rfl := Except.ok.inj (hm'.symm.trans h)
  rw [hshort] at hlong
  exact absurd hlong (by decide)

end ParsedModule

end TensorGraph
