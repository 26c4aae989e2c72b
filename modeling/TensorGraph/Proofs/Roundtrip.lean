/-
# TensorGraph.Proofs.Roundtrip -- functions and modules are read back

A function is written as a headline, a body between braces and a line break. The headline is cut
at its first parenthesis and at the one that closes it, and brings the parameters into scope; with
them the body is read (`Function.Readable.ofText_function`). A module is cut at the braces that
close the bodies, so it is read function by function (`Module.Readable.ofText_render`). What comes
of it is the module as it is spelled; a printable module is spelled as it is.
-/
import TensorGraph.Proofs.Bodies
import TensorGraph.Proofs.Braces
import TensorGraph.Proofs.Passes
import TensorGraph.Text.Module

namespace TensorGraph

open scoped CoreInstances

/-! ## Types of results -/

namespace ReturnExpr

variable {types : TypeMap}

mutual

/-- What is returned has a type that can be read if the values have. -/
theorem exists_type? : (ret : ReturnExpr) →
    (∀ id ∈ ret.values, ∃ ty, types id = some ty ∧ ty.Bounded) →
    ∃ ty, ret.type? types = some ty ∧ ty.Bounded
  | .value id, h => h id (by simp [values])
  | .tuple elements, h => by
    obtain ⟨tys, htys, hbounded⟩ := exists_typeList? elements h
    exact ⟨.tuple tys, by rw [type?, htys]; rfl, hbounded⟩

theorem exists_typeList? : (rets : List ReturnExpr) →
    (∀ id ∈ valuesList rets, ∃ ty, types id = some ty ∧ ty.Bounded) →
    ∃ tys, typeList? types rets = some tys ∧ ValueType.AllBounded tys
  | [], _ => ⟨[], rfl, trivial⟩
  | ret :: rest, h => by
    rw [valuesList, List.forall_mem_append] at h
    obtain ⟨ty, hty, hb⟩ := exists_type? ret h.1
    obtain ⟨tys, htys, hbs⟩ := exists_typeList? rest h.2
    exact ⟨ty :: tys, by rw [typeList?, hty, htys], hb, hbs⟩

end

end ReturnExpr

/-- A readable function returns a type that can be read. -/
theorem Function.Readable.exists_returnType {f : Function} (h : f.Readable) :
    ∃ ty, f.returnType? = some ty ∧ ty.Bounded := by
  have hn : f.context.ids.Nodup := by
    rw [ids_context, h.numbered]
    exact List.nodup_range.map fun _ _ he => ValueId.mk.inj he
  refine f.ret.exists_type? fun id hid => ?_
  have hmem : id ∈ f.context.ids := by
    rw [ids_context]
    exact h.returns id hid
  obtain ⟨ty, hty⟩ := Option.isSome_iff_exists.mp (Context.isSome_typeOf?.mpr hmem)
  rw [typeOf?_eq_context]
  refine ⟨ty, hty, ?_⟩
  rcases List.mem_append.mp ((Context.typeOf?_eq_some_iff hn).mp hty) with hm | hm
  · obtain ⟨p, hp, he⟩ := List.mem_map.mp hm
    obtain rfl := (Prod.mk.inj he).2
    exact h.params p hp
  · obtain ⟨b, hb, he⟩ := List.mem_map.mp hm
    obtain rfl := (Prod.mk.inj he).2
    exact h.bindings b hb

/-! ## Headers -/

/-- A parameter as it is written. -/
def Param.render (p : Param) : List Char := '%' :: (p.name.toList ++ ':' :: ' ' :: p.ty.render)

/-- The header of a function without the brace that opens its body. -/
def Function.headline (f : Function) (result : ValueType) : List Char :=
  "func @".toList ++ f.name.toList ++
    '(' :: (commaSeparated (f.params.map Param.render) ++ [')']) ++ " -> ".toList ++ result.render

section Headers

variable {f : Function} {p : Param} {result : ValueType} {s : List Char}

theorem Function.renderHeader_eq (h : f.returnType? = some result) :
    f.renderHeader = f.headline result ++ [' ', leftBrace] := by
  have harrow : ") -> ".toList = [')'] ++ " -> ".toList := rfl
  unfold renderHeader headline
  rw [h, harrow]
  simp only [List.append_assoc, List.cons_append]
  rfl

/-- A parameter is written as a piece. -/
theorem Param.piece_render (hp : IsWord p.name) : Piece p.render := by
  have hname := hp.piece
  have hty := p.ty.piece_render
  have hunbroken : Unbroken [':', ' '] := unbroken_of_forall (by decide)
  have hmatched : Matched '(' ')' [':', ' '] := matched_of_notMem (by decide) (by decide)
  have hline : ∀ c ∈ [':', ' '], IsLineChar c := by decide
  have hsplit : p.render = ('%' :: p.name.toList) ++ [':', ' '] ++ p.ty.render := by simp [render]
  rw [hsplit]
  exact ⟨hname.solid.append hty.solid _, (hname.unbroken.append hunbroken).append hty.unbroken,
    (hname.matched.append hmatched).append hty.matched, List.forall_mem_append.mpr
      ⟨List.forall_mem_append.mpr ⟨hname.inLine, hline⟩, hty.inLine⟩⟩

/-- A parameter is read back, with its type still as text. -/
theorem ParamText.ofText_render (hp : IsWord p.name) :
    ParamText.ofText p.render = .ok ⟨p.name, p.ty.render⟩ := by
  have hcolon : ':' ∉ '%' :: p.name.toList := by
    simpa using hp.notMem (d := ':') (by decide)
  have hname := valueName_eq hp hp.piece.solid.trim_eq
  have hty := p.ty.piece_render.solid
  have hcut : cutAtFirst ':' p.render = some ('%' :: p.name.toList, ' ' :: p.ty.render) :=
    cutAtFirst_append hcolon _
  rw [ofText, hcut]
  simp [hname, hp.ne_empty, hty.trim_space, hty.ne_nil]

variable (h : f.Readable)

include h

theorem Function.Readable.isWord_param (hp : p ∈ f.params) : IsWord p.name :=
  h.valueNames p.name (List.mem_append_left _ (List.mem_map_of_mem hp))

theorem Function.Readable.piece_params : ∀ t ∈ f.params.map Param.render, Piece t := by
  intro t ht
  obtain ⟨p, hp, rfl⟩ := List.mem_map.mp ht
  exact p.piece_render (h.isWord_param hp)

/-- A headline is solid and stands within a line. -/
theorem Function.Readable.headline_spec (result : ValueType) :
    Solid (f.headline result) ∧ ∀ c ∈ f.headline result, IsLineChar c := by
  have hword : Solid "func".toList := solid_of_isWordChar (by decide) (by decide)
  have hresult := result.piece_render
  have hsplit : f.headline result = "func".toList ++ (" @".toList ++ f.name.toList ++
      '(' :: (commaSeparated (f.params.map Param.render) ++ [')']) ++ " -> ".toList) ++
        result.render := by
    have hfunc : "func @".toList = "func".toList ++ " @".toList := rfl
    unfold headline
    generalize commaSeparated (f.params.map Param.render) = params
    generalize result.render = ty
    rw [hfunc]
    simp only [List.append_assoc]
  constructor
  · rw [hsplit]
    exact hword.append hresult.solid _
  · refine List.forall_mem_append.mpr ⟨?_, hresult.inLine⟩
    refine List.forall_mem_append.mpr ⟨?_, by decide⟩
    refine List.forall_mem_append.mpr ⟨?_, (Piece.group h.piece_params).inLine⟩
    refine List.forall_mem_append.mpr ⟨by decide, fun c hc => ?_⟩
    exact (h.name.chars c hc).isLineChar

/-- **A headline is read back**, with the types still as text. -/
theorem Function.Readable.ofText_headline (hs : trim s = f.headline result) :
    Header.ofText s =
      .ok ⟨f.name, f.params.map fun p => ⟨p.name, p.ty.render⟩, ' ' :: result.render⟩ := by
  have hkeyword : afterKeyword? (f.headline result) = some (" @".toList ++ f.name.toList ++
      '(' :: (commaSeparated (f.params.map Param.render) ++ ')' ::
        (" -> ".toList ++ result.render))) := by
    have hfunc : "func @".toList = "func".toList ++ " @".toList := rfl
    have hafter : after? "func" (f.headline result) = some (" @".toList ++ f.name.toList ++
        '(' :: (commaSeparated (f.params.map Param.render) ++ ')' ::
          (" -> ".toList ++ result.render))) := by
      rw [after?_eq_some_iff]
      unfold headline
      generalize commaSeparated (f.params.map Param.render) = params
      generalize result.render = ty
      rw [hfunc]
      simp only [List.append_assoc, List.cons_append, List.nil_append]
    rw [afterKeyword?, hafter, Option.some_or]
  have hopen : '(' ∉ " @".toList ++ f.name.toList := by
    intro hm
    rcases List.mem_append.mp hm with hm | hm
    · revert hm
      decide
    · exact h.name.notMem (by decide) hm
  have hclose := (Piece.matched_list h.piece_params).closing?_eq (by decide)
    (" -> ".toList ++ result.render)
  have hname : functionName (" @".toList ++ f.name.toList) = f.name := by
    have hat : Solid ['@'] := solid_of_forall (by decide) (by decide)
    have htrim : trim (" @".toList ++ f.name.toList) = '@' :: f.name.toList :=
      (hat.append h.name.solid []).trim_space
    have hafter : after? "@" ('@' :: f.name.toList) = some f.name.toList := rfl
    simp only [functionName, htrim, hafter, Option.getD_some, h.name.solid.trim_eq,
      String.ofList_toList]
  have hparams : (items (trim (commaSeparated (f.params.map Param.render)))).mapM ParamText.ofText =
      .ok (f.params.map fun p => ⟨p.name, p.ty.render⟩) := by
    rw [Piece.trim_list h.piece_params, Piece.items_eq h.piece_params, List.mapM_map]
    exact mapM_eq_ok_map fun p hp => ParamText.ofText_render (h.isWord_param hp)
  have hresult : after? "->" (trim (" -> ".toList ++ result.render)) =
      some (' ' :: result.render) := by
    have harrow : Solid "->".toList := solid_of_forall (by decide) (by decide)
    have htrim : trim (" -> ".toList ++ result.render) = "-> ".toList ++ result.render :=
      (harrow.append result.piece_render.solid [' ']).trim_space
    rw [htrim]
    rfl
  rw [Header.ofText, hs, hkeyword]
  simp only [cutAtFirst_append hopen, hclose, hname, if_neg h.name.ne_empty]
  rw [hparams, ok_bind, hresult]
  rfl

/-- **The parameters** are brought into scope. -/
theorem Function.Readable.defineParams_eq {before after : List Param}
    (hparams : before ++ after = f.params) :
    defineParams (.ofEntries (before.map Param.scopeEntry))
        (after.map fun p => ⟨p.name, p.ty.render⟩) =
      .ok (after, f.scopeAt []) := by
  -- `before` are the parameters in scope
  induction after generalizing before with
  | nil =>
    rw [List.append_nil] at hparams
    subst hparams
    simp [defineParams, scopeAt]
  | cons p after ih =>
    have hp : p ∈ f.params := hparams ▸ List.mem_append_right before List.mem_cons_self
    have hpre : before.map Param.scopeEntry ++ p.scopeEntry ::
        (after.map Param.scopeEntry ++ f.bindings.map Binding.scopeEntry) = f.entries := by
      rw [entries, ← hparams]
      simp
    have hrest := @ih (before ++ [p]) (by simpa using hparams)
    rw [List.map_append, List.map_singleton] at hrest
    rw [List.map_cons, defineParams,
      ValueType.ofText_render (h.params p hp) p.ty.piece_render.solid.trim_eq, ok_bind]
    have hdefine : (Scope.ofEntries (before.map Param.scopeEntry)).define p.name p.ty = _ :=
      h.define hpre
    rw [hdefine, ok_bind]
    simp only [hrest]
    rfl

end Headers

/-! ## Functions -/

/-- The names of a function with the values they stand for. -/
def Function.symbols (f : Function) : List (String × ValueId) :=
  f.entries.map fun e => (e.name, e.id)

section Functions

variable {f : Function} {result : ValueType}

/-- Spelling changes no name, no identity and no type. -/
theorem Function.entries_spelled (f : Function) : f.spelled.entries = f.entries := by
  have hbindings : f.spelled.bindings = f.bindings.map Binding.spelled := by
    rw [bindings, bindings, List.map_flatMap]
    exact List.flatMap_map ..
  rw [entries, entries, hbindings, List.map_map]
  rfl

theorem Function.context_eq_entries (f : Function) :
    f.context = f.entries.map fun e => (e.id, e.ty) := by
  rw [context, paramContext, entries, List.map_append, List.map_map, List.map_map]
  rfl

theorem Function.returnType?_spelled (f : Function) : f.spelled.returnType? = f.returnType? := by
  have htypes : f.spelled.typeOf? = f.typeOf? := by
    rw [typeOf?_eq_context, typeOf?_eq_context, context_eq_entries, context_eq_entries,
      entries_spelled]
  rw [returnType?, returnType?, htypes]
  rfl

/-- **`WrittenAs`** -- the text of a function: its headline and its body. -/
def Function.WrittenAs (f : Function) (t : FunctionText) : Prop :=
  ∃ result, f.returnType? = some result ∧ trim t.header = f.headline result ∧
    t.body = f.renderBody

variable {t : FunctionText}

/-- **A function is read back** from its headline and its body, as it is spelled. -/
theorem Function.Readable.ofText_function (h : f.Readable) (hleads : f.Leads)
    (ht : f.WrittenAs t) : ParsedFunction.ofText t = .ok ⟨f.spelled, f.symbols⟩ := by
  obtain ⟨result, hresult, hheader, hbody⟩ := ht
  have hbounded : result.Bounded := by
    obtain ⟨ty, hty, hb⟩ := h.exists_returnType
    rwa [Option.some.inj (hty.symm.trans hresult)] at hb
  have hdeclared := ValueType.ofText_render hbounded result.piece_render.solid.trim_space
  have hparams : defineParams .empty (f.params.map fun p => ⟨p.name, p.ty.render⟩) =
      .ok (f.params, f.scopeAt []) := h.defineParams_eq (List.nil_append f.params)
  have hsymbols : ((f.scopeAt f.bindings).entries.map fun e => (e.name, e.id)).reverse =
      f.symbols := by
    show (f.entries.reverse.map _).reverse = _
    rw [List.map_reverse, List.reverse_reverse, symbols]
  have hcomplete : Header.complete
      ⟨f.name, f.params.map fun p => ⟨p.name, p.ty.render⟩, ' ' :: result.render⟩ f.renderBody =
      .ok ⟨f.spelled, f.symbols⟩ := by
    simp only [Header.complete, hparams, ok_bind, h.ofText_body hleads, hdeclared, hsymbols]
    exact if_pos (f.returnType?_spelled.trans hresult)
  rw [ParsedFunction.ofText, h.ofText_headline hheader, ok_bind, hbody, hcomplete]
  rfl

/-- The text of a function, with the braces at which it is cut. -/
theorem Function.render_eq (hresult : f.returnType? = some result) :
    f.render = f.headline result ++ [' '] ++
      leftBrace :: (f.renderBody ++ rightBrace :: ['\n']) := by
  have hclose : renderLine 0 [rightBrace] = [rightBrace, '\n'] := rfl
  unfold render renderBody
  rw [renderHeader_eq hresult, hclose]
  generalize renderLine 1 ("return ".toList ++ f.renderReturn f.ret) = ret
  generalize f.headline result = line
  simp [renderLine]

/-! ### Braces -/

/-- What holds of the characters of a text, of blanks and of line breaks, holds of its line. -/
theorem renderLine_chars {P : Char → Prop} (hspace : P ' ') (hbreak : P '\n') (level : Nat)
    {s : List Char} (h : ∀ c ∈ s, P c) : ∀ c ∈ renderLine level s, P c := by
  rw [renderLine]
  refine List.forall_mem_append.mpr ⟨List.forall_mem_append.mpr ⟨fun c hc => ?_, h⟩, by simpa⟩
  rwa [List.eq_of_mem_replicate hc]

/-- Characters other than braces. -/
def IsNoBrace (c : Char) : Prop := c ≠ leftBrace ∧ c ≠ rightBrace

instance (c : Char) : Decidable (IsNoBrace c) := inferInstanceAs (Decidable (_ ∧ _))

theorem IsLineChar.isNoBrace {c : Char} (h : IsLineChar c) : IsNoBrace c := by
  simp only [IsLineChar, List.mem_cons, List.not_mem_nil, or_false, not_or] at h
  exact ⟨h.2.2.1, h.2.2.2⟩

theorem matched_of_isNoBrace {s : List Char} (h : ∀ c ∈ s, IsNoBrace c) :
    Matched leftBrace rightBrace s :=
  matched_of_notMem (fun hm => (h _ hm).1 rfl) fun hm => (h _ hm).2 rfl

/-- A line of line characters has no brace. -/
theorem isNoBrace_line (level : Nat) {s : List Char} (h : ∀ c ∈ s, IsLineChar c) :
    ∀ c ∈ renderLine level s, IsNoBrace c :=
  renderLine_chars (by decide) (by decide) level fun c hc => (h c hc).isNoBrace

/-- The lines of a region have no brace. -/
theorem Function.Readable.isNoBrace_region (h : f.Readable) {r : Region} (hr : r ∈ f.regions)
    (level : Nat) : ∀ c ∈ f.renderRegion level r, IsNoBrace c := by
  obtain ⟨done, rest, hregions⟩ := List.append_of_mem hr
  have hpieces := piece_values (h.shows_outputs hregions.symm)
  refine List.forall_mem_append.mpr ⟨fun c hc => ?_, ?_⟩
  · obtain ⟨b, hb, hc⟩ := List.mem_flatMap.mp hc
    have hmem : b ∈ f.bindings := List.mem_flatMap.mpr ⟨r, hr, hb⟩
    exact isNoBrace_line level (h.renderBinding_spec hmem).2 c hc
  · split
    · simp
    · refine isNoBrace_line level (List.forall_mem_append.mpr ⟨by decide, ?_⟩)
      exact intercalate_chars (by decide) fun t ht => (hpieces t ht).inLine

/-- The braces around a region are balanced. -/
theorem Function.Readable.matched_bracedRegion (h : f.Readable) {r : Region}
    (hr : r ∈ f.regions) : Matched leftBrace rightBrace (f.renderBracedRegion r) := by
  have hopen : renderLine 1 ("region ".toList ++ [leftBrace]) =
      "  region ".toList ++ [leftBrace, '\n'] := rfl
  have hclose : renderLine 1 [rightBrace] = "  ".toList ++ [rightBrace, '\n'] := rfl
  have hinside : Matched leftBrace rightBrace ('\n' :: (f.renderRegion 2 r ++ "  ".toList)) := by
    refine matched_of_isNoBrace (List.forall_mem_cons.mpr ⟨by decide, ?_⟩)
    exact List.forall_mem_append.mpr ⟨h.isNoBrace_region hr 2, by decide⟩
  have hbefore : Matched leftBrace rightBrace "  region ".toList := matched_of_isNoBrace (by decide)
  have hafter : Matched leftBrace rightBrace ['\n'] := matched_of_isNoBrace (by decide)
  have := hbefore.append ((hinside.wrap (by decide)).append hafter)
  rw [renderBracedRegion, hopen, hclose]
  simpa only [List.append_assoc, List.cons_append, List.nil_append] using this

/-- **The braces of a body** are balanced. -/
theorem Function.Readable.matched_renderBody (h : f.Readable) :
    Matched leftBrace rightBrace f.renderBody := by
  have hregions : Matched leftBrace rightBrace f.renderRegions := by
    have hbraced : Matched leftBrace rightBrace (f.regions.flatMap f.renderBracedRegion) :=
      matched_flatMap fun r hr => h.matched_bracedRegion hr
    rw [renderRegions]
    split
    · next r hr =>
      exact matched_of_isNoBrace (h.isNoBrace_region (hr ▸ List.mem_singleton_self r) 1)
    · exact hbraced
  have hpiece := piece_renderReturn h.shows_return
  have hline : ∀ c ∈ "return ".toList ++ f.renderReturn f.ret, IsLineChar c :=
    List.forall_mem_append.mpr ⟨by decide, hpiece.inLine⟩
  have hreturn := isNoBrace_line 1 hline
  exact matched_cons (hregions.append (matched_of_isNoBrace hreturn)) (by decide) (by decide)

end Functions

/-! ## Cutting a module -/

section Cut

variable {f : Function} {result : ValueType} {before : List Char}

/-- **A function is cut off** at the brace that closes its body. -/
theorem Function.Readable.functionTexts_cons (h : f.Readable) (hbefore : ∀ c ∈ before, c = '\n')
    (result : ValueType) (rest : List Char) :
    functionTexts (before ++ f.headline result ++ [' '] ++
        leftBrace :: (f.renderBody ++ rightBrace :: rest)) =
      (functionTexts rest).map fun more =>
        ⟨before ++ f.headline result ++ [' '], f.renderBody⟩ :: more := by
  obtain ⟨hsolid, hline⟩ := h.headline_spec result
  have hopen : leftBrace ∉ before ++ f.headline result ++ [' '] := by
    simp only [List.mem_append, not_or]
    refine ⟨⟨fun hm => ?_, fun hm => (hline _ hm).elim (by decide)⟩, by decide⟩
    exact absurd (hbefore _ hm) (by decide)
  have hcut := functionTexts_open hopen (f.renderBody ++ rightBrace :: rest)
  rw [h.matched_renderBody.closing?_eq (by decide) rest] at hcut
  exact hcut

/-- **`Cuts`** -- a text that is cut into the texts of functions, in order. -/
def Cuts (s : List Char) (fs : List Function) : Prop :=
  ∃ texts, functionTexts s = .ok texts ∧ List.Forall₂ Function.WrittenAs fs texts

/-- **Functions between empty lines** are cut apart, whatever line breaks precede them. -/
theorem cuts_render {fs : List Function} (h : ∀ f ∈ fs, f.Readable)
    (hbefore : ∀ c ∈ before, c = '\n') :
    Cuts (before ++ ['\n'].intercalate (fs.map Function.render)) fs := by
  induction fs generalizing before with
  | nil =>
    have hblank : ∀ c ∈ before, isBlank c = true := fun c hc => by rw [hbefore c hc]; rfl
    refine ⟨[], ?_, .nil⟩
    rw [List.map_nil, List.intercalate_nil, List.append_nil, functionTexts_of_blank hblank]
  | cons f fs ih =>
    rw [List.forall_mem_cons] at h
    obtain ⟨result, hresult, -⟩ := h.1.exists_returnType
    obtain ⟨hsolid, -⟩ := h.1.headline_spec result
    -- what follows the closing brace is a line break, and for each function more another one
    obtain ⟨breaks, hbreaks, hrest⟩ : ∃ breaks, (∀ c ∈ breaks, c = '\n') ∧
        ['\n'].intercalate ((f :: fs).map Function.render) =
          f.headline result ++ [' '] ++ leftBrace :: (f.renderBody ++ rightBrace ::
            (breaks ++ ['\n'].intercalate (fs.map Function.render))) := by
      cases fs with
      | nil =>
        refine ⟨['\n'], by simp, ?_⟩
        rw [List.map_singleton, List.intercalate_singleton, Function.render_eq hresult]
        rfl
      | cons g gs =>
        refine ⟨['\n', '\n'], by simp, ?_⟩
        rw [List.map_cons, List.map_cons, List.intercalate_cons_cons, Function.render_eq hresult]
        simp only [List.append_assoc, List.cons_append, List.nil_append]
    obtain ⟨texts, htexts, hall⟩ := ih h.2 hbreaks
    have htrim : trim (before ++ f.headline result ++ [' ']) = f.headline result :=
      trim_eq (fun c hc => by rw [hbefore c hc]; rfl) hsolid (by decide)
    have hwritten : f.WrittenAs ⟨before ++ f.headline result ++ [' '], f.renderBody⟩ :=
      ⟨result, hresult, htrim, rfl⟩
    refine ⟨⟨before ++ f.headline result ++ [' '], f.renderBody⟩ :: texts, ?_,
      .cons hwritten hall⟩
    have hcut := h.1.functionTexts_cons hbefore result
      (breaks ++ ['\n'].intercalate (fs.map Function.render))
    have hassoc : before ++ f.headline result ++ [' '] ++ leftBrace :: (f.renderBody ++
        rightBrace :: (breaks ++ ['\n'].intercalate (fs.map Function.render))) =
        before ++ (f.headline result ++ [' '] ++ leftBrace :: (f.renderBody ++ rightBrace ::
          (breaks ++ ['\n'].intercalate (fs.map Function.render)))) := by
      simp only [List.append_assoc]
    rw [hrest, ← hassoc, hcut, htexts]
    rfl

end Cut

/-! ## Modules -/

/-- **`Printable`** -- a module whose text form can be read: it has the current version and a
function, the names of its functions are distinct, and each of them is printable. -/
structure Module.Printable (m : Module) : Prop where
  /-- The version is the one that readers give. -/
  version : m.version = currentVersion
  /-- There is a function. -/
  functions_ne_nil : m.functions ≠ []
  /-- Names are distinct. -/
  names_nodup : m.names.Nodup
  /-- Every function can be read. -/
  functions : ∀ f ∈ m.functions, f.Printable

instance : DecidablePred Module.Printable := fun m =>
  decidable_of_iff (m.version = currentVersion ∧ m.functions ≠ [] ∧ m.names.Nodup ∧
      ∀ f ∈ m.functions, f.Printable)
    ⟨fun ⟨h₁, h₂, h₃, h₄⟩ => ⟨h₁, h₂, h₃, h₄⟩, fun ⟨h₁, h₂, h₃, h₄⟩ => ⟨h₁, h₂, h₃, h₄⟩⟩

/-- **Functions are added** one after the other. -/
theorem ParsedModule.foldlM_add {texts : List FunctionText} {pfs : List ParsedFunction}
    (h : List.Forall₂ (fun t pf => ParsedFunction.ofText t = .ok pf) texts pfs)
    {m : ParsedModule} (hn : (m.module.names ++ pfs.map fun pf => pf.function.name).Nodup) :
    texts.foldlM ParsedModule.add m =
      .ok ⟨⟨m.module.version, m.module.functions ++ pfs.map ParsedFunction.function⟩,
        m.symbols ++ pfs.map fun pf => (pf.function.name, pf.symbols)⟩ := by
  induction h generalizing m with
  | nil => simp
  | @cons t pf texts pfs hpf _ ih =>
    have hnew : pf.function.name ∉ m.module.names := fun hm =>
      (List.nodup_append.mp hn).2.2 _ hm _ List.mem_cons_self rfl
    have hcontains : m.module.contains pf.function.name = false := by
      rw [Bool.eq_false_iff]
      exact fun hc => hnew (Module.contains_eq_true_iff.mp hc)
    have hinsert : m.module.insert pf.function =
        ⟨m.module.version, m.module.functions ++ [pf.function]⟩ := by
      rw [Module.insert, Module.place_of_notMem hnew]
    have hadd : ParsedModule.add m t =
        .ok ⟨⟨m.module.version, m.module.functions ++ [pf.function]⟩,
          m.symbols ++ [(pf.function.name, pf.symbols)]⟩ := by
      rw [add, hpf, ok_bind]
      simp only [hcontains, Bool.false_eq_true, ↓reduceIte, hinsert]
      rfl
    have hnext : ((⟨m.module.version, m.module.functions ++ [pf.function]⟩ : Module).names ++
        pfs.map fun pf => pf.function.name).Nodup := by
      simpa [Module.names] using hn
    rw [List.foldlM_cons, hadd, ok_bind, ih hnext]
    simp

/-- **`Readable`** -- a module whose text form can be cut and read: it has a function, the names
of its functions are distinct, and each of them is readable. -/
structure Module.Readable (m : Module) : Prop where
  /-- The version is the one that readers give. -/
  version : m.version = currentVersion
  /-- There is a function. -/
  functions_ne_nil : m.functions ≠ []
  /-- Names are distinct. -/
  names_nodup : m.names.Nodup
  /-- Every function can be cut and read. -/
  functions : ∀ f ∈ m.functions, f.Readable

/-- **`spelled`** -- the module that its text spells. -/
def Module.spelled (m : Module) : Module := ⟨m.version, m.functions.map Function.spelled⟩

/-- **What is read of the text of a module**: the module as it is spelled, and the names of its
functions. -/
theorem Module.Readable.ofText_render {m : Module} (h : m.Readable)
    (hleads : ∀ f ∈ m.functions, f.Leads) :
    ParsedModule.ofText m.render =
      .ok ⟨m.spelled, m.functions.map fun f => (f.name, f.symbols)⟩ := by
  have hnone : ∀ c ∈ ([] : List Char), c = '\n' := by simp
  obtain ⟨texts, htexts, hwritten⟩ := cuts_render h.functions hnone
  have hread : List.Forall₂ (fun t pf => ParsedFunction.ofText t = .ok pf) texts
      (m.functions.map fun f => ⟨f.spelled, f.symbols⟩) := by
    rw [List.forall₂_map_right_iff]
    refine (List.forall₂_iff_get.mp hwritten).elim fun hlength hget => ?_
    refine List.forall₂_iff_get.mpr ⟨hlength.symm, fun i hi hi' => ?_⟩
    have hmem := List.getElem_mem hi'
    exact (h.functions _ hmem).ofText_function (hleads _ hmem) (hget i hi' hi)
  have hn : (Module.empty.names ++ (m.functions.map fun f =>
      (⟨f.spelled, f.symbols⟩ : ParsedFunction)).map fun pf => pf.function.name).Nodup := by
    rw [List.map_map]
    exact h.names_nodup
  have hfold := ParsedModule.foldlM_add (m := ⟨.empty, []⟩) hread hn
  rw [List.map_map, List.map_map] at hfold
  have hmodule : (⟨Module.empty.version, m.functions.map Function.spelled⟩ : Module) = m.spelled :=
    congrArg (Module.mk · (m.functions.map Function.spelled)) h.version.symm
  have hne : texts ≠ [] := by
    rintro rfl
    exact h.functions_ne_nil (List.forall₂_nil_right_iff.mp hwritten)
  obtain ⟨t, ts, rfl⟩ := List.exists_cons_of_ne_nil hne
  rw [List.nil_append] at htexts
  rw [ParsedModule.ofText, Module.render, htexts, ok_bind, ← hmodule]
  exact hfold

theorem Module.Printable.readable {m : Module} (h : m.Printable) : m.Readable :=
  ⟨h.version, h.functions_ne_nil, h.names_nodup, fun f hf => (h.functions f hf).readable⟩

/-- What is read of the text of a printable module: the module, and the names of its functions. -/
theorem ParsedModule.ofText_render {m : Module} (h : m.Printable) :
    ParsedModule.ofText m.render = .ok ⟨m, m.functions.map fun f => (f.name, f.symbols)⟩ := by
  have hspelled : m.spelled = m := by
    have hfunctions : m.functions.map Function.spelled = m.functions :=
      map_eq_self_iff.mpr fun f hf => (h.functions f hf).spelled_eq
    rw [Module.spelled, hfunctions]
  rw [h.readable.ofText_render fun f hf => (h.functions f hf).leads, hspelled]

/-- **A printed function** is read back. -/
theorem Function.ofText_render {f : Function} (h : f.Printable) :
    Function.ofText f.render = .ok f := by
  have hm : Module.Printable ⟨currentVersion, [f]⟩ :=
    ⟨rfl, List.cons_ne_nil _ _, List.nodup_singleton _, fun _ hf => List.mem_singleton.mp hf ▸ h⟩
  have hread := ParsedModule.ofText_render hm
  rw [Module.render, List.map_singleton, List.intercalate_singleton] at hread
  rw [ofText, Module.ofText, hread]
  rfl

/-- **Parsing undoes printing.** A module of printable functions is read back as it is: with its
names and numbers, its operations and their attributes, its tuples, its regions with their outputs
and its return expressions. -/
theorem Module.parse_render {m : Module} (h : m.Printable) : Module.ofText m.render = .ok m := by
  rw [Module.ofText, ParsedModule.ofText_render h]
  rfl

/-- Two functions: the first has two regions, a tuple for a parameter and a nested tuple for its
result; the second has one region, which shows no output. -/
def twoFunctions : Module where
  version := currentVersion
  functions :=
    [{ name := "mixed"
       params :=
         [⟨⟨0⟩, "x", .tensor ⟨.f32, ⟨[2, 3]⟩⟩⟩,
           ⟨⟨1⟩, "pair", .tuple [.tensor ⟨.f32, ⟨[]⟩⟩, .tensor ⟨.f32, ⟨[3, 2]⟩⟩]⟩]
       regions :=
         [⟨[⟨⟨2⟩, "turned", .call (.transpose [1, 0]) [.value ⟨0⟩], .tensor ⟨.f32, ⟨[3, 2]⟩⟩⟩,
              ⟨⟨3⟩, "both", .call .add [.value ⟨2⟩, .tupleElement ⟨1⟩ 1],
                .tensor ⟨.f32, ⟨[3, 2]⟩⟩⟩], [⟨3⟩]⟩,
           ⟨[⟨⟨4⟩, "total", .call (.sum (some [0, 1]) false) [.value ⟨3⟩], .tensor ⟨.f32, ⟨[]⟩⟩⟩,
              ⟨⟨5⟩, "scaled",
                .call .multiply [.value ⟨4⟩, .literal ⟨.scalar .f32, [0, 0, 192, 191]⟩],
                .tensor ⟨.f32, ⟨[]⟩⟩⟩,
              ⟨⟨6⟩, "packed", .tuple [.operand (.value ⟨5⟩), .tuple [.operand (.value ⟨0⟩)]],
                .tuple [.tensor ⟨.f32, ⟨[]⟩⟩, .tuple [.tensor ⟨.f32, ⟨[2, 3]⟩⟩]]⟩], [⟨5⟩, ⟨6⟩]⟩]
       ret := .tuple [.value ⟨6⟩, .tuple [.value ⟨5⟩, .value ⟨0⟩]] },
      { name := "opaque_1"
        params := [⟨⟨0⟩, "x", .tensor ⟨.f32, ⟨[4]⟩⟩⟩]
        regions := [⟨[⟨⟨1⟩, "unread", .call (.customCall "kernel_7") [.value ⟨0⟩],
          .tensor ⟨.f32, ⟨[4]⟩⟩⟩], []⟩]
        ret := .value ⟨0⟩ }]

theorem twoFunctions_printable : twoFunctions.Printable := by decide +kernel

theorem parse_render_twoFunctions :
    twoFunctions.Printable ∧ Module.ofText twoFunctions.render = .ok twoFunctions :=
  ⟨twoFunctions_printable, Module.parse_render twoFunctions_printable⟩

end TensorGraph
