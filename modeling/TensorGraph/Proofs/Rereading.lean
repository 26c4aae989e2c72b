/-
# TensorGraph.Proofs.Rereading -- accepted texts are printed and read again

Whatever text the reader accepts, its module can be printed and cut again into the same functions,
regions and bindings (`ParsedModule.readable_of_ofText`), if names are words and the text is shorter
than the bound of indices. What is read then is the module as its text spells it. It is the module
itself exactly if every function is faithful (`Module.reread_iff`).
-/
import TensorGraph.Proofs.Legibility

namespace TensorGraph

/-! ## Bodies -/

section Bodies

variable {n : Nat} {scope scope' : Scope}

theorem Scope.entries_define {name : String} {ty : ValueType} {id : ValueId}
    (h : scope.define name ty = .ok (id, scope')) :
    scope'.entries = ⟨name, id, ty⟩ :: scope.entries := by
  obtain ⟨-, -, rfl, rfl⟩ := define_eq_ok_iff.mp h
  rfl

theorem Statement.eq_of_ofLine {line text : List Char} (h : ofLine line = .binding text) :
    text = line := by
  rw [ofLine] at h
  split at h
  · cases h
  · split at h
    · cases h
    · split at h
      · cases h
      · cases h
      · exact (Statement.binding.inj h).symm

/-- A binding is no longer than the body in which it stands. -/
theorem length_of_mem_statements {body text : List Char} (h : .binding text ∈ statements body) :
    text.length ≤ body.length := by
  obtain ⟨line, hline, hstatement⟩ := List.mem_filterMap.mp h
  obtain ⟨raw, hraw, rfl⟩ := List.mem_map.mp hline
  split at hstatement
  · cases hstatement
  · rw [Statement.eq_of_ofLine (Option.some.inj hstatement)]
    calc (trim (uncommented raw)).length
      _ ≤ (uncommented raw).length := length_trim_le _
      _ ≤ raw.length := List.IsPrefix.length_le <| uncommented_prefix raw
      _ ≤ body.length := length_of_mem_splitOn hraw

namespace Progress

variable {sts : List Statement} {ps : List Param} {p p' : Progress}

/-- **`Legible`** -- every type in scope is within `n`, and so is that of every binding, whose
expression is legible up to the target of a custom call. -/
structure Legible (n : Nat) (p : Progress) : Prop where
  /-- Types in scope. -/
  scope : ∀ e ∈ p.scope.entries, e.ty.Within n
  /-- Types and expressions of bindings. -/
  bindings : ∀ b ∈ p.bindings, b.ty.Within n ∧ (b.expr.Worded → b.expr.Legible)

/-- **A step** keeps what has been read legible. -/
theorem Legible.step (hn : n < indexBound) (hsts : ∀ text, .binding text ∈ sts → text.length ≤ n)
    (h : p.Legible n) (hstep : Step sts p p') : p'.Legible n := by
  cases hstep with
  | opened scope regions => exact ⟨h.scope, by simpa [Progress.bindings] using h.bindings⟩
  | exposed done bindings _ _ => exact ⟨h.scope, by simpa [Progress.bindings] using h.bindings⟩
  | @bound text scope scope' b done draft hst hread =>
    obtain ⟨rhs, declared, hlength, hty, hexpr, hdefine⟩ := Binding.parts_of_ofText hread
    have hwithin : b.ty.Within n :=
      (ValueType.within_of_ofText hty).mono (Nat.le_trans hlength (hsts text hst))
    have hbinding : b.ty.Within n ∧ (b.expr.Worded → b.expr.Legible) :=
      ⟨hwithin, fun hworded => Expr.legible_of_ofText hn h.scope hwithin.bounded hworded hexpr⟩
    constructor
    · intro e he
      rw [Scope.entries_define hdefine] at he
      rcases List.mem_cons.mp he with rfl | he
      · exact hwithin
      · exact h.scope e he
    · rw [bindings_bound scope]
      exact List.forall_mem_append.mpr ⟨h.bindings, List.forall_mem_singleton.mpr hbinding⟩

theorem Legible.steps (hn : n < indexBound) (hsts : ∀ text, .binding text ∈ sts → text.length ≤ n)
    (h : p.Legible n) (hsteps : Steps sts p p') : p'.Legible n :=
  hsteps.invariant (Legible.step hn hsts) h

end Progress

/-- **`Exposed`** -- what a region declares to expose is defined before it ends. -/
def Exposed (ps : List Param) (regions : List RegionDraft) : Prop :=
  ∀ done draft rest outputs, regions = done ++ draft :: rest → draft.outputs = some outputs →
    ∀ id ∈ outputs, id ∈ ps.map Param.id ++
      (done.flatMap RegionDraft.bindings ++ draft.bindings).map Binding.id

namespace Exposed

variable {sts : List Statement} {ps : List Param} {p p' : Progress} {done : List RegionDraft}
  {draft : RegionDraft}

theorem nil (ps : List Param) : Exposed ps [] := by
  rintro done draft rest outputs hregions
  simp at hregions

theorem init (h : Exposed ps (done ++ [draft])) : Exposed ps done := by
  rintro before region rest outputs rfl
  exact h before region (rest ++ [draft]) outputs (by simp)

/-- One more region is exposed if its own outputs are. -/
theorem concat (h : Exposed ps done) (hlast : ∀ outputs, draft.outputs = some outputs →
      ∀ id ∈ outputs, id ∈ ps.map Param.id ++
        (done.flatMap RegionDraft.bindings ++ draft.bindings).map Binding.id) :
    Exposed ps (done ++ [draft]) := by
  intro before region rest outputs hregions houtputs
  rcases List.eq_nil_or_concat rest with rfl | ⟨rest, last, rfl⟩
  · obtain ⟨rfl, hdraft⟩ := List.append_inj' hregions rfl
    obtain rfl := List.singleton_inj.mp hdraft
    exact hlast outputs houtputs
  · rw [List.concat_eq_append, ← List.cons_append, ← List.append_assoc] at hregions
    exact h before region rest outputs (List.append_inj' hregions rfl).1 houtputs

/-- **A step** keeps what is exposed behind its definition. -/
theorem step (horder : p.InOrder ps) (h : Exposed ps p.regions) (hstep : Progress.Step sts p p') :
    Exposed ps p'.regions := by
  cases hstep with
  | opened scope regions => exact h.concat (by simp)
  -- only the last region changes: it declares what is in scope, or keeps what it has declared
  | exposed done bindings _ houtputs =>
    refine (init h).concat fun outputs hsome id hid => ?_
    obtain rfl := Option.some.inj hsome
    have hmem := horder.mem_ids_iff.mp (houtputs id hid)
    simpa [Progress.bindings] using hmem
  | @bound text scope scope' b done draft hst hread =>
    refine (init h).concat fun outputs hsome id hid => ?_
    have hmem := h done draft [] outputs rfl hsome id hid
    simp only [List.map_append, List.mem_append] at hmem ⊢
    tauto

theorem steps (horder : p.InOrder ps) (h : Exposed ps p.regions)
    (hsteps : Progress.Steps sts p p') : Exposed ps p'.regions := by
  -- what is in scope is what has been defined
  have hboth : p'.InOrder ps ∧ Exposed ps p'.regions :=
    hsteps.invariant (P := fun p => p.InOrder ps ∧ Exposed ps p.regions)
      (fun ⟨ho, he⟩ hstep => ⟨ho.step hstep, he.step ho hstep⟩) ⟨horder, h⟩
  exact hboth.2

end Exposed

end Bodies

/-! ## Functions -/

section Functions

variable {s : List Char} {n : Nat}

theorem length_afterKeyword? {rest : List Char} (h : afterKeyword? s = some rest) :
    rest.length ≤ s.length := by
  rcases Option.or_eq_some_iff.mp h with h | ⟨-, h⟩
  · exact length_after? h
  · exact length_after? h

/-- The type of a parameter is no longer than the parameter. -/
theorem ParamText.length_of_ofText {p : ParamText} (h : ParamText.ofText s = .ok p) :
    p.ty.length ≤ s.length := by
  obtain ⟨name, ty, hcolon, rfl⟩ := ParamText.parts_of_ofText h
  have hcut := length_cutAtFirst hcolon
  have htrim := length_trim_le ty
  dsimp only
  omega

/-- The types of the parameters are no longer than the header. -/
theorem Header.length_of_ofText {header : Header} (h : Header.ofText s = .ok header) :
    ∀ p ∈ header.params, p.ty.length ≤ s.length := by
  obtain ⟨word, name, behind, inside, rest, params, result, hkeyword, hopen, hclose, hparams, -,
    rfl⟩ := Header.parts_of_ofText h
  -- every cut, and every trimming, leaves no more than it was given
  intro p hp
  obtain ⟨item, hitem, htext⟩ := forall₂_exists_of_mem hparams.flip hp
  have htrimmed := length_trim_le s
  have hafter := length_afterKeyword? hkeyword
  have hcut := length_cutAtFirst hopen
  have hinside := length_closing? hclose
  have htrim := length_trim_le inside
  have hlength := length_of_mem_items hitem
  have hty := ParamText.length_of_ofText htext
  omega

/-- **Parameters** have types within the length of their texts. -/
theorem within_of_defineParams {texts : List ParamText} {params : List Param} {scope scope' : Scope}
    (hscope : ∀ e ∈ scope.entries, e.ty.Within n) (htexts : ∀ t ∈ texts, t.ty.length ≤ n)
    (h : defineParams scope texts = .ok (params, scope')) :
    (∀ p ∈ params, p.ty.Within n) ∧ ∀ e ∈ scope'.entries, e.ty.Within n := by
  induction texts generalizing scope params with
  | nil =>
    cases h
    exact ⟨fun p hp => absurd hp List.not_mem_nil, hscope⟩
  | cons t texts ih =>
    rw [List.forall_mem_cons] at htexts
    obtain ⟨ty, id, mid, params', hty, hdefine, hrest, rfl⟩ := exists_of_defineParams h
    have hwithin : ty.Within n := (ValueType.within_of_ofText hty).mono htexts.1
    have hmid : ∀ e ∈ mid.entries, e.ty.Within n := by
      rw [Scope.entries_define hdefine]
      exact List.forall_mem_cons.mpr ⟨hwithin, hscope⟩
    obtain ⟨hparams, hscope'⟩ := ih hmid htexts.2 hrest
    exact ⟨List.forall_mem_cons.mpr ⟨hwithin, hparams⟩, hscope'⟩

/-- **`Worded`** -- a function whose names and targets are words. -/
structure Function.Worded (f : Function) : Prop where
  /-- Its name. -/
  name : IsWord f.name
  /-- The names of its values. -/
  valueNames : ∀ name ∈ f.valueNames, IsWord name
  /-- The targets of its custom calls. -/
  exprs : ∀ b ∈ f.bindings, b.expr.Worded

instance : DecidablePred Function.Worded := fun f =>
  decidable_of_iff (IsWord f.name ∧ (∀ name ∈ f.valueNames, IsWord name) ∧
      ∀ b ∈ f.bindings, b.expr.Worded)
    ⟨fun ⟨h₁, h₂, h₃⟩ => ⟨h₁, h₂, h₃⟩, fun ⟨h₁, h₂, h₃⟩ => ⟨h₁, h₂, h₃⟩⟩

/-- Outputs that are declared stand behind their definitions, and so do those by default. -/
theorem Exposed.complete {ps : List Param} {drafts : List RegionDraft} (h : Exposed ps drafts)
    (ret : ReturnExpr) {done rest : List Region} {r : Region}
    (hregions : done ++ r :: rest = drafts.map (RegionDraft.complete ret)) :
    ∀ id ∈ r.outputs,
      id ∈ ps.map Param.id ++ (done.flatMap Region.bindings ++ r.bindings).map Binding.id := by
  obtain ⟨before, after, rfl, rfl, hafter⟩ := List.map_eq_append_iff.mp hregions.symm
  obtain ⟨draft, last, rfl, rfl, rfl⟩ := List.map_eq_cons_iff.mp hafter
  rw [RegionDraft.bindings_complete]
  intro id hid
  cases houtputs : draft.outputs with
  | none =>
    rw [RegionDraft.complete, houtputs] at hid
    have hmem := (mem_defaultOutputs_iff.mp hid).2
    rw [List.map_append]
    exact List.mem_append_right _ (List.mem_append_right _ hmem)
  | some outputs =>
    rw [RegionDraft.complete, houtputs] at hid
    exact h before draft last outputs rfl houtputs id hid

/-- **A function that is read** can be written and cut again, if its names are words. -/
theorem ParsedFunction.readable_of_ofText {t : FunctionText} {pf : ParsedFunction}
    (hn : n < indexBound) (hheader : t.header.length ≤ n) (hbody : t.body.length ≤ n)
    (h : ParsedFunction.ofText t = .ok pf) (hworded : pf.function.Worded) :
    pf.function.Readable := by
  have hassigns := (ParsedFunction.assigns_of_ofText h).1
  obtain ⟨header, ty, params, scope, body, hread, -, hparams, hbodyText, -, rfl⟩ :=
    ParsedFunction.parts_of_ofText h
  obtain ⟨drafts, hsteps, hne, hregions, horder, hreturns⟩ :=
    ParsedBody.inOrder_of_ofText hparams hbodyText
  obtain ⟨regions, ret, bscope⟩ := body
  dsimp only at hregions hreturns
  subst hregions
  -- the completion adds outputs and no bindings, so what holds of the drafts holds of the regions
  have hbindings := RegionDraft.bindings_complete ret drafts
  obtain ⟨hparamTypes, hscope⟩ := within_of_defineParams (fun e he => absurd he List.not_mem_nil)
    (fun p hp => Nat.le_trans (Header.length_of_ofText hread p hp) hheader) hparams
  have hlegible : Progress.Legible n ⟨bscope, drafts⟩ :=
    Progress.Legible.steps hn
      (fun text htext => Nat.le_trans (length_of_mem_statements htext) hbody)
      ⟨hscope, fun b hb => absurd hb List.not_mem_nil⟩ hsteps
  have hexposed : Exposed params drafts :=
    (Exposed.nil params).steps (.of_defineParams hparams) hsteps
  have hspec : ∀ b ∈ (drafts.map (RegionDraft.complete ret)).flatMap Region.bindings,
      b.ty.Within n ∧ (b.expr.Worded → b.expr.Legible) := hbindings ▸ hlegible.bindings
  exact
    { regions_ne_nil := by simpa using hne
      numbered := hassigns.numbered
      name := hworded.name
      valueNames := hworded.valueNames
      names_nodup := hassigns.names_nodup
      exprs := fun b hb => (hspec b hb).2 (hworded.exprs b hb)
      params := fun p hp => (hparamTypes p hp).bounded
      bindings := fun b hb => (hspec b hb).1.bounded
      sequenced := (horder.singleAssignment header.name ret).sequenced
      outputs := fun done r rest hsplit => hexposed.complete ret hsplit
      returns := by rwa [Function.bindings, List.map_flatMap] }

end Functions

/-! ## Modules -/

/-- The texts of functions are no longer than the text from which they are cut. -/
theorem length_functionTexts {s : List Char} {texts : List FunctionText}
    (h : functionTexts s = .ok texts) :
    ∀ t ∈ texts, t.header.length ≤ s.length ∧ t.body.length ≤ s.length := by
  fun_induction functionTexts s generalizing texts with
  | case1 s _ =>
    cases h
    exact fun t ht => absurd ht List.not_mem_nil
  | case2 s _ _ => cases h
  | case3 s _ _ _ _ _ => cases h
  | case4 s _ header rest hopen body rest' hclose ih =>
    obtain ⟨more, hmore, rfl⟩ := map_eq_ok_iff.mp h
    have hheader : header.length ≤ s.length := by
      have := length_cutAtFirst hopen
      omega
    have hbody : body.length + rest'.length ≤ s.length := by
      have := length_cutAtFirst hopen
      have := length_closing? hclose
      omega
    refine List.forall_mem_cons.mpr
      ⟨⟨hheader, Nat.le_trans (Nat.le_add_right _ _) hbody⟩, fun t ht => ?_⟩
    have := ih hmore t ht
    omega

/-- **What is accepted can be written and cut again**, if its names are words and the text is
shorter than the bound of indices. -/
theorem ParsedModule.readable_of_ofText {s : List Char} {m : ParsedModule}
    (hs : s.length < indexBound) (hworded : ∀ f ∈ m.module.functions, f.Worded)
    (h : ParsedModule.ofText s = .ok m) : m.module.Readable := by
  obtain ⟨texts, pfs, hne, htexts, hpfs, rfl, hn⟩ := ParsedModule.parts_of_ofText h
  have hlengths := length_functionTexts htexts
  refine ⟨rfl, ?_, hn, fun f hf => ?_⟩
  · rintro hnil
    obtain rfl := List.map_eq_nil_iff.mp hnil
    exact hne (List.forall₂_nil_right_iff.mp hpfs)
  · obtain ⟨pf, hpf, rfl⟩ := List.mem_map.mp hf
    obtain ⟨t, ht, htext⟩ := forall₂_exists_of_mem hpfs.flip hpf
    obtain ⟨hheader, hbody⟩ := hlengths t ht
    exact ParsedFunction.readable_of_ofText hs hheader hbody htext (hworded _ hf)

/-! ## Literals that are spelled otherwise -/

namespace Literal

/-- What is above every number. -/
def infinite : Literal := .ofSingle 0x7f800000

/-- What is below every number. -/
def minusInfinite : Literal := .ofSingle 0xff800000

/-- What is no number. -/
def notNumber : Literal := .ofSingle 0x7fc00000

/-- What is no number, with a minus sign. -/
def minusNotNumber : Literal := .ofSingle 0xffc00000

variable {l : Literal}

/-- **A legible literal** is finite or one of the four that go by names. -/
theorem Legible.finite_or_named (h : l.Legible) :
    leValue l.bytes % BinaryFormat.single.signWeight < BinaryFormat.single.infinity ∨
      l = infinite ∨ l = minusInfinite ∨ l = notNumber ∨ l = minusNotNumber := by
  have hweight : BinaryFormat.single.signWeight = 0x80000000 := by decide
  have hinfinity : BinaryFormat.single.infinity = 0x7f800000 := by decide
  have hquiet : BinaryFormat.single.quietNaN = 0x7fc00000 := by decide
  obtain ⟨hlt, hmagnitude⟩ := h.word
  rw [hweight, hinfinity, hquiet] at hmagnitude
  rw [hweight] at hlt
  rw [hweight, hinfinity]
  -- a word that is not finite has one of two magnitudes and one of two signs
  have hword : leValue l.bytes % 0x80000000 < 0x7f800000 ∨ leValue l.bytes = 0x7f800000 ∨
      leValue l.bytes = 0xff800000 ∨ leValue l.bytes = 0x7fc00000 ∨
      leValue l.bytes = 0xffc00000 := by
    omega
  have hbits : ∀ word, leValue l.bytes = word → l = .ofSingle (UInt32.ofNat word) :=
    fun word he => he ▸ h.ofSingle_eq.symm
  rcases hword with hfinite | he | he | he | he
  · exact .inl hfinite
  · exact .inr (.inl (hbits _ he))
  · exact .inr (.inr (.inl (hbits _ he)))
  · exact .inr (.inr (.inr (.inl (hbits _ he))))
  · exact .inr (.inr (.inr (.inr (hbits _ he))))

/-- Every literal but one is spelled as it is. -/
theorem Legible.spelled_eq_self_iff (h : l.Legible) : l.spelled = l ↔ l ≠ minusNotNumber := by
  constructor
  · rintro hs rfl
    revert hs
    decide
  · intro hne
    rcases h.finite_or_named with hfinite | rfl | rfl | rfl | rfl
    · exact if_neg (by omega)
    · rfl
    · rfl
    · rfl
    · exact absurd rfl hne

/-- Every literal but three starts like an operand. -/
theorem Legible.leads_iff (h : l.Legible) :
    l.Leads ↔ l ≠ infinite ∧ l ≠ notNumber ∧ l ≠ minusNotNumber := by
  constructor
  · intro hleads
    refine ⟨?_, ?_, ?_⟩ <;> rintro rfl <;> rcases hleads with hleads | hleads <;>
      exact absurd hleads (by decide)
  · rintro ⟨hinfinite, hnot, hminus⟩
    rcases h.finite_or_named with hfinite | rfl | rfl | rfl | rfl
    · exact .inl hfinite
    · exact absurd rfl hinfinite
    · exact .inr rfl
    · exact absurd rfl hnot
    · exact absurd rfl hminus

end Literal

/-! ## Expressions that are spelled otherwise -/

section Spelled

theorem Operand.spelled_eq_self_iff {x : Operand} (h : x.Legible) :
    x.spelled = x ↔ .minusNotNumber ∉ x.constant?.toList := by
  cases x with
  | value id => simp [spelled, constant?]
  | tupleElement tuple index => simp [spelled, constant?]
  | literal l =>
    have hl : l.Legible := h
    rw [spelled, Operand.literal.injEq, hl.spelled_eq_self_iff, constant?, Option.toList_some,
      List.mem_singleton]
    exact ne_comm

mutual

theorem TupleField.spelled_eq_self_iff : (field : TupleField) → field.Legible →
    (field.spelled = field ↔ .minusNotNumber ∉ field.constants)
  | .operand x, h => by
    rw [spelled, TupleField.operand.injEq, constants]
    exact Operand.spelled_eq_self_iff h
  | .tuple fields, h => by
    rw [spelled, TupleField.tuple.injEq, constants]
    exact TupleField.spelledAll_eq_self_iff fields h

theorem TupleField.spelledAll_eq_self_iff : (fields : List TupleField) →
    TupleField.AllLegible fields →
    (TupleField.spelledAll fields = fields ↔ .minusNotNumber ∉ TupleField.constantsList fields)
  | [], _ => by simp [spelledAll, constantsList]
  | field :: rest, h => by
    rw [spelledAll, List.cons.injEq, TupleField.spelled_eq_self_iff field h.1,
      TupleField.spelledAll_eq_self_iff rest h.2, constantsList, List.mem_append, not_or]

end

/-- **An expression** is spelled as it is if it has no number with a lost sign. -/
theorem Expr.spelled_eq_self_iff {e : Expr} (h : e.Legible) :
    e.spelled = e ↔ .minusNotNumber ∉ e.constants := by
  cases e with
  | call op operands =>
    have hoperands : operands.map Operand.spelled = operands ↔
        ∀ x ∈ operands, .minusNotNumber ∉ x.constant?.toList := by
      rw [map_eq_self_iff]
      exact forall₂_congr fun x hx => Operand.spelled_eq_self_iff (h.2 x hx)
    rw [spelled, Expr.call.injEq, hoperands, constants, List.mem_filterMap]
    simp
  | tuple fields =>
    rw [spelled, Expr.tuple.injEq, constants]
    exact TupleField.spelledAll_eq_self_iff fields h
  | tupleGet source index => simp [spelled, constants]
  | «alias» x =>
    rw [spelled, Expr.alias.injEq, constants]
    exact Operand.spelled_eq_self_iff h.1

/-- **An expression** is told from an operation if it is no alias of a number that goes by a
name. -/
theorem Expr.leads_iff {e : Expr} (h : e.Legible) (hsign : .minusNotNumber ∉ e.constants) :
    e.Leads ↔ e ≠ .alias (.literal .infinite) ∧ e ≠ .alias (.literal .notNumber) := by
  cases e with
  | «alias» x =>
    cases x with
    | literal l =>
      have hl : l.Legible := h.1
      have hminus : l ≠ .minusNotNumber := by
        rintro rfl
        exact hsign List.mem_cons_self
      rw [show (Expr.alias (.literal l)).Leads ↔ l.Leads from Iff.rfl, hl.leads_iff]
      simp [hminus]
    | _ => simp [Leads, Operand.Leads]
  | _ => simp [Leads]

end Spelled

/-! ## Faithful functions -/

/-- **`Faithful`** -- a function that its text spells as it is. Of what is no number, the text
loses the sign; a number that goes by a name is not read on its own; and what a region exposes by
default is exposed unless outputs are shown. -/
structure Function.Faithful (f : Function) : Prop where
  /-- No literal is a negative word that is no number. -/
  signs : ∀ b ∈ f.bindings, .minusNotNumber ∉ b.expr.constants
  /-- No binding is an alias of a number that goes by a name. -/
  aliases : ∀ b ∈ f.bindings,
    b.expr ≠ .alias (.literal .infinite) ∧ b.expr ≠ .alias (.literal .notNumber)
  /-- A region without outputs defines nothing that is returned. -/
  outputs : ∀ r ∈ f.regions, r.outputs = [] →
    ∀ id ∈ f.ret.values, id ∉ r.bindings.map Binding.id

instance : DecidablePred Function.Faithful := fun f =>
  decidable_of_iff ((∀ b ∈ f.bindings, .minusNotNumber ∉ b.expr.constants) ∧
      (∀ b ∈ f.bindings,
        b.expr ≠ .alias (.literal .infinite) ∧ b.expr ≠ .alias (.literal .notNumber)) ∧
      ∀ r ∈ f.regions, r.outputs = [] → ∀ id ∈ f.ret.values, id ∉ r.bindings.map Binding.id)
    ⟨fun ⟨h₁, h₂, h₃⟩ => ⟨h₁, h₂, h₃⟩, fun ⟨h₁, h₂, h₃⟩ => ⟨h₁, h₂, h₃⟩⟩

/-- **A region** is spelled as it is if its bindings are and it exposes nothing by default. -/
theorem Region.spelled_eq_self_iff {r : Region} (ret : ReturnExpr)
    (h : ∀ b ∈ r.bindings, b.expr.Legible) :
    r.spelled ret = r ↔ (∀ b ∈ r.bindings, .minusNotNumber ∉ b.expr.constants) ∧
      (r.outputs = [] → ∀ id ∈ ret.values, id ∉ r.bindings.map Binding.id) := by
  have hbindings : r.bindings.map Binding.spelled = r.bindings ↔
      ∀ b ∈ r.bindings, .minusNotNumber ∉ b.expr.constants := by
    rw [map_eq_self_iff]
    refine forall₂_congr fun b hb => ?_
    rw [← Expr.spelled_eq_self_iff (h b hb), Binding.spelled, Binding.mk.injEq]
    simp
  have hids : (r.bindings.map Binding.spelled).map Binding.id = r.bindings.map Binding.id := by
    rw [List.map_map]
    rfl
  have hdefault : defaultOutputs (r.bindings.map Binding.spelled) ret.values = [] ↔
      ∀ id ∈ ret.values, id ∉ r.bindings.map Binding.id := by
    rw [List.eq_nil_iff_forall_not_mem]
    refine forall_congr' fun id => ?_
    rw [mem_defaultOutputs_iff, hids, not_and]
  obtain ⟨bindings, outputs⟩ := r
  cases outputs with
  | nil =>
    rw [spelled, draft, RegionDraft.complete, Region.mk.injEq]
    exact and_congr hbindings (hdefault.trans (by simp))
  | cons id ids =>
    rw [spelled, draft, RegionDraft.complete, Region.mk.injEq]
    exact and_congr hbindings (by simp)

/-- **A function** is read back as it is, if at all, exactly if it is faithful. -/
theorem Function.Readable.faithful_iff {f : Function} (h : f.Readable) :
    f.Faithful ↔ f.Leads ∧ f.spelled = f := by
  have hlegible : ∀ r ∈ f.regions, ∀ b ∈ r.bindings, b.expr.Legible := fun r hr b hb =>
    h.exprs b (List.mem_flatMap.mpr ⟨r, hr, hb⟩)
  have hspelled : f.spelled = f ↔ (∀ b ∈ f.bindings, .minusNotNumber ∉ b.expr.constants) ∧
      ∀ r ∈ f.regions, r.outputs = [] → ∀ id ∈ f.ret.values, id ∉ r.bindings.map Binding.id := by
    have hregions : f.spelled = f ↔ ∀ r ∈ f.regions, r.spelled f.ret = r := by
      rw [← map_eq_self_iff]
      exact ⟨congrArg Function.regions, fun he => by rw [spelled, he]⟩
    rw [hregions, Function.bindings, List.forall_mem_flatMap, ← forall₂_and]
    exact forall₂_congr fun r hr => Region.spelled_eq_self_iff f.ret (hlegible r hr)
  have hleads : (∀ b ∈ f.bindings, .minusNotNumber ∉ b.expr.constants) → (f.Leads ↔
      ∀ b ∈ f.bindings,
        b.expr ≠ .alias (.literal .infinite) ∧ b.expr ≠ .alias (.literal .notNumber)) :=
    fun hsigns => forall₂_congr fun b hb => Expr.leads_iff (h.exprs b hb) (hsigns b hb)
  rw [hspelled]
  constructor
  · rintro ⟨hsigns, haliases, houtputs⟩
    exact ⟨(hleads hsigns).mpr haliases, hsigns, houtputs⟩
  · rintro ⟨hl, hsigns, houtputs⟩
    exact ⟨hsigns, (hleads hsigns).mp hl, houtputs⟩

/-! ## What is read of a text that is accepted -/

theorem exists_step_of_foldlM {ε α β : Type} {step : β → α → Except ε β} {l : List α} {b c : β}
    (h : l.foldlM step b = .ok c) {x : α} (hx : x ∈ l) : ∃ b' c', step b' x = .ok c' := by
  induction l generalizing b with
  | nil => exact absurd hx List.not_mem_nil
  | cons y l ih =>
    obtain ⟨b', hstep, hrest⟩ := foldlM_cons_eq_ok_iff.mp h
    rcases List.mem_cons.mp hx with rfl | hx
    · exact ⟨b, b', hstep⟩
    · exact ih hrest hx

/-- **Every binding of a body that is accepted** has been read in some scope. -/
theorem ParsedBody.exists_binding {scope : Scope} {body text : List Char} {p : ParsedBody}
    (h : ParsedBody.ofText scope body = .ok p) (htext : .binding text ∈ statements body) :
    ∃ scope b, Binding.ofText scope text = .ok b := by
  obtain ⟨_, hfold, -⟩ := bind_eq_ok_iff.mp h
  obtain ⟨before, after, hstep⟩ := exists_step_of_foldlM hfold htext
  rw [BodyState.step] at hstep
  split at hstep
  · cases hstep
  · obtain ⟨draft, _, _, hbinding, -⟩ := BodyState.parts_of_inRegion hstep
    obtain ⟨b, hread, -⟩ := bind_eq_ok_iff.mp hbinding
    exact ⟨before.scope, b, hread⟩

section Accepts

variable {f : Function} {t : FunctionText} {pf : ParsedFunction}

/-- Every binding has a line of its own. -/
theorem Function.binding_mem_statements {b : Binding} (hb : b ∈ f.bindings) :
    .binding (f.renderBinding b) ∈ f.regionsStatements := by
  have hregion : ∀ r, b ∈ r.bindings → .binding (f.renderBinding b) ∈ f.regionStatements r :=
    fun r hr => List.mem_append_left _ (List.mem_map_of_mem hr)
  obtain ⟨r, hr, hmem⟩ := List.mem_flatMap.mp hb
  rw [regionsStatements]
  split
  · next r' hregions =>
    rw [hregions, List.mem_singleton] at hr
    exact hregion r' (hr ▸ hmem)
  · exact List.mem_flatMap.mpr
      ⟨r, hr, List.mem_cons_of_mem _ (List.mem_append_left _ (hregion r hmem))⟩

/-- **A function whose text is accepted** has no alias that goes by a name. -/
theorem Function.Readable.leads_of_ofText (h : f.Readable) (ht : f.WrittenAs t)
    (hread : ParsedFunction.ofText t = .ok pf) : f.Leads := by
  intro b hb
  by_contra hno
  obtain ⟨result, -, -, hbody⟩ := ht
  obtain ⟨_, _, _, scope, body, -, -, -, hbodyText, -⟩ := ParsedFunction.parts_of_ofText hread
  have hline : .binding (f.renderBinding b) ∈ statements t.body := by
    rw [hbody, h.readAs_body.statements_eq]
    exact List.mem_append_left _ (binding_mem_statements hb)
  obtain ⟨scope', b', hok⟩ := ParsedBody.exists_binding hbodyText hline
  obtain ⟨e, herror⟩ := Binding.ofText_not_leads h hb hno scope'
  rw [herror] at hok
  cases hok

end Accepts

/-! ## Modules that are read again -/

/-- **The text of a readable module** is accepted exactly if no alias goes by a name. -/
theorem Module.Readable.accepts_iff {m : Module} (h : m.Readable) :
    (∃ m', ParsedModule.ofText m.render = .ok m') ↔ ∀ f ∈ m.functions, f.Leads := by
  refine ⟨?_, fun hleads => ⟨_, h.ofText_render hleads⟩⟩
  rintro ⟨m', hread⟩ f hf
  have hnone : ∀ c ∈ ([] : List Char), c = '\n' := by simp
  obtain ⟨texts, htexts, hwritten⟩ := cuts_render h.functions hnone
  obtain ⟨texts', pfs, -, htexts', hpfs, -, -⟩ := ParsedModule.parts_of_ofText hread
  -- whoever reads the text cuts it at the same braces
  rw [List.nil_append, ← Module.render, htexts'] at htexts
  obtain rfl := Except.ok.inj htexts
  obtain ⟨t, ht, hwrite⟩ := forall₂_exists_of_mem hwritten hf
  obtain ⟨pf, -, hpf⟩ := forall₂_exists_of_mem hpfs ht
  exact (h.functions f hf).leads_of_ofText hwrite hpf

theorem Module.Readable.faithful_iff {m : Module} (h : m.Readable) :
    (∀ f ∈ m.functions, f.Faithful) ↔ (∀ f ∈ m.functions, f.Leads) ∧ m.spelled = m := by
  have hspelled : m.spelled = m ↔ ∀ f ∈ m.functions, f.spelled = f := by
    rw [← map_eq_self_iff]
    exact ⟨congrArg Module.functions, fun he => by rw [spelled, he]⟩
  rw [hspelled, ← forall₂_and]
  exact forall₂_congr fun f hf => (h.functions f hf).faithful_iff

/-- **Printing what was accepted.** The text of a module that was read is read as the same module
exactly if every function is faithful: no literal is a negative word that is no number, no binding
is an alias of what is above every number or no number, and no region without outputs defines what
is returned. -/
theorem Module.reread_iff {s : List Char} {m : Module} (hs : s.length < indexBound)
    (hworded : ∀ f ∈ m.functions, f.Worded) (h : Module.ofText s = .ok m) :
    Module.ofText m.render = .ok m ↔ ∀ f ∈ m.functions, f.Faithful := by
  obtain ⟨pm, hpm, rfl⟩ := map_eq_ok_iff.mp h
  have hreadable := ParsedModule.readable_of_ofText hs hworded hpm
  have hrender : (∀ f ∈ pm.module.functions, f.Leads) →
      Module.ofText pm.module.render = .ok pm.module.spelled := fun hleads => by
    rw [Module.ofText, hreadable.ofText_render hleads]
    rfl
  rw [hreadable.faithful_iff]
  constructor
  · intro hread
    obtain ⟨pm', hpm', -⟩ := map_eq_ok_iff.mp hread
    have hleads := hreadable.accepts_iff.mp ⟨pm', hpm'⟩
    exact ⟨hleads, Except.ok.inj ((hrender hleads).symm.trans hread)⟩
  · rintro ⟨hleads, hspelled⟩
    rw [hrender hleads, hspelled]

/-- A function with an alias below every number and with what is no number among the operands of a
call. -/
def oddText : String :=
  "func @f(%x: tensor<f32>) -> tensor<f32> \x7b\n  %k = -1e39 -> tensor<f32>\n" ++
  "  %y = add(%x, nan) -> tensor<f32>\n  return %y\n\x7d\n"

/-- What is read of it. -/
def oddModule : Module where
  version := currentVersion
  functions :=
    [{ name := "f"
       params := [⟨⟨0⟩, "x", .tensor ⟨.f32, ⟨[]⟩⟩⟩]
       regions := [⟨[⟨⟨1⟩, "k", .alias (.literal .minusInfinite), .tensor ⟨.f32, ⟨[]⟩⟩⟩,
         ⟨⟨2⟩, "y", .call .add [.value ⟨0⟩, .literal .notNumber], .tensor ⟨.f32, ⟨[]⟩⟩⟩], [⟨2⟩]⟩]
       ret := .value ⟨2⟩ }]

theorem reread_oddModule : oddText.toList.length < indexBound ∧
    (∀ f ∈ oddModule.functions, f.Worded) ∧ Module.ofText oddText.toList = .ok oddModule ∧
    Module.ofText oddModule.render = .ok oddModule := by
  have hs : oddText.toList.length < indexBound := by decide +kernel
  have hworded : ∀ f ∈ oddModule.functions, f.Worded := by decide +kernel
  have hread : Module.ofText oddText.toList = .ok oddModule := by decide +kernel
  have hfaithful : ∀ f ∈ oddModule.functions, f.Faithful := by decide +kernel
  exact ⟨hs, hworded, hread, (Module.reread_iff hs hworded hread).mpr hfaithful⟩

/-- A function with an alias of a number beyond the largest. -/
def overflowText : String :=
  "func @f() -> tensor<f32> \x7b\n  %k = 1e39 -> tensor<f32>\n  return %k\n\x7d\n"

/-- What is read of it. -/
def overflowModule : Module where
  version := currentVersion
  functions :=
    [{ name := "f"
       params := []
       regions := [⟨[⟨⟨0⟩, "k", .alias (.literal .infinite), .tensor ⟨.f32, ⟨[]⟩⟩⟩], [⟨0⟩]⟩]
       ret := .value ⟨0⟩ }]

/-- Its text is accepted, but what is printed of it is not: the alias is taken for an operation. -/
theorem overflowModule_rejected : Module.ofText overflowText.toList = .ok overflowModule ∧
    (∀ f ∈ overflowModule.functions, f.Worded) ∧
    Module.ofText overflowModule.render =
      .error (.inFunction "f" (.unsupportedOperation "inf")) := by
  decide +kernel

end TensorGraph
