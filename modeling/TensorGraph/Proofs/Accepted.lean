/-
# TensorGraph.Proofs.Accepted -- texts that are accepted define functions in order

Whatever text the reader accepts, the functions it gives are in single-assignment form
(`ParsedModule.assigns_ofText`). A name is brought into scope only if it is new, and it receives
the next number; a name that is used is looked up in the scope at that moment. So each statement
of a body takes one of three steps (`Progress.Step`), and what the scope holds is at every moment
what the regions read so far have defined (`Progress.InOrder`).

Regions that declare no outputs expose what is returned of their own bindings. Without any
declaration, then, the verifier finds no fault in what is exposed.
-/
import Mathlib.Logic.Relation
import TensorGraph.Proofs.Roundtrip
import TensorGraph.Proofs.Verdicts

namespace TensorGraph

/-! ## Values that a scope holds -/

/-- The values of a scope. -/
def Scope.ids (s : Scope) : List ValueId := s.entries.map ScopeEntry.id

section Reads

variable {scope scope' : Scope} {s : List Char}

theorem Scope.mem_ids_of_resolve {name : String} {id : ValueId}
    (h : scope.resolve name = .ok id) : id ∈ scope.ids := by
  rw [resolve, find?] at h
  cases hfind : scope.entries.find? (fun e => e.name == name) with
  | none => simp [hfind] at h
  | some e =>
    rw [hfind, Option.map_some] at h
    cases h
    exact List.mem_map_of_mem (List.mem_of_find?_eq_some hfind)

/-- **An operand** reads a value in scope. -/
theorem Operand.mem_ids_of_ofText {x : Operand} (h : Operand.ofText scope s = .ok x) :
    ∀ id ∈ x.value?, id ∈ scope.ids := by
  obtain ⟨text, -, hresolve⟩ := bind_eq_ok_iff.mp h
  intro id hid
  cases text with
  | value name =>
    obtain ⟨id', hid', rfl⟩ := map_eq_ok_iff.mp hresolve
    obtain rfl : id' = id := Option.some.inj hid
    exact Scope.mem_ids_of_resolve hid'
  | element tuple index =>
    obtain ⟨id', hid', rfl⟩ := map_eq_ok_iff.mp hresolve
    obtain rfl : id' = id := Option.some.inj hid
    exact Scope.mem_ids_of_resolve hid'
  | number bits =>
    cases hresolve
    cases hid

mutual

theorem TupleField.mem_ids_of_ofNest (nest : Nest) {field : TupleField}
    (h : TupleField.ofNest scope nest = .ok field) : ∀ id ∈ field.values, id ∈ scope.ids := by
  cases nest with
  | leaf text =>
    obtain ⟨x, hx, rfl⟩ := map_eq_ok_iff.mp h
    exact fun id hid => Operand.mem_ids_of_ofText hx id (Option.mem_toList.mp hid)
  | unclosed => cases h
  | overrun text => cases h
  | group nests =>
    obtain ⟨fields, hfields, rfl⟩ := map_eq_ok_iff.mp h
    exact TupleField.mem_ids_of_ofNests nests hfields

theorem TupleField.mem_ids_of_ofNests (nests : List Nest) {fields : List TupleField}
    (h : TupleField.ofNests scope nests = .ok fields) :
    ∀ id ∈ TupleField.valuesList fields, id ∈ scope.ids := by
  cases nests with
  | nil =>
    cases h
    exact fun id hid => absurd hid List.not_mem_nil
  | cons nest rest =>
    obtain ⟨field, hfield, h⟩ := bind_eq_ok_iff.mp h
    obtain ⟨fields', hfields, hcons⟩ := bind_eq_ok_iff.mp h
    cases hcons
    rw [TupleField.valuesList]
    exact List.forall_mem_append.mpr ⟨TupleField.mem_ids_of_ofNest nest hfield,
      TupleField.mem_ids_of_ofNests rest hfields⟩

end

/-- **An expression that is read** is an operand on its own, a tuple of fields or a call. -/
theorem Expr.parts_of_ofText {declared : ValueType} {e : Expr}
    (h : Expr.ofText scope declared s = .ok e) :
    (∃ text x, Operand.ofText scope text = .ok x ∧
      ((∃ source index, x = .tupleElement source index ∧ e = .tupleGet source index) ∨
        (∀ source index, x ≠ .tupleElement source index) ∧ e = .alias x)) ∨
    (∃ nests fields, TupleField.ofNests scope nests = .ok fields ∧ e = .tuple fields) ∨
    ∃ name parts op operands, (∀ x ∈ operands, ∃ text, Operand.ofText scope text = .ok x) ∧
      CallText.operation ⟨scope, operands, parts, declared⟩ name = .ok op ∧
      e = .call op operands := by
  rw [ofText] at h
  split at h
  · cases h
  · next c rest _ =>
    -- the first character tells operands from words, the word `tuple` tuples from calls
    split at h
    · obtain ⟨x, hx, h⟩ := bind_eq_ok_iff.mp h
      refine .inl ⟨c :: rest, x, hx, ?_⟩
      cases x with
      | tupleElement source index =>
        cases h
        exact .inl ⟨source, index, rfl, rfl⟩
      | value id =>
        cases h
        exact .inr ⟨by simp, rfl⟩
      | literal constant =>
        cases h
        exact .inr ⟨by simp, rfl⟩
    · dsimp only at h
      split at h
      · cases h
      · split at h
        · rw [readTuple] at h
          split at h
          · cases h
          · cases h
          · cases h
          · next nests _ =>
            obtain ⟨fields, hfields, rfl⟩ := map_eq_ok_iff.mp h
            exact .inr (.inl ⟨nests, fields, hfields, rfl⟩)
        · obtain ⟨parts, -, h⟩ := bind_eq_ok_iff.mp h
          obtain ⟨operands, hoperands, h⟩ := bind_eq_ok_iff.mp h
          obtain ⟨op, hop, h⟩ := bind_eq_ok_iff.mp h
          cases h
          refine .inr (.inr ⟨_, parts, op, operands, fun x hx => ?_, hop, rfl⟩)
          obtain ⟨text, -, htext⟩ :=
            forall₂_exists_of_mem (mapM_eq_ok_iff.mp hoperands).flip hx
          exact ⟨text, htext⟩

/-- **An expression** reads values in scope. -/
theorem Expr.mem_ids_of_ofText {declared : ValueType} {e : Expr}
    (h : Expr.ofText scope declared s = .ok e) : ∀ id ∈ e.values, id ∈ scope.ids := by
  rcases Expr.parts_of_ofText h with ⟨text, x, hx, ⟨source, index, rfl, rfl⟩ | ⟨-, rfl⟩⟩ |
    ⟨nests, fields, hfields, rfl⟩ | ⟨name, parts, op, operands, hoperands, -, rfl⟩
  · exact fun id hid =>
      Operand.mem_ids_of_ofText hx id (congrArg some (List.mem_singleton.mp hid).symm)
  · exact fun id hid => Operand.mem_ids_of_ofText hx id (Option.mem_toList.mp hid)
  · exact TupleField.mem_ids_of_ofNests nests hfields
  · intro id hid
    obtain ⟨x, hx, hvalue⟩ := List.mem_filterMap.mp hid
    obtain ⟨text, htext⟩ := hoperands x hx
    exact Operand.mem_ids_of_ofText htext id hvalue

mutual

theorem ReturnExpr.mem_ids_of_ofNest (nest : Nest) {ret : ReturnExpr}
    (h : ReturnExpr.ofNest scope nest = .ok ret) : ∀ id ∈ ret.values, id ∈ scope.ids := by
  cases nest with
  | leaf text =>
    obtain ⟨id, hid, rfl⟩ := map_eq_ok_iff.mp h
    intro id' hid'
    rw [List.mem_singleton.mp hid']
    exact Scope.mem_ids_of_resolve hid
  | unclosed => cases h
  | overrun text => cases h
  | group nests =>
    obtain ⟨elements, helements, rfl⟩ := map_eq_ok_iff.mp h
    exact ReturnExpr.mem_ids_of_ofNests nests helements

theorem ReturnExpr.mem_ids_of_ofNests (nests : List Nest) {elements : List ReturnExpr}
    (h : ReturnExpr.ofNests scope nests = .ok elements) :
    ∀ id ∈ ReturnExpr.valuesList elements, id ∈ scope.ids := by
  cases nests with
  | nil =>
    cases h
    exact fun id hid => absurd hid List.not_mem_nil
  | cons nest rest =>
    obtain ⟨element, helement, h⟩ := bind_eq_ok_iff.mp h
    obtain ⟨elements', helements, hcons⟩ := bind_eq_ok_iff.mp h
    cases hcons
    rw [ReturnExpr.valuesList]
    exact List.forall_mem_append.mpr ⟨ReturnExpr.mem_ids_of_ofNest nest helement,
      ReturnExpr.mem_ids_of_ofNests rest helements⟩

end

theorem mem_ids_of_readReturn {ret : ReturnExpr} (h : readReturn scope s = .ok ret) :
    ∀ id ∈ ret.values, id ∈ scope.ids := by
  rw [readReturn] at h
  split at h
  · cases h
  · exact ReturnExpr.mem_ids_of_ofNest _ h

/-- A cut at the last arrow drops the arrow. -/
theorem length_cutAtLastArrow {s before after : List Char}
    (h : cutAtLastArrow s = some (before, after)) : before.length + after.length < s.length := by
  fun_induction cutAtLastArrow s generalizing before after with
  | case1 cs before' after' hcut ih =>
    cases h
    have := ih hcut
    simp only [List.length_cons]
    omega
  | case2 cs hcut ih =>
    cases h
    simp
  | case3 c cs _ ih =>
    obtain ⟨⟨b, a⟩, hcut, he⟩ := Option.map_eq_some_iff.mp h
    cases he
    have := ih hcut
    simp only [List.length_cons]
    omega
  | case4 => cases h

/-- **A binding** that is read: its type and its expression are, in scope, and then its name is
defined. -/
theorem Binding.parts_of_ofText {b : Binding} (h : Binding.ofText scope s = .ok (b, scope')) :
    ∃ rhs declared, declared.length ≤ s.length ∧ ValueType.ofText declared = .ok b.ty ∧
      Expr.ofText scope b.ty rhs = .ok b.expr ∧
      scope.define b.name b.ty = .ok (b.id, scope') := by
  rw [Binding.ofText] at h
  split at h
  · cases h
  · next left right hequals =>
    dsimp only at h
    split at h
    · cases h
    · split at h
      · cases h
      · next rhs declared harrow =>
        obtain ⟨ty, hty, h⟩ := bind_eq_ok_iff.mp h
        obtain ⟨e, he, h⟩ := bind_eq_ok_iff.mp h
        obtain ⟨⟨id, scope''⟩, hdefine, h⟩ := bind_eq_ok_iff.mp h
        cases h
        have hright := length_cutAtFirst hequals
        have hdeclared := length_cutAtLastArrow harrow
        exact ⟨rhs, declared, by omega, hty, he, hdefine⟩

end Reads

/-! ## Definition in order -/

/-- **`Numbered`** -- values in order of definition, each under a name of its own. -/
structure Numbered (es : List ScopeEntry) : Prop where
  /-- Values are numbered from 0. -/
  ids : es.map ScopeEntry.id = (List.range es.length).map ValueId.mk
  /-- Every value has a name. -/
  named : ∀ name ∈ es.map ScopeEntry.name, name ≠ ""
  /-- Names are distinct. -/
  names_nodup : (es.map ScopeEntry.name).Nodup

namespace Numbered

variable {es : List ScopeEntry} {name : String} {ty : ValueType} {id : ValueId} {scope : Scope}

theorem nil : Numbered [] := ⟨rfl, by simp, List.nodup_nil⟩

theorem ids_nodup (h : Numbered es) : (es.map ScopeEntry.id).Nodup := by
  rw [h.ids]
  exact List.nodup_range.map fun _ _ he => ValueId.mk.inj he

/-- **A name that can be defined** is new and becomes the last. -/
theorem define (h : Numbered es) (hd : (Scope.ofEntries es).define name ty = .ok (id, scope)) :
    scope = .ofEntries (es ++ [⟨name, id, ty⟩]) ∧ Numbered (es ++ [⟨name, id, ty⟩]) := by
  obtain ⟨hne, hfind, -, -⟩ := Scope.define_eq_ok_iff.mp hd
  have hnew := Scope.find?_ofEntries_eq_none_iff.mp hfind
  rw [Scope.define_ofEntries hne hnew] at hd
  cases hd
  refine ⟨rfl, ?_, ?_, ?_⟩
  · rw [List.map_append, h.ids, List.length_append, List.length_singleton, List.range_succ,
      List.map_append]
    rfl
  · rw [List.map_append]
    exact List.forall_mem_append.mpr ⟨h.named, by simpa using hne⟩
  · rw [List.map_append]
    exact h.names_nodup.append (List.nodup_singleton _) (List.disjoint_singleton.mpr hnew)

/-- The last value differs from those before it. -/
theorem notMem_ids {e : ScopeEntry} (h : Numbered (es ++ [e])) : e.id ∉ es.map ScopeEntry.id := by
  have hn := h.ids_nodup
  rw [List.map_append] at hn
  exact fun hm => List.disjoint_of_nodup_append hn hm (List.mem_singleton_self _)

end Numbered

@[simp] theorem Scope.mem_ids_ofEntries {es : List ScopeEntry} {id : ValueId} :
    id ∈ (Scope.ofEntries es).ids ↔ id ∈ es.map ScopeEntry.id := by
  rw [ids, ofEntries, List.map_reverse, List.mem_reverse]

/-- **A parameter** is defined before the others, with the type that its text spells. -/
theorem exists_of_defineParams {scope scope' : Scope} {p : ParamText} {texts : List ParamText}
    {params : List Param} (h : defineParams scope (p :: texts) = .ok (params, scope')) :
    ∃ ty id mid rest, ValueType.ofText p.ty = .ok ty ∧ scope.define p.name ty = .ok (id, mid) ∧
      defineParams mid texts = .ok (rest, scope') ∧ params = ⟨id, p.name, ty⟩ :: rest := by
  obtain ⟨ty, hty, h⟩ := bind_eq_ok_iff.mp h
  obtain ⟨⟨id, mid⟩, hdefine, h⟩ := bind_eq_ok_iff.mp h
  obtain ⟨⟨rest, last⟩, hrest, h⟩ := bind_eq_ok_iff.mp h
  cases h
  exact ⟨ty, id, mid, rest, hty, hdefine, hrest, rfl⟩

/-- **Parameters** are defined in order. -/
theorem Numbered.defineParams {es : List ScopeEntry} {texts : List ParamText} {ps : List Param}
    {scope : Scope} (h : Numbered es)
    (hd : TensorGraph.defineParams (.ofEntries es) texts = .ok (ps, scope)) :
    scope = .ofEntries (es ++ ps.map Param.scopeEntry) ∧
      Numbered (es ++ ps.map Param.scopeEntry) := by
  -- `es` are the parameters in scope
  induction texts generalizing es ps with
  | nil =>
    cases hd
    rw [List.map_nil, List.append_nil]
    exact ⟨rfl, h⟩
  | cons p rest ih =>
    obtain ⟨ty, id, mid, ps', -, hdefine, hrest, rfl⟩ := exists_of_defineParams hd
    obtain ⟨rfl, hnext⟩ := h.define hdefine
    obtain ⟨hscope, hall⟩ := ih hnext hrest
    rw [List.append_assoc] at hscope hall
    exact ⟨hscope, hall⟩

/-! ## Steps of a body -/

/-- **`Progress`** -- what has been read of a body: the scope, and the regions in order. -/
structure Progress where
  /-- The names defined so far. -/
  scope : Scope
  /-- The regions, the last of which may be open. -/
  regions : List RegionDraft

namespace Progress

/-- The bindings read so far. -/
def bindings (p : Progress) : List Binding := p.regions.flatMap RegionDraft.bindings

/-- A binding in the last region is the last binding. -/
theorem bindings_bound (scope scope' : Scope) (done : List RegionDraft) (draft : RegionDraft)
    (b : Binding) :
    bindings ⟨scope', done ++ [{ draft with bindings := draft.bindings ++ [b] }]⟩ =
      bindings ⟨scope, done ++ [draft]⟩ ++ [b] := by
  simp [bindings]

/-- **`Step`** -- what the statements `sts` can do: open a region, declare the outputs of the last
one, or add a binding to it. -/
inductive Step (sts : List Statement) : Progress → Progress → Prop
  | opened (scope : Scope) (regions : List RegionDraft) :
    Step sts ⟨scope, regions⟩ ⟨scope, regions ++ [⟨[], none⟩]⟩
  | exposed {text : List Char} {scope : Scope} {outputs : List ValueId}
    (done : List RegionDraft) (bindings : List Binding) (hst : .exposing text ∈ sts)
    (houtputs : ∀ id ∈ outputs, id ∈ scope.ids) :
    Step sts ⟨scope, done ++ [⟨bindings, none⟩]⟩ ⟨scope, done ++ [⟨bindings, some outputs⟩]⟩
  | bound {text : List Char} {scope scope' : Scope} {b : Binding}
    (done : List RegionDraft) (draft : RegionDraft) (hst : .binding text ∈ sts)
    (hread : Binding.ofText scope text = .ok (b, scope')) :
    Step sts ⟨scope, done ++ [draft]⟩
      ⟨scope', done ++ [{ draft with bindings := draft.bindings ++ [b] }]⟩

/-- **`Steps`** -- what the statements can do one after the other. -/
def Steps (sts : List Statement) : Progress → Progress → Prop :=
  Relation.ReflTransGen (Step sts)

/-- What every step keeps holds in the end. -/
theorem Steps.invariant {sts : List Statement} {P : Progress → Prop} {p p' : Progress}
    (hsteps : Steps sts p p') (hstep : ∀ {p p'}, P p → Step sts p p' → P p') (hp : P p) :
    P p' := by
  induction hsteps with
  | refl => exact hp
  | tail _ hlast ih => exact hstep ih hlast

end Progress

/-- The region that is open, if any. -/
def OpenRegion.drafts : OpenRegion → List RegionDraft
  | .none => []
  | .braced draft => [draft]
  | .implicit draft => [draft]

/-- How far the reading of a body has come. -/
def BodyState.progress (b : BodyState) : Progress := ⟨b.scope, b.closed ++ b.current.drafts⟩

/-- Between regions all of them are closed. -/
theorem BodyState.progress_none (scope : Scope) (closed : List RegionDraft)
    (ret : Option ReturnExpr) : progress ⟨scope, closed, .none, ret⟩ = ⟨scope, closed⟩ :=
  congrArg (Progress.mk scope) (List.append_nil closed)

namespace BodyState

variable {b b' : BodyState} {sts : List Statement} {st : Statement}

/-- **A statement within a region** acts on a draft, which may just have been opened, and the
draft it makes is the last. -/
theorem parts_of_inRegion {step : Scope → RegionDraft → Except TextError (RegionDraft × Scope)}
    (h : b.inRegion step = .ok b') :
    ∃ draft draft' scope', step b.scope draft = .ok (draft', scope') ∧ b'.ret = b.ret ∧
      b'.progress = ⟨scope', b.closed ++ [draft']⟩ ∧
      (b.progress = ⟨b.scope, b.closed ++ [draft]⟩ ∨
        b.progress = ⟨b.scope, b.closed⟩ ∧ draft = ⟨[], none⟩) := by
  obtain ⟨scope, closed, current, ret⟩ := b
  rw [inRegion] at h
  cases current with
  | braced draft =>
    obtain ⟨⟨draft', scope'⟩, hread, h⟩ := bind_eq_ok_iff.mp h
    cases h
    exact ⟨draft, draft', scope', hread, rfl, rfl, .inl rfl⟩
  | «implicit» draft =>
    obtain ⟨⟨draft', scope'⟩, hread, h⟩ := bind_eq_ok_iff.mp h
    cases h
    exact ⟨draft, draft', scope', hread, rfl, rfl, .inl rfl⟩
  | none =>
    simp only at h
    split at h
    · obtain ⟨⟨draft', scope'⟩, hread, h⟩ := bind_eq_ok_iff.mp h
      cases h
      exact ⟨_, draft', scope', hread, rfl, rfl, .inr ⟨progress_none scope closed ret, rfl⟩⟩
    · cases h

/-- **A statement within a region** takes a step, after one that opens the region if need be. -/
theorem steps_of_inRegion {step : Scope → RegionDraft → Except TextError (RegionDraft × Scope)}
    (h : b.inRegion step = .ok b')
    (hstep : ∀ done draft draft' scope', step b.scope draft = .ok (draft', scope') →
      Progress.Step sts ⟨b.scope, done ++ [draft]⟩ ⟨scope', done ++ [draft']⟩) :
    b'.ret = b.ret ∧ Progress.Steps sts b.progress b'.progress := by
  obtain ⟨draft, draft', scope', hread, hret, hafter, hbefore⟩ := parts_of_inRegion h
  have hlast := hstep b.closed draft draft' scope' hread
  refine ⟨hret, ?_⟩
  rw [hafter]
  rcases hbefore with hopen | ⟨hclosed, rfl⟩
  · rw [hopen]
    exact .single hlast
  · rw [hclosed]
    exact .tail (.single (.opened b.scope b.closed)) hlast

theorem step_exposing {text : List Char} {scope scope' : Scope} {draft draft' : RegionDraft}
    (hst : .exposing text ∈ sts) (h : exposing text scope draft = .ok (draft', scope'))
    (done : List RegionDraft) :
    Progress.Step sts ⟨scope, done ++ [draft]⟩ ⟨scope', done ++ [draft']⟩ := by
  obtain ⟨bindings, outputs⟩ := draft
  rw [exposing] at h
  cases outputs with
  | some outputs => cases h
  | none =>
    obtain ⟨outputs, houtputs, h⟩ := bind_eq_ok_iff.mp h
    cases h
    refine .exposed done bindings hst fun id hid => ?_
    obtain ⟨item, -, hitem⟩ := forall₂_exists_of_mem (mapM_eq_ok_iff.mp houtputs).flip hid
    exact Scope.mem_ids_of_resolve hitem

theorem step_binding {text : List Char} {scope scope' : Scope} {draft draft' : RegionDraft}
    (hst : .binding text ∈ sts) (h : binding text scope draft = .ok (draft', scope'))
    (done : List RegionDraft) :
    Progress.Step sts ⟨scope, done ++ [draft]⟩ ⟨scope', done ++ [draft']⟩ := by
  obtain ⟨⟨b, scope''⟩, hread, h⟩ := bind_eq_ok_iff.mp h
  cases h
  exact .bound done draft hst hread

/-- What is returned, if anything yet, is in scope. -/
def Returns (b : BodyState) : Prop :=
  ∀ ret, b.ret = some ret → ∀ id ∈ ret.values, id ∈ b.scope.ids

/-- **A statement** takes the reading of a body some steps further. -/
theorem steps_of_step (hst : st ∈ sts) (h : b.step st = .ok b') :
    b'.Returns ∧ Progress.Steps sts b.progress b'.progress := by
  unfold step at h
  split at h
  · cases h
  · next hnone =>
    have hret : b.ret = none := by simpa using hnone
    have unread : b'.ret = b.ret → b'.Returns := fun he ret hsome => by simp [he, hret] at hsome
    cases st with
    | openRegion =>
      obtain ⟨scope, closed, current, ret⟩ := b
      cases current with
      | none =>
        cases h
        rw [progress_none]
        exact ⟨unread rfl, .single (.opened scope closed)⟩
      | braced draft => cases h
      | «implicit» draft => cases h
    | closeRegion =>
      obtain ⟨scope, closed, current, ret⟩ := b
      cases current with
      | none => cases h
      | braced draft =>
        cases h
        rw [progress_none]
        exact ⟨unread rfl, .refl⟩
      | «implicit» draft => cases h
    | returning text =>
      have hread : (readReturn b.scope text).map (fun ret => { b with ret := some ret }) =
          .ok b' := by
        have h' : b.returning text = .ok b' := h
        rw [returning] at h'
        split at h'
        · cases h'
        · exact h'
      obtain ⟨ret, hret', rfl⟩ := map_eq_ok_iff.mp hread
      refine ⟨fun ret' he => ?_, .refl⟩
      cases he
      exact mem_ids_of_readReturn hret'
    | exposing text =>
      have hsteps := steps_of_inRegion h fun done draft draft' scope' hd =>
        step_exposing hst hd done
      exact ⟨unread hsteps.1, hsteps.2⟩
    | binding text =>
      have hsteps := steps_of_inRegion h fun done draft draft' scope' hd => step_binding hst hd done
      exact ⟨unread hsteps.1, hsteps.2⟩

/-- **Statements** take the reading of a body further, one after the other. -/
theorem steps_of_foldlM {l : List Statement} (hl : ∀ st ∈ l, st ∈ sts) (hret : b.Returns)
    (h : l.foldlM step b = .ok b') : b'.Returns ∧ Progress.Steps sts b.progress b'.progress := by
  induction l generalizing b with
  | nil =>
    cases h
    exact ⟨hret, .refl⟩
  | cons st l ih =>
    rw [List.forall_mem_cons] at hl
    obtain ⟨b₁, hstep, hrest⟩ := foldlM_cons_eq_ok_iff.mp h
    obtain ⟨hret₁, hsteps₁⟩ := steps_of_step hl.1 hstep
    obtain ⟨hret', hsteps⟩ := ih hl.2 hret₁ hrest
    exact ⟨hret', hsteps₁.trans hsteps⟩

end BodyState

/-- **A body** is read in steps; in the end there is a region, and every region is completed. -/
theorem ParsedBody.steps_of_ofText {scope : Scope} {body : List Char} {p : ParsedBody}
    (h : ParsedBody.ofText scope body = .ok p) :
    ∃ regions, Progress.Steps (statements body) ⟨scope, []⟩ ⟨p.scope, regions⟩ ∧ regions ≠ [] ∧
      p.regions = regions.map (RegionDraft.complete p.ret) ∧
      ∀ id ∈ p.ret.values, id ∈ p.scope.ids := by
  obtain ⟨b, hfold, h⟩ := bind_eq_ok_iff.mp h
  obtain ⟨hret, hsteps⟩ := BodyState.steps_of_foldlM
    (fun st (hst : st ∈ statements body) => hst) (by simp [BodyState.Returns]) hfold
  obtain ⟨bscope, closed, current, ret⟩ := b
  rw [BodyState.progress_none] at hsteps
  cases ret with
  | none => cases current <;> cases h
  | some ret =>
    have hreturns := hret ret rfl
    cases current with
    | braced draft => cases h
    | «implicit» draft =>
      cases h
      exact ⟨closed ++ [draft], hsteps, by simp, rfl, hreturns⟩
    | none =>
      cases h
      rw [BodyState.progress_none] at hsteps
      cases closed with
      | nil => exact ⟨[⟨[], none⟩], hsteps.tail (.opened bscope []), by simp, rfl, hreturns⟩
      | cons draft rest => exact ⟨draft :: rest, hsteps, by simp, rfl, hreturns⟩

/-! ## What the regions define -/

namespace Progress

variable {sts : List Statement} {ps : List Param} {p p' : Progress}

/-- **`InOrder`** -- the scope holds the parameters and the values that the regions define, in
order, and every binding reads what is defined before it. -/
structure InOrder (ps : List Param) (p : Progress) : Prop where
  /-- The scope. -/
  scope : p.scope = .ofEntries (ps.map Param.scopeEntry ++ p.bindings.map Binding.scopeEntry)
  /-- Numbers and names. -/
  numbered : Numbered (ps.map Param.scopeEntry ++ p.bindings.map Binding.scopeEntry)
  /-- Definition before use. -/
  sequenced : FunctionIndex.Sequenced (ps.map Param.id) p.bindings

theorem ids_scopeEntries (ps : List Param) (bs : List Binding) :
    (ps.map Param.scopeEntry ++ bs.map Binding.scopeEntry).map ScopeEntry.id =
      ps.map Param.id ++ bs.map Binding.id := by
  rw [List.map_append, List.map_map, List.map_map]
  rfl

theorem InOrder.mem_ids_iff (h : p.InOrder ps) {id : ValueId} :
    id ∈ p.scope.ids ↔ id ∈ ps.map Param.id ++ p.bindings.map Binding.id := by
  rw [h.scope, Scope.mem_ids_ofEntries, ids_scopeEntries]

/-- What a step leaves of the bindings and of the scope leaves them in order. -/
theorem InOrder.of_eq (h : p.InOrder ps) (hscope : p'.scope = p.scope)
    (hbindings : p'.bindings = p.bindings) : p'.InOrder ps :=
  ⟨by rw [hscope, hbindings, h.scope], hbindings ▸ h.numbered, hbindings ▸ h.sequenced⟩

/-- **A step** keeps the order of definition. -/
theorem InOrder.step (h : p.InOrder ps) (hstep : Step sts p p') : p'.InOrder ps := by
  cases hstep with
  | opened scope regions => exact h.of_eq rfl (by simp [bindings])
  | exposed done bindings _ _ => exact h.of_eq rfl (by simp [Progress.bindings])
  | @bound text scope scope' b done draft _ hread =>
    obtain ⟨rhs, declared, -, -, hexpr, hdefine⟩ := Binding.parts_of_ofText hread
    have hbindings := bindings_bound scope scope' done draft b
    have hreads : ∀ id ∈ b.expr.values, _ := fun id hid =>
      h.mem_ids_iff.mp (Expr.mem_ids_of_ofText hexpr id hid)
    have hscope : scope = _ := h.scope
    rw [hscope] at hdefine
    obtain ⟨hscope', hnumbered⟩ := h.numbered.define hdefine
    have hnew := hnumbered.notMem_ids
    rw [ids_scopeEntries] at hnew
    rw [List.append_assoc] at hscope' hnumbered
    refine ⟨?_, ?_, ?_⟩
    · rw [hbindings, List.map_append]
      exact hscope'
    · rw [hbindings, List.map_append]
      exact hnumbered
    · rw [hbindings]
      exact h.sequenced.concat hreads hnew

theorem InOrder.steps (h : p.InOrder ps) (hsteps : Steps sts p p') : p'.InOrder ps :=
  hsteps.invariant InOrder.step h

/-- **Without a declaration** among the statements no region declares its outputs. -/
theorem outputs_eq_none (hno : ∀ text, .exposing text ∉ sts)
    (hp : ∀ r ∈ p.regions, r.outputs = none) (hsteps : Steps sts p p') :
    ∀ r ∈ p'.regions, r.outputs = none := by
  refine hsteps.invariant (P := fun p => ∀ r ∈ p.regions, r.outputs = none)
    (fun h hstep => ?_) hp
  cases hstep with
  | opened scope regions => exact List.forall_mem_append.mpr ⟨h, by simp⟩
  | exposed done bindings hst _ => exact absurd hst (hno _)
  | bound done draft _ _ =>
    obtain ⟨hdone, hdraft⟩ := List.forall_mem_append.mp h
    refine List.forall_mem_append.mpr ⟨hdone, fun r hr => ?_⟩
    rw [List.mem_singleton.mp hr]
    exact hdraft draft (List.mem_singleton_self draft)

end Progress

/-! ## Headers -/

/-- **A parameter** that is read: its name and its type stand around a colon. -/
theorem ParamText.parts_of_ofText {s : List Char} {p : ParamText} (h : ParamText.ofText s = .ok p) :
    ∃ name ty, cutAtFirst ':' s = some (name, ty) ∧ p = ⟨valueName name, trim ty⟩ := by
  unfold ofText at h
  split at h
  · cases h
  · next name ty hcolon =>
    split at h
    · cases h
    · split at h
      · cases h
      · cases h
        exact ⟨name, ty, hcolon, rfl⟩

/-- **A header** that is read: a keyword, a name, parameters between parentheses, an arrow and a
type. -/
theorem Header.parts_of_ofText {s : List Char} {header : Header}
    (h : Header.ofText s = .ok header) :
    ∃ word name behind inside rest params result, afterKeyword? (trim s) = some word ∧
      cutAtFirst '(' word = some (name, behind) ∧
      closing? '(' ')' 0 behind = some (inside, rest) ∧
      List.Forall₂ (fun item p => ParamText.ofText item = .ok p) (items (trim inside)) params ∧
      after? "->" (trim rest) = some result ∧ header = ⟨functionName name, params, result⟩ := by
  unfold ofText at h
  split at h
  · cases h
  · next word hkeyword =>
    split at h
    · cases h
    · next name behind hopen =>
      split at h
      · cases h
      · next inside rest hclose =>
        split at h
        · cases h
        · obtain ⟨params, hparams, h⟩ := bind_eq_ok_iff.mp h
          split at h
          · cases h
          · next result hresult =>
            cases h
            exact ⟨word, name, behind, inside, rest, params, result, hkeyword, hopen, hclose,
              mapM_eq_ok_iff.mp hparams, hresult, rfl⟩

/-! ## Functions -/

/-- **A function** that is read: its header, its parameters, its body and its result. -/
theorem ParsedFunction.parts_of_ofText {t : FunctionText} {pf : ParsedFunction}
    (h : ParsedFunction.ofText t = .ok pf) :
    ∃ header ty params scope body, Header.ofText t.header = .ok header ∧
      ValueType.ofText header.result = .ok ty ∧
      defineParams .empty header.params = .ok (params, scope) ∧
      ParsedBody.ofText scope t.body = .ok body ∧
      (⟨header.name, params, body.regions, body.ret⟩ : Function).returnType? = some ty ∧
      pf = ⟨⟨header.name, params, body.regions, body.ret⟩,
        (body.scope.entries.map fun e => (e.name, e.id)).reverse⟩ := by
  obtain ⟨header, hheader, h⟩ := bind_eq_ok_iff.mp h
  obtain ⟨⟨params, scope⟩, hparams, h⟩ := bind_eq_ok_iff.mp (mapError_eq_ok_iff.mp h)
  obtain ⟨body, hbody, h⟩ := bind_eq_ok_iff.mp h
  obtain ⟨ty, hty, h⟩ := bind_eq_ok_iff.mp h
  split at h
  · next hreturn =>
    cases h
    exact ⟨header, ty, params, scope, body, hheader, hty, hparams, hbody, hreturn, rfl⟩
  · cases h

/-- **`Assigns`** -- what holds of a function that was read of a text. -/
structure FunctionText.Assigns (t : FunctionText) (f : Function) : Prop where
  /-- Values are numbered in order of definition, parameters first. -/
  numbered : f.paramIds ++ f.bindings.map Binding.id =
    (List.range (f.params.length + f.bindings.length)).map ValueId.mk
  /-- Every value has a name. -/
  named : ∀ name ∈ f.valueNames, name ≠ ""
  /-- Names are distinct. -/
  names_nodup : f.valueNames.Nodup
  /-- Every use follows its definition. -/
  indexed : ∃ ix, FunctionIndex.ofFunction f = .ok ix
  /-- The result has the type that the header declares. -/
  declared : ∃ header ty, Header.ofText t.header = .ok header ∧
    ValueType.ofText header.result = .ok ty ∧ f.returnType? = some ty
  /-- The verifier objects to types and to what is exposed only. -/
  faults : FailsWith (fun e => e.IsTyping ∨ e.IsExposure) f.verify
  /-- Without a line that declares outputs, it objects to types only. -/
  undeclared : (∀ text, .exposing text ∉ statements t.body) →
    FailsWith VerifyError.IsTyping f.verify

section Functions

variable {t : FunctionText} {texts : List ParamText} {params : List Param} {scope : Scope}
  {body : ParsedBody} {regions : List RegionDraft} {pf : ParsedFunction}

/-- Completion changes no binding. -/
theorem RegionDraft.bindings_complete (ret : ReturnExpr) (regions : List RegionDraft) :
    (regions.map (RegionDraft.complete ret)).flatMap Region.bindings =
      regions.flatMap RegionDraft.bindings := List.flatMap_map ..

/-- With the parameters alone in scope, everything is in order. -/
theorem Progress.InOrder.of_defineParams
    (hparams : defineParams .empty texts = .ok (params, scope)) : InOrder params ⟨scope, []⟩ := by
  obtain ⟨hscope, hnumbered⟩ := Numbered.nil.defineParams hparams
  rw [List.nil_append] at hscope hnumbered
  refine ⟨?_, ?_, trivial⟩
  · rw [hscope, bindings, List.flatMap_nil, List.map_nil, List.append_nil]
  · rwa [bindings, List.flatMap_nil, List.map_nil, List.append_nil]

/-- **The body of a function** leaves every value of the function in scope, in order. -/
theorem ParsedBody.inOrder_of_ofText (hparams : defineParams .empty texts = .ok (params, scope))
    (hbody : ParsedBody.ofText scope t.body = .ok body) :
    ∃ regions, Progress.Steps (statements t.body) ⟨scope, []⟩ ⟨body.scope, regions⟩ ∧
      regions ≠ [] ∧ body.regions = regions.map (RegionDraft.complete body.ret) ∧
      Progress.InOrder params ⟨body.scope, regions⟩ ∧
      ∀ id ∈ body.ret.values, id ∈ params.map Param.id ++ body.regions.flatMap fun r =>
        r.bindings.map Binding.id := by
  obtain ⟨regions, hsteps, hne, hregions, hreturns⟩ := ParsedBody.steps_of_ofText hbody
  have hend := (Progress.InOrder.of_defineParams hparams).steps hsteps
  refine ⟨regions, hsteps, hne, hregions, hend, fun id hid => ?_⟩
  rw [← List.map_flatMap, hregions, RegionDraft.bindings_complete]
  exact hend.mem_ids_iff.mp (hreturns id hid)

/-- What the regions have defined in order is in single-assignment form. -/
theorem Progress.InOrder.singleAssignment (h : Progress.InOrder params ⟨scope, regions⟩)
    (name : String) (ret : ReturnExpr) :
    (⟨name, params, regions.map (RegionDraft.complete ret), ret⟩ : Function).SingleAssignment := by
  have hbindings := RegionDraft.bindings_complete ret regions
  have hids := h.numbered.ids_nodup
  rw [Progress.ids_scopeEntries] at hids
  refine ⟨(List.nodup_append.mp hids).1, ?_, ?_⟩
  · rw [Function.bindings, hbindings]
    exact h.sequenced
  · rw [← Function.names_entries, Function.entries, Function.bindings, hbindings]
    exact h.numbered.names_nodup

/-- **Regions without declared outputs** expose their own bindings, and all that is returned. -/
theorem exposes_of_undeclared (name : String) {ret : ReturnExpr}
    (hnone : ∀ r ∈ regions, r.outputs = none)
    (hreturns : ∀ id ∈ ret.values, id ∈ params.map Param.id ++
      (regions.map (RegionDraft.complete ret)).flatMap fun r => r.bindings.map Binding.id) :
    (∀ r ∈ regions.map (RegionDraft.complete ret), ∀ id ∈ r.outputs,
      id ∈ params.map Param.id ∨ id ∈ r.bindings.map Binding.id) ∧
    ∀ id ∈ ret.values,
      id ∈ (⟨name, params, regions.map (RegionDraft.complete ret), ret⟩ : Function).exposed := by
  have houtputs : ∀ r ∈ regions.map (RegionDraft.complete ret), ∀ id,
      id ∈ r.outputs ↔ id ∈ ret.values ∧ id ∈ r.bindings.map Binding.id := by
    intro r hr id
    obtain ⟨draft, hdraft, rfl⟩ := List.mem_map.mp hr
    rw [RegionDraft.complete, hnone draft hdraft]
    exact mem_defaultOutputs_iff
  constructor
  · exact fun r hr id hid => .inr ((houtputs r hr id).mp hid).2
  · intro id hid
    rcases List.mem_append.mp (hreturns id hid) with hp | hb
    · exact List.mem_append_left _ hp
    · obtain ⟨r, hr, hb⟩ := List.mem_flatMap.mp hb
      exact List.mem_append_right _
        (List.mem_flatMap.mpr ⟨r, hr, (houtputs r hr id).mpr ⟨hid, hb⟩⟩)

/-- **A function that is read** is in single-assignment form, and its symbols are its names. -/
theorem ParsedFunction.assigns_of_ofText (h : ParsedFunction.ofText t = .ok pf) :
    t.Assigns pf.function ∧ pf.symbols = pf.function.symbols := by
  obtain ⟨header, ty, params, scope, body, hheader, hty, hparams, hbody, hreturn, rfl⟩ :=
    ParsedFunction.parts_of_ofText h
  obtain ⟨regions, hsteps, -, hregions, horder, hreturns⟩ :=
    ParsedBody.inOrder_of_ofText hparams hbody
  obtain ⟨bregions, ret, bscope⟩ := body
  dsimp only at hregions
  subst hregions
  have hassign := horder.singleAssignment header.name ret
  have hbindings := RegionDraft.bindings_complete ret regions
  have hentries : Function.entries
      ⟨header.name, params, regions.map (RegionDraft.complete ret), ret⟩ =
      params.map Param.scopeEntry ++ (regions.flatMap RegionDraft.bindings).map
        Binding.scopeEntry := by
    rw [Function.entries, Function.bindings, hbindings]
  have hnumbered : Numbered (Function.entries
      ⟨header.name, params, regions.map (RegionDraft.complete ret), ret⟩) :=
    hentries ▸ horder.numbered
  have hscope : bscope = Scope.ofEntries (Function.entries _) := horder.scope.trans
    (congrArg Scope.ofEntries hentries.symm)
  refine ⟨⟨?_, ?_, hassign.names_nodup, hassign.exists_index, ⟨header, ty, hheader, hty, hreturn⟩,
    hassign.failsWith_verify, fun hno => ?_⟩, ?_⟩
  · have hids := hnumbered.ids
    rw [Function.entries, Progress.ids_scopeEntries, List.length_append, List.length_map,
      List.length_map] at hids
    exact hids
  · rw [← Function.names_entries]
    exact hnumbered.named
  · have hnone := Progress.outputs_eq_none hno (by simp) hsteps
    obtain ⟨houtputs, hexposed⟩ := exposes_of_undeclared header.name hnone hreturns
    exact hassign.failsWith_typing houtputs hexposed
  · rw [hscope, Function.symbols]
    show ((Function.entries _).reverse.map _).reverse = _
    rw [List.map_reverse, List.reverse_reverse]

end Functions

/-! ## Modules -/

/-- The module of the given functions, with their symbols. -/
def ParsedModule.ofFunctions (pfs : List ParsedFunction) : ParsedModule :=
  ⟨⟨currentVersion, pfs.map ParsedFunction.function⟩,
    pfs.map fun pf => (pf.function.name, pf.symbols)⟩

theorem ParsedModule.names_ofFunctions (pfs : List ParsedFunction) :
    (ofFunctions pfs).module.names = pfs.map fun pf => pf.function.name := List.map_map ..

/-- **A function is added** last, under a name that is new. -/
theorem ParsedModule.parts_of_add {before : List ParsedFunction} {t : FunctionText}
    {m : ParsedModule} (h : add (ofFunctions before) t = .ok m) :
    ∃ pf, ParsedFunction.ofText t = .ok pf ∧
      pf.function.name ∉ (ofFunctions before).module.names ∧
      m = ofFunctions (before ++ [pf]) := by
  obtain ⟨pf, hpf, h⟩ := bind_eq_ok_iff.mp h
  split at h
  · cases h
  · next hcontains =>
    have hnew : pf.function.name ∉ (ofFunctions before).module.names :=
      fun hm => hcontains (Module.contains_eq_true_iff.mpr hm)
    have hinsert : (ofFunctions before).module.insert pf.function =
        (ofFunctions (before ++ [pf])).module := by
      rw [Module.insert, Module.place_of_notMem hnew, ofFunctions, ofFunctions, List.map_append]
      rfl
    refine ⟨pf, hpf, hnew, ?_⟩
    have hsymbols : (ofFunctions before).symbols ++ [(pf.function.name, pf.symbols)] =
        (ofFunctions (before ++ [pf])).symbols := by
      simp [ofFunctions]
    rw [← Except.ok.inj h, hinsert, hsymbols]

theorem ParsedModule.parts_of_foldlM {texts : List FunctionText} {before : List ParsedFunction}
    {m : ParsedModule} (hn : (ofFunctions before).module.names.Nodup)
    (h : texts.foldlM add (ofFunctions before) = .ok m) :
    ∃ pfs, List.Forall₂ (fun t pf => ParsedFunction.ofText t = .ok pf) texts pfs ∧
      m = ofFunctions (before ++ pfs) ∧ m.module.names.Nodup := by
  -- `before` are the functions that have been added
  induction texts generalizing before with
  | nil =>
    cases h
    exact ⟨[], .nil, by rw [List.append_nil], hn⟩
  | cons t texts ih =>
    obtain ⟨m₁, hadd, hrest⟩ := foldlM_cons_eq_ok_iff.mp h
    obtain ⟨pf, hpf, hnew, rfl⟩ := parts_of_add hadd
    have hn' : (ofFunctions (before ++ [pf])).module.names.Nodup := by
      rw [names_ofFunctions] at hn hnew ⊢
      rw [List.map_append]
      exact hn.append (List.nodup_singleton _) (List.disjoint_singleton.mpr hnew)
    obtain ⟨pfs, hpfs, hm, hnodup⟩ := ih hn' hrest
    rw [List.append_assoc] at hm
    exact ⟨pf :: pfs, .cons hpf hpfs, hm, hnodup⟩

/-- **A module** that is read: its functions one after the other, each under a new name. -/
theorem ParsedModule.parts_of_ofText {s : List Char} {m : ParsedModule}
    (h : ParsedModule.ofText s = .ok m) :
    ∃ texts pfs, texts ≠ [] ∧ functionTexts s = .ok texts ∧
      List.Forall₂ (fun t pf => ParsedFunction.ofText t = .ok pf) texts pfs ∧
      m = ofFunctions pfs ∧ m.module.names.Nodup := by
  obtain ⟨texts, htexts, h⟩ := bind_eq_ok_iff.mp h
  cases texts with
  | nil => cases h
  | cons t texts =>
    have hnil : (ofFunctions []).module.names.Nodup := List.nodup_nil
    obtain ⟨pfs, hpfs, hm, hn⟩ := parts_of_foldlM hnil h
    exact ⟨t :: texts, pfs, List.cons_ne_nil t texts, htexts, hpfs, hm, hn⟩

end TensorGraph
