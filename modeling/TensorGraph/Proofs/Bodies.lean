/-
# TensorGraph.Proofs.Bodies -- bodies of functions are read back

A body is read line by line into a scope. The scope holds the values of the function that have
been read so far, in order of definition, so that the next binding receives the number it has
(`Binding.ofText_eq`). From one binding the reading of a region follows by induction on its
bindings, and from one region that of all regions. None of this asks for the verifier
(`Function.Readable`); but a region that shows no outputs exposes none only if nothing of it is
returned, as in a well-formed function.
-/
import Mathlib.Data.List.Pairwise
import TensorGraph.Proofs.Clauses
import TensorGraph.Proofs.WellFormed

namespace TensorGraph

open scoped CoreInstances

/-! ## Values read so far -/

/-- An element is found by a key that no other element has. -/
theorem find?_of_nodup {α β : Type} [BEq β] [LawfulBEq β] {key : α → β} {l : List α}
    (hn : (l.map key).Nodup) {x : α} (hx : x ∈ l) :
    l.find? (fun y => key y == key x) = some x := by
  have hsome : (l.find? fun y => key y == key x).isSome :=
    List.find?_isSome.mpr ⟨x, hx, beq_self_eq_true _⟩
  obtain ⟨y, hy⟩ := Option.isSome_iff_exists.mp hsome
  have hkey : key y = key x := by simpa using List.find?_some hy
  rw [hy, List.inj_on_of_nodup_map hn (List.mem_of_find?_eq_some hy) hx hkey]

/-- What a scope knows of a parameter. -/
def Param.scopeEntry (p : Param) : ScopeEntry := ⟨p.name, p.id, p.ty⟩

/-- What a scope knows of a binding. -/
def Binding.scopeEntry (b : Binding) : ScopeEntry := ⟨b.name, b.id, b.ty⟩

/-- The values of a function in order of definition. -/
def Function.entries (f : Function) : List ScopeEntry :=
  f.params.map Param.scopeEntry ++ f.bindings.map Binding.scopeEntry

namespace Scope

/-- The scope that holds the given values, the last one on top. -/
def ofEntries (es : List ScopeEntry) : Scope := ⟨es.reverse⟩

/-- **A name that can be defined** is not empty and not in scope, and gets the next number. -/
theorem define_eq_ok_iff {scope scope' : Scope} {name : String} {ty : ValueType} {id : ValueId} :
    scope.define name ty = .ok (id, scope') ↔ name ≠ "" ∧ scope.find? name = none ∧
      id = scope.nextId ∧ scope' = ⟨⟨name, scope.nextId, ty⟩ :: scope.entries⟩ := by
  rw [define]
  by_cases hne : name = ""
  · simp [hne]
  · rw [if_neg hne]
    cases scope.find? name with
    | some found => simp
    | none => simp [hne, eq_comm]

theorem find?_ofEntries_eq_none_iff {es : List ScopeEntry} {name : String} :
    (ofEntries es).find? name = none ↔ name ∉ es.map ScopeEntry.name := by
  rw [find?, ofEntries, Option.map_eq_none_iff, List.find?_eq_none]
  constructor
  · intro h hm
    obtain ⟨e, he, rfl⟩ := List.mem_map.mp hm
    exact h e (List.mem_reverse.mpr he) (beq_self_eq_true _)
  · intro h e he hname
    exact h (List.mem_map.mpr ⟨e, List.mem_reverse.mp he, beq_iff_eq.mp hname⟩)

theorem nextId_ofEntries (es : List ScopeEntry) : (ofEntries es).nextId = ⟨es.length⟩ := by
  simp [nextId, ofEntries]

/-- **A new name** gets the next number. -/
theorem define_ofEntries {es : List ScopeEntry} {name : String} (hne : name ≠ "")
    (hnew : name ∉ es.map ScopeEntry.name) (ty : ValueType) :
    (ofEntries es).define name ty =
      .ok (⟨es.length⟩, ofEntries (es ++ [⟨name, ⟨es.length⟩, ty⟩])) := by
  refine define_eq_ok_iff.mpr ⟨hne, find?_ofEntries_eq_none_iff.mpr hnew, ?_, ?_⟩
  · rw [nextId_ofEntries]
  · rw [nextId_ofEntries]
    simp [ofEntries]

/-- A name that is defined once is resolved to its value. -/
theorem resolve_ofEntries {es : List ScopeEntry} (hn : (es.map ScopeEntry.name).Nodup)
    {e : ScopeEntry} (he : e ∈ es) : (ofEntries es).resolve e.name = .ok e.id := by
  have hn' : (es.reverse.map ScopeEntry.name).Nodup := by
    rw [List.map_reverse]
    exact List.nodup_reverse.mpr hn
  rw [resolve, find?, ofEntries, find?_of_nodup hn' (List.mem_reverse.mpr he), Option.map_some]

end Scope

/-- The name of a value is that of its entry. -/
theorem Function.nameOf?_of_mem {f : Function} (hn : (f.entries.map ScopeEntry.id).Nodup)
    {e : ScopeEntry} (he : e ∈ f.entries) : f.nameOf? e.id = some e.name := by
  have hfind : f.nameOf? e.id = (f.entries.find? fun e' => e'.id == e.id).map ScopeEntry.name := by
    rw [entries, List.find?_append, List.find?_map, List.find?_map, Option.map_or, Option.map_map,
      Option.map_map]
    rfl
  rw [hfind, find?_of_nodup hn he, Option.map_some]

/-! ## Printable functions -/

/-- **`Printable`** -- a verified function whose text form can be read: its values are numbered in
order of definition, its names are words, and its expressions and types can be read. -/
structure Function.Printable (f : Function) : Prop where
  /-- The verifier accepts it. -/
  verified : f.verify = .ok ()
  /-- There is a region. -/
  regions_ne_nil : f.regions ≠ []
  /-- Values are numbered in order of definition. -/
  numbered : f.paramIds ++ f.bindings.map Binding.id =
    (List.range (f.params.length + f.bindings.length)).map ValueId.mk
  /-- Its name is a word. -/
  name : IsWord f.name
  /-- The names of its values are words. -/
  valueNames : ∀ name ∈ f.valueNames, IsWord name
  /-- Its expressions can be read. -/
  exprs : ∀ b ∈ f.bindings, b.expr.Printable
  /-- The types of its parameters can be read. -/
  params : ∀ p ∈ f.params, p.ty.Bounded
  /-- The types of its bindings can be read. -/
  bindings : ∀ b ∈ f.bindings, b.ty.Bounded

instance : DecidablePred Function.Printable := fun f =>
  decidable_of_iff (f.verify = .ok () ∧ f.regions ≠ [] ∧
      (f.paramIds ++ f.bindings.map Binding.id =
        (List.range (f.params.length + f.bindings.length)).map ValueId.mk) ∧ IsWord f.name ∧
      (∀ name ∈ f.valueNames, IsWord name) ∧ (∀ b ∈ f.bindings, b.expr.Printable) ∧
      (∀ p ∈ f.params, p.ty.Bounded) ∧ ∀ b ∈ f.bindings, b.ty.Bounded)
    ⟨fun ⟨h₁, h₂, h₃, h₄, h₅, h₆, h₇, h₈⟩ => ⟨h₁, h₂, h₃, h₄, h₅, h₆, h₇, h₈⟩,
      fun ⟨h₁, h₂, h₃, h₄, h₅, h₆, h₇, h₈⟩ => ⟨h₁, h₂, h₃, h₄, h₅, h₆, h₇, h₈⟩⟩

theorem Function.Printable.wellFormed {f : Function} (h : f.Printable) : f.WellFormed :=
  verify_eq_ok_iff.mp h.verified

/-- **`Readable`** -- a function whose text can be cut and read line by line, whether or not the
verifier accepts it: its values are numbered in order of definition and used only after it, its
names are words, and its expressions and types are legible. -/
structure Function.Readable (f : Function) : Prop where
  /-- There is a region. -/
  regions_ne_nil : f.regions ≠ []
  /-- Values are numbered in order of definition. -/
  numbered : f.paramIds ++ f.bindings.map Binding.id =
    (List.range (f.params.length + f.bindings.length)).map ValueId.mk
  /-- Its name is a word. -/
  name : IsWord f.name
  /-- The names of its values are words. -/
  valueNames : ∀ name ∈ f.valueNames, IsWord name
  /-- Names are distinct. -/
  names_nodup : f.valueNames.Nodup
  /-- Its expressions are legible. -/
  exprs : ∀ b ∈ f.bindings, b.expr.Legible
  /-- The types of its parameters can be read. -/
  params : ∀ p ∈ f.params, p.ty.Bounded
  /-- The types of its bindings can be read. -/
  bindings : ∀ b ∈ f.bindings, b.ty.Bounded
  /-- Every binding reads what is defined before it. -/
  sequenced : FunctionIndex.Sequenced f.paramIds f.bindings
  /-- A region exposes what is defined before it ends. -/
  outputs : ∀ done r rest, done ++ r :: rest = f.regions → ∀ id ∈ r.outputs,
    id ∈ f.paramIds ++ (done.flatMap Region.bindings ++ r.bindings).map Binding.id
  /-- What is returned is defined. -/
  returns : ∀ id ∈ f.ret.values, id ∈ f.paramIds ++ f.bindings.map Binding.id

/-- **`Leads`** -- a function whose aliases start like operands. -/
def Function.Leads (f : Function) : Prop := ∀ b ∈ f.bindings, b.expr.Leads

/-- A printable function is readable. -/
theorem Function.Printable.readable {f : Function} (h : f.Printable) : f.Readable where
  regions_ne_nil := h.regions_ne_nil
  numbered := h.numbered
  name := h.name
  valueNames := h.valueNames
  names_nodup := h.wellFormed.names_nodup
  exprs b hb := (h.exprs b hb).legible.1
  params := h.params
  bindings := h.bindings
  sequenced := by
    have hs := (Context.accepts_iff.mp h.wellFormed.accepts).1
    rwa [ids_paramContext] at hs
  outputs done r rest hregions id hid := by
    have hr : r ∈ f.regions := hregions ▸ List.mem_append_right done List.mem_cons_self
    rcases h.wellFormed.outputs r hr id hid with hp | hb
    · exact List.mem_append_left _ hp
    · rw [List.map_append]
      exact List.mem_append_right _ (List.mem_append_right _ hb)
  returns id hid := by
    rw [← ids_context]
    exact h.wellFormed.mem_context (h.wellFormed.returns id hid)

theorem Function.Printable.leads {f : Function} (h : f.Printable) : f.Leads := fun b hb =>
  (h.exprs b hb).legible.2.1

/-- The parts of a binding of a printable function can be read. -/
theorem Function.Printable.binding_spec {f : Function} {b : Binding} (h : f.Printable)
    (hmem : b ∈ f.bindings) : IsWord b.name ∧ b.expr.Printable ∧ b.ty.Bounded := by
  have hname : b.name ∈ f.valueNames := List.mem_append_right _ (List.mem_map_of_mem hmem)
  exact ⟨h.valueNames b.name hname, h.exprs b hmem, h.bindings b hmem⟩

theorem Function.names_entries (f : Function) : f.entries.map ScopeEntry.name = f.valueNames := by
  rw [entries, List.map_append, List.map_map, List.map_map]
  rfl

namespace Function.Readable

variable {f : Function} {pre post : List ScopeEntry} {e : ScopeEntry} {id : ValueId}

theorem ids_entries (h : f.Readable) : f.entries.map ScopeEntry.id =
    (List.range f.entries.length).map ValueId.mk := by
  have hids : f.entries.map ScopeEntry.id = f.paramIds ++ f.bindings.map Binding.id := by
    rw [entries, List.map_append, List.map_map, List.map_map]
    rfl
  rw [hids, h.numbered, entries, List.length_append, List.length_map, List.length_map]

theorem ids_nodup (h : f.Readable) : (f.entries.map ScopeEntry.id).Nodup := by
  rw [h.ids_entries]
  exact List.nodup_range.map fun _ _ he => (ValueId.mk.inj he)

theorem names_entries_nodup (h : f.Readable) : (f.entries.map ScopeEntry.name).Nodup := by
  rw [names_entries]
  exact h.names_nodup

theorem isWord (h : f.Readable) (he : e ∈ f.entries) : IsWord e.name :=
  h.valueNames e.name (names_entries f ▸ List.mem_map_of_mem he)

/-- A value has the number of values before it. -/
theorem id_eq (h : f.Readable) (hpre : pre ++ e :: post = f.entries) : e.id = ⟨pre.length⟩ := by
  have hids := h.ids_entries
  rw [← hpre] at hids
  have hget := congrArg (fun l => l[pre.length]?) hids
  simpa using hget

/-- **A value that has been read** is shown by a name that is in scope. -/
theorem shows (h : f.Readable) (hpre : pre ++ post = f.entries)
    (hid : id ∈ pre.map ScopeEntry.id) : f.Shows (.ofEntries pre) id := by
  obtain ⟨e, he, rfl⟩ := List.mem_map.mp hid
  have hmem : e ∈ f.entries := hpre ▸ List.mem_append_left post he
  have hn : (pre.map ScopeEntry.name).Nodup := by
    have := h.names_entries_nodup
    rw [← hpre, List.map_append] at this
    exact (List.nodup_append.mp this).1
  exact ⟨e.name, nameOf?_of_mem h.ids_nodup hmem, h.isWord hmem, Scope.resolve_ofEntries hn he⟩

/-- The next name is new. -/
theorem name_notMem (h : f.Readable) (hpre : pre ++ e :: post = f.entries) :
    e.name ∉ pre.map ScopeEntry.name := by
  have hn := h.names_entries_nodup
  rw [← hpre, List.map_append, List.map_cons] at hn
  intro hm
  exact (List.nodup_append.mp hn).2.2 _ hm _ List.mem_cons_self rfl

/-- **The next value** is brought into scope with its number. -/
theorem define (h : f.Readable) (hpre : pre ++ e :: post = f.entries) :
    (Scope.ofEntries pre).define e.name e.ty = .ok (e.id, .ofEntries (pre ++ [e])) := by
  have hmem : e ∈ f.entries := hpre ▸ List.mem_append_right pre List.mem_cons_self
  have hid := h.id_eq hpre
  rw [Scope.define_ofEntries (h.isWord hmem).ne_empty (h.name_notMem hpre), ← hid]

end Function.Readable

/-! ## Bindings -/

/-- The scope once the parameters and the given bindings have been read. -/
def Function.scopeAt (f : Function) (bs : List Binding) : Scope :=
  .ofEntries (f.params.map Param.scopeEntry ++ bs.map Binding.scopeEntry)

section Bindings

variable {f : Function} {bs cs : List Binding} {b : Binding} {id : ValueId}

/-- Parameters and bindings that have been read are shown. -/
theorem Function.Readable.shows_at (h : f.Readable) (hb : bs ++ cs = f.bindings)
    (hid : id ∈ f.paramIds ++ bs.map Binding.id) : f.Shows (f.scopeAt bs) id := by
  have hpre : f.params.map Param.scopeEntry ++ bs.map Binding.scopeEntry ++
      cs.map Binding.scopeEntry = f.entries := by
    rw [List.append_assoc, ← List.map_append, hb, entries]
  refine h.shows hpre ?_
  rw [List.map_append, List.map_map, List.map_map]
  exact hid

/-- A binding reads values before it. -/
theorem Function.Readable.shows_expr (h : f.Readable) (hb : bs ++ b :: cs = f.bindings) :
    ∀ id ∈ b.expr.values, f.Shows (f.scopeAt bs) id := by
  have hs := h.sequenced
  rw [← hb] at hs
  exact fun id hid => h.shows_at hb (hs.reads id hid)

/-- The parts of a binding can be read. -/
theorem Function.Readable.binding_spec (h : f.Readable) (hmem : b ∈ f.bindings) :
    IsWord b.name ∧ b.expr.Legible ∧ b.ty.Bounded := by
  have hname : b.name ∈ f.valueNames := List.mem_append_right _ (List.mem_map_of_mem hmem)
  exact ⟨h.valueNames b.name hname, h.exprs b hmem, h.bindings b hmem⟩

/-- The name of the next binding is defined with its number. -/
theorem Function.Readable.define_binding (h : f.Readable) (hb : bs ++ b :: cs = f.bindings) :
    (f.scopeAt bs).define b.name b.ty = .ok (b.id, f.scopeAt (bs ++ [b])) := by
  have hpre : (f.params.map Param.scopeEntry ++ bs.map Binding.scopeEntry) ++
      b.scopeEntry :: cs.map Binding.scopeEntry = f.entries := by
    rw [entries, ← hb, List.map_append, List.map_cons, List.append_assoc]
  have := h.define hpre
  rw [List.append_assoc] at this
  rw [scopeAt, scopeAt, List.map_append]
  exact this

/-- The text of a binding, with the places where it is cut. -/
theorem Function.renderBinding_eq (f : Function) (b : Binding) :
    f.renderBinding b = ('%' :: b.name.toList ++ [' ']) ++ '=' ::
      ((' ' :: (f.renderExpr b.expr ++ [' '])) ++ '-' :: '>' :: ' ' :: b.ty.render) := by
  have hequals : " = ".toList = [' ', '=', ' '] := rfl
  have harrow : " -> ".toList = [' ', '-', '>', ' '] := rfl
  simp only [renderBinding, hequals, harrow, List.append_assoc, List.cons_append, List.nil_append]

/-- The text of a binding is solid and stands within a line. -/
theorem Function.Readable.renderBinding_spec (h : f.Readable) (hmem : b ∈ f.bindings) :
    Solid (f.renderBinding b) ∧ ∀ c ∈ f.renderBinding b, IsLineChar c := by
  obtain ⟨hname, he, -⟩ := h.binding_spec hmem
  obtain ⟨bs, cs, hb⟩ := List.append_of_mem hmem
  have hexpr := (renderExpr_spec he (h.shows_expr hb.symm)).2
  have hty := b.ty.piece_render
  constructor
  · have := hname.piece.solid.append hty.solid
      (" = ".toList ++ f.renderExpr b.expr ++ " -> ".toList)
    simpa only [renderBinding, List.append_assoc, List.cons_append] using this
  · rw [renderBinding, ← List.cons_append, ← List.cons_append, ← List.cons_append,
      ← List.cons_append]
    refine List.forall_mem_append.mpr ⟨?_, hty.inLine⟩
    refine List.forall_mem_append.mpr ⟨?_, by decide⟩
    refine List.forall_mem_append.mpr ⟨?_, hexpr⟩
    exact List.forall_mem_append.mpr ⟨hname.piece.inLine, by decide⟩

/-- The binding that its text spells. -/
def Binding.spelled (b : Binding) : Binding := { b with expr := b.expr.spelled }

/-- **The text of a binding** is cut into a name, an expression and a type, in every scope. -/
theorem Binding.ofText_renderBinding (h : f.Readable) (hmem : b ∈ f.bindings) :
    ∃ rhs, trim rhs = f.renderExpr b.expr ∧ ∀ scope,
      Binding.ofText scope (f.renderBinding b) = Expr.ofText scope b.ty rhs >>= fun e =>
        (scope.define b.name b.ty).map fun p => (⟨p.1, b.name, e, b.ty⟩, p.2) := by
  obtain ⟨hname, he, hty⟩ := h.binding_spec hmem
  obtain ⟨bs, cs, hb⟩ := List.append_of_mem hmem
  have hblank : ∀ c ∈ [' '], isBlank c = true := by decide
  have hsolid := (Function.renderExpr_spec he (h.shows_expr hb.symm)).1
  -- the three cuts: at the first equals sign, at the last arrow, and around the name
  have hequals : '=' ∉ '%' :: b.name.toList ++ [' '] := by
    simpa using hname.notMem (d := '=') (by decide)
  have harrow : '-' ∉ ' ' :: b.ty.render := by simpa using b.ty.notMem_render
  have hleft : valueName ('%' :: b.name.toList ++ [' ']) = b.name :=
    valueName_eq hname (hname.piece.solid.trim_append hblank)
  have hright : trim (' ' :: (f.renderExpr b.expr ++ [' '])) = f.renderExpr b.expr :=
    trim_eq hblank hsolid hblank
  refine ⟨_, hright, fun scope => ?_⟩
  rw [ofText, f.renderBinding_eq, cutAtFirst_append hequals]
  simp only [hleft, if_neg hname.ne_empty, cutAtLastArrow_append _ harrow]
  rw [ValueType.ofText_render hty b.ty.piece_render.solid.trim_space, ok_bind]
  rfl

/-- **A binding is read back** with its number, and its name comes into scope. -/
theorem Binding.ofText_eq (h : f.Readable) (hleads : f.Leads) (hb : bs ++ b :: cs = f.bindings) :
    Binding.ofText (f.scopeAt bs) (f.renderBinding b) =
      .ok (b.spelled, f.scopeAt (bs ++ [b])) := by
  have hmem : b ∈ f.bindings := hb ▸ List.mem_append_right bs List.mem_cons_self
  obtain ⟨rhs, hrhs, hread⟩ := Binding.ofText_renderBinding h hmem
  rw [hread, Expr.ofText_eq (h.exprs b hmem) (hleads b hmem) (h.shows_expr hb) b.ty hrhs, ok_bind,
    h.define_binding hb]
  rfl

/-- **An alias that does not lead** is not read back in any scope. -/
theorem Binding.ofText_not_leads (h : f.Readable) (hmem : b ∈ f.bindings) (hno : ¬b.expr.Leads)
    (scope : Scope) : ∃ e, Binding.ofText scope (f.renderBinding b) = .error e := by
  obtain ⟨rhs, hrhs, hread⟩ := Binding.ofText_renderBinding h hmem
  have hlegible := h.exprs b hmem
  have hfails : ∃ e, Expr.ofText scope b.ty rhs = .error e := by
    generalize b.expr = e at *
    cases e with
    | «alias» x =>
      cases x with
      | literal l => exact Expr.ofText_name hlegible.1 hno b.ty hrhs
      | _ => exact absurd trivial hno
    | _ => exact absurd trivial hno
  obtain ⟨e, he⟩ := hfails
  rw [hread, he]
  exact ⟨e, rfl⟩

end Bindings

/-! ## Lines -/

/-- **`ReadAs`** -- a text of whole lines that is read as the given statements. -/
def ReadAs (s : List Char) (sts : List Statement) : Prop :=
  ∀ rest, statements (s ++ rest) = sts ++ statements rest

section Lines

variable {s t : List Char} {ss ts : List Statement}

theorem readAs_nil : ReadAs [] [] := fun _ => rfl

theorem ReadAs.append (hs : ReadAs s ss) (ht : ReadAs t ts) : ReadAs (s ++ t) (ss ++ ts) := by
  intro rest
  rw [List.append_assoc, hs, ht, List.append_assoc]

theorem readAs_flatMap {α : Type} {xs : List α} {text : α → List Char}
    {read : α → List Statement} (h : ∀ x ∈ xs, ReadAs (text x) (read x)) :
    ReadAs (xs.flatMap text) (xs.flatMap read) := by
  induction xs with
  | nil => exact readAs_nil
  | cons x xs ih =>
    rw [List.forall_mem_cons] at h
    rw [List.flatMap_cons, List.flatMap_cons]
    exact h.1.append (ih h.2)

theorem ReadAs.statements_eq (h : ReadAs s ss) : statements s = ss := by
  have := h []
  rwa [List.append_nil, show statements [] = [] from rfl, List.append_nil] at this

/-- An empty line holds no statement. -/
theorem readAs_break : ReadAs ['\n'] [] := by
  intro rest
  have hsplit : (['\n'] ++ rest).splitOn '\n' = [] :: rest.splitOn '\n' :=
    splitOn_append List.not_mem_nil rest
  rw [statements, hsplit]
  rfl

/-- **A line** holds one statement. -/
theorem readAs_line (level : Nat) (hsolid : Solid s) (hbreak : '\n' ∉ s) (hslash : '/' ∉ s) :
    ReadAs (renderLine level s) [Statement.ofLine s] := by
  intro rest
  have hblank : ∀ c ∈ List.replicate (2 * level) ' ', isBlank c = true := fun c hc => by
    rw [List.eq_of_mem_replicate hc]
    rfl
  have hout : ∀ d, d ≠ ' ' → d ∉ s → d ∉ List.replicate (2 * level) ' ' ++ s := by
    intro d hspace hd hm
    rcases List.mem_append.mp hm with hm | hm
    · exact hspace (List.eq_of_mem_replicate hm)
    · exact hd hm
  have htrim : trim (uncommented (List.replicate (2 * level) ' ' ++ s)) = s := by
    rw [uncommented_eq (hout '/' (by decide) hslash), hsolid.append_trim hblank]
  have hsplit : (renderLine level s ++ rest).splitOn '\n' =
      (List.replicate (2 * level) ' ' ++ s) :: rest.splitOn '\n' := by
    rw [renderLine, List.append_assoc _ ['\n']]
    exact splitOn_append (hout '\n' (by decide) hbreak) rest
  have hne : s.isEmpty = false := by simpa using hsolid.ne_nil
  rw [statements, hsplit, List.map_cons, List.filterMap_cons]
  simp only [htrim, hne, Bool.false_eq_true, ↓reduceIte]
  rfl

/-- A line of line characters. -/
theorem readAs_of_inLine (level : Nat) (hsolid : Solid s) (hline : ∀ c ∈ s, IsLineChar c) :
    ReadAs (renderLine level s) [Statement.ofLine s] :=
  readAs_line level hsolid (fun hm => absurd (hline _ hm) (by decide))
    fun hm => absurd (hline _ hm) (by decide)

/-- A line that starts with `return`. -/
theorem ofLine_return (s : List Char) :
    Statement.ofLine ("return ".toList ++ s) = .returning (' ' :: s) := rfl

/-- A line that starts with `output`. -/
theorem ofLine_output (s : List Char) :
    Statement.ofLine ("output ".toList ++ s) = .exposing s := rfl

/-- A line that starts with the sign of a name. -/
theorem ofLine_value (s : List Char) : Statement.ofLine ('%' :: s) = .binding ('%' :: s) := rfl

end Lines

/-! ## Regions -/

/-- A region while it is read, once all its lines have been. -/
def Region.draft (r : Region) : RegionDraft :=
  ⟨r.bindings.map Binding.spelled, if r.outputs.isEmpty then none else some r.outputs⟩

/-- The statements of a region. -/
def Function.regionStatements (f : Function) (r : Region) : List Statement :=
  r.bindings.map (fun b => .binding (f.renderBinding b)) ++
    if r.outputs.isEmpty then []
    else [.exposing (commaSeparated (r.outputs.map f.renderValue))]

/-- The statements of a region between braces. -/
def Function.bracedStatements (f : Function) (r : Region) : List Statement :=
  .openRegion :: (f.regionStatements r ++ [.closeRegion])

section Regions

variable {f : Function} {bs cs ds : List Binding} {r : Region} {done rest : List Region}

/-- The bindings before a region, in it and after it. -/
theorem Function.bindings_split (hregions : done ++ r :: rest = f.regions) :
    done.flatMap Region.bindings ++ (r.bindings ++ rest.flatMap Region.bindings) =
      f.bindings := by
  rw [bindings, ← hregions, List.flatMap_append, List.flatMap_cons]

/-- The outputs of a region are shown once its bindings have been read. -/
theorem Function.Readable.shows_outputs (h : f.Readable)
    (hregions : done ++ r :: rest = f.regions) :
    ∀ id ∈ r.outputs, f.Shows (f.scopeAt (done.flatMap Region.bindings ++ r.bindings)) id := by
  have hsplit := f.bindings_split hregions
  rw [← List.append_assoc] at hsplit
  exact fun id hid => h.shows_at hsplit (h.outputs done r rest hregions id hid)

/-- Values that are shown are written as pieces. -/
theorem Function.piece_values {scope : Scope} {ids : List ValueId}
    (hshow : ∀ id ∈ ids, f.Shows scope id) : ∀ t ∈ ids.map f.renderValue, Piece t := by
  intro t ht
  obtain ⟨id, hid, rfl⟩ := List.mem_map.mp ht
  obtain ⟨name, hname, hword, -⟩ := hshow id hid
  rw [renderValue_eq hname]
  exact hword.piece

/-- **The lines of a region** are read as its statements. -/
theorem Function.Readable.readAs_region (h : f.Readable) (hr : r ∈ f.regions) (level : Nat) :
    ReadAs (f.renderRegion level r) (f.regionStatements r) := by
  obtain ⟨done, rest, hregions⟩ := List.append_of_mem hr
  have hbindings : ReadAs (r.bindings.flatMap fun b => renderLine level (f.renderBinding b))
      (r.bindings.map fun b => .binding (f.renderBinding b)) := by
    rw [List.map_eq_flatMap]
    refine readAs_flatMap fun b hm => ?_
    obtain ⟨hsolid, hline⟩ := h.renderBinding_spec (List.mem_flatMap.mpr ⟨r, hr, hm⟩)
    have hline := readAs_of_inLine level hsolid hline
    rwa [renderBinding, ofLine_value] at hline
  refine hbindings.append ?_
  split
  · exact readAs_nil
  · next hne =>
    have hpieces := piece_values (h.shows_outputs hregions.symm)
    have hword : Solid "output".toList := solid_of_isWordChar (by simp) (by decide)
    have hlist : Solid (commaSeparated (r.outputs.map f.renderValue)) :=
      solid_commaSeparated (by simpa using hne) fun t ht => (hpieces t ht).solid
    have hsolid : Solid ("output ".toList ++ commaSeparated (r.outputs.map f.renderValue)) :=
      hword.append hlist [' ']
    have hchars : ∀ c ∈ "output ".toList ++ commaSeparated (r.outputs.map f.renderValue),
        IsLineChar c := by
      refine List.forall_mem_append.mpr ⟨by decide, ?_⟩
      exact intercalate_chars (by decide) fun t ht => (hpieces t ht).inLine
    have hline := readAs_of_inLine level hsolid hchars
    rwa [ofLine_output] at hline

/-! ### Steps -/

/-- The two kinds of open region take a statement in the same way. -/
theorem BodyState.inRegion_eq {wrap : RegionDraft → OpenRegion}
    (hwrap : wrap = .braced ∨ wrap = .implicit) (scope : Scope) (closed : List RegionDraft)
    (draft : RegionDraft)
    (step : Scope → RegionDraft → Except TextError (RegionDraft × Scope)) :
    BodyState.inRegion ⟨scope, closed, wrap draft, none⟩ step =
      (step scope draft).map fun p => ⟨p.2, closed, wrap p.1, none⟩ := by
  rcases hwrap with rfl | rfl <;> simp only [inRegion] <;> cases step scope draft <;> rfl

/-- **The bindings of a region** are read one after the other. -/
theorem Function.Readable.foldlM_bindings (h : f.Readable) (hleads : f.Leads)
    {wrap : RegionDraft → OpenRegion} (hwrap : wrap = .braced ∨ wrap = .implicit)
    (closed : List RegionDraft) (hb : bs ++ (cs ++ ds) = f.bindings) (before : List Binding) :
    (cs.map fun b => Statement.binding (f.renderBinding b)).foldlM BodyState.step
        ⟨f.scopeAt bs, closed, wrap ⟨before, none⟩, none⟩ =
      .ok ⟨f.scopeAt (bs ++ cs), closed, wrap ⟨before ++ cs.map Binding.spelled, none⟩, none⟩ := by
  -- the scope and the draft grow together, by one binding in each step
  induction cs generalizing bs before with
  | nil => simp
  | cons b cs ih =>
    have hread := Binding.ofText_eq h hleads hb
    have hstep : BodyState.step ⟨f.scopeAt bs, closed, wrap ⟨before, none⟩, none⟩
        (.binding (f.renderBinding b)) =
        .ok ⟨f.scopeAt (bs ++ [b]), closed, wrap ⟨before ++ [b.spelled], none⟩, none⟩ := by
      show BodyState.inRegion _ _ = _
      rw [BodyState.inRegion_eq hwrap, BodyState.binding, hread, ok_bind]
      rfl
    have hrest := @ih (bs ++ [b]) (by simpa using hb) (before ++ [b.spelled])
    rw [List.map_cons, List.foldlM_cons, hstep, ok_bind, hrest]
    simp

/-- **A region** is read to its end. -/
theorem Function.Readable.foldlM_region (h : f.Readable) (hleads : f.Leads)
    {wrap : RegionDraft → OpenRegion} (hwrap : wrap = .braced ∨ wrap = .implicit)
    (closed : List RegionDraft) (hregions : done ++ r :: rest = f.regions) :
    (f.regionStatements r).foldlM BodyState.step
        ⟨f.scopeAt (done.flatMap Region.bindings), closed, wrap ⟨[], none⟩, none⟩ =
      .ok ⟨f.scopeAt (done.flatMap Region.bindings ++ r.bindings), closed, wrap r.draft, none⟩ := by
  have hbindings := h.foldlM_bindings hleads hwrap closed (f.bindings_split hregions) []
  have hshow := h.shows_outputs hregions
  rw [regionStatements, List.foldlM_append, hbindings, ok_bind, Region.draft]
  generalize done.flatMap Region.bindings = bs at *
  split
  · rfl
  · next hne =>
    have hpieces := piece_values hshow
    have hread : (r.outputs.map f.renderValue).mapM
        (fun item => (f.scopeAt (bs ++ r.bindings)).resolve (valueName item)) = .ok r.outputs := by
      refine mapM_map_eq_ok fun id hid => ?_
      obtain ⟨name, hname, hword, hresolve⟩ := hshow id hid
      rw [renderValue_eq hname, valueName_eq hword hword.piece.solid.trim_eq, hresolve]
    have hstep : BodyState.step ⟨f.scopeAt (bs ++ r.bindings), closed,
          wrap ⟨[] ++ r.bindings.map Binding.spelled, none⟩, none⟩
        (.exposing (commaSeparated (r.outputs.map f.renderValue))) =
        .ok ⟨f.scopeAt (bs ++ r.bindings), closed,
          wrap ⟨r.bindings.map Binding.spelled, some r.outputs⟩, none⟩ := by
      show BodyState.inRegion _ _ = _
      rw [BodyState.inRegion_eq hwrap, BodyState.exposing, Piece.trim_list hpieces,
        Piece.items_eq hpieces, hread]
      rfl
    rw [List.foldlM_cons, hstep]
    rfl

end Regions

/-! ### All regions -/

/-- The statements of all regions. -/
def Function.regionsStatements (f : Function) : List Statement :=
  match f.regions with
  | [r] => f.regionStatements r
  | regions => regions.flatMap f.bracedStatements

section Body

variable {f : Function} {r : Region} {rs done : List Region}

theorem Function.Readable.readAs_bracedRegion (h : f.Readable) (hr : r ∈ f.regions) :
    ReadAs (f.renderBracedRegion r) (f.bracedStatements r) := by
  have hword : Solid "region".toList := solid_of_isWordChar (by decide) (by decide)
  have hbrace : Solid [leftBrace] := solid_of_forall (by decide) (by decide)
  have hopen : ReadAs (renderLine 1 ("region ".toList ++ [leftBrace])) [.openRegion] :=
    readAs_line 1 (hword.append hbrace [' ']) (by decide) (by decide)
  have hclose : ReadAs (renderLine 1 [rightBrace]) [.closeRegion] :=
    readAs_line 1 (solid_of_forall (by decide) (by decide)) (by decide) (by decide)
  exact (hopen.append (h.readAs_region hr 2)).append hclose

theorem Function.Readable.readAs_regions (h : f.Readable) :
    ReadAs f.renderRegions f.regionsStatements := by
  have hbraced : ReadAs (f.regions.flatMap f.renderBracedRegion)
      (f.regions.flatMap f.bracedStatements) :=
    readAs_flatMap fun r hr => h.readAs_bracedRegion hr
  have hone : ∀ r, f.regions = [r] → ReadAs (f.renderRegion 1 r) (f.regionStatements r) :=
    fun r hr => h.readAs_region (hr ▸ List.mem_singleton_self r) 1
  rw [renderRegions, regionsStatements]
  match hregions : f.regions with
  | [] => exact readAs_nil
  | [r] => exact hone r hregions
  | r :: r' :: rs => rwa [hregions] at hbraced

/-- **Regions between braces** are read one after the other. -/
theorem Function.Readable.foldlM_braced (h : f.Readable) (hleads : f.Leads)
    (hregions : done ++ rs = f.regions) :
    (rs.flatMap f.bracedStatements).foldlM BodyState.step
        ⟨f.scopeAt (done.flatMap Region.bindings), done.map Region.draft, .none, none⟩ =
      .ok ⟨f.scopeAt f.bindings, f.regions.map Region.draft, .none, none⟩ := by
  -- `done` are the regions that have been closed
  induction rs generalizing done with
  | nil =>
    rw [List.append_nil] at hregions
    rw [hregions]
    rfl
  | cons r rs ih =>
    have hregion := h.foldlM_region hleads (.inl rfl) (done.map Region.draft) hregions
    have hrest := @ih (done ++ [r]) (by simpa using hregions)
    rw [List.flatMap_append, List.flatMap_singleton, List.map_append, List.map_singleton] at hrest
    rw [List.flatMap_cons, bracedStatements, List.cons_append, List.foldlM_cons,
      show BodyState.step ⟨f.scopeAt (done.flatMap Region.bindings), done.map Region.draft, .none,
        none⟩ .openRegion = .ok ⟨f.scopeAt (done.flatMap Region.bindings), done.map Region.draft,
        .braced ⟨[], none⟩, none⟩ from rfl, ok_bind, List.append_assoc, List.foldlM_append, hregion,
      ok_bind, List.singleton_append, List.foldlM_cons]
    exact hrest

/-- **`Complete`** -- all regions of the function have been read, and none is open between
braces. -/
structure Function.Complete (f : Function) (b : BodyState) : Prop where
  /-- Every value is in scope. -/
  scope : b.scope = f.scopeAt f.bindings
  /-- The regions are there. -/
  drafts : b.drafts = f.regions.map Region.draft
  /-- The return has not been read. -/
  ret : b.ret = none
  /-- No region is open between braces. -/
  current : ∀ draft, b.current ≠ .braced draft

/-- **A single region** without braces is read as it would be between them. -/
theorem Function.Readable.foldlM_single (h : f.Readable) (hleads : f.Leads)
    (hregions : f.regions = [r]) :
    ∃ b, (f.regionStatements r).foldlM BodyState.step ⟨f.scopeAt [], [], .none, none⟩ = .ok b ∧
      f.Complete b := by
  have hbindings : f.bindings = r.bindings := by simp [Function.bindings, hregions]
  have hone : [] ++ r :: [] = f.regions := hregions.symm
  have hregion := h.foldlM_region hleads (.inr rfl) [] hone
  rw [List.flatMap_nil, List.nil_append, ← hbindings] at hregion
  have hdrafts : f.regions.map Region.draft = [r.draft] := by rw [hregions]; rfl
  cases hstatements : f.regionStatements r with
  | nil =>
    -- without a statement no region is opened, and the body has one empty region
    rw [hstatements] at hregion
    have hstate := Except.ok.inj hregion
    simp only [BodyState.mk.injEq, OpenRegion.implicit.injEq, true_and, and_true] at hstate
    refine ⟨⟨f.scopeAt [], [], .none, none⟩, rfl, hstate.1, ?_, rfl, by simp⟩
    rw [hdrafts, ← hstate.2]
    rfl
  | cons first others =>
    -- the first statement opens the region
    have hfirst : BodyState.step ⟨f.scopeAt [], [], .none, none⟩ first =
        BodyState.step ⟨f.scopeAt [], [], .implicit ⟨[], none⟩, none⟩ first := by
      have hmem : first ∈ f.regionStatements r := hstatements ▸ List.mem_cons_self
      rcases List.mem_append.mp hmem with hm | hm
      · obtain ⟨b, _, rfl⟩ := List.mem_map.mp hm
        rfl
      · split at hm
        · exact absurd hm List.not_mem_nil
        · obtain rfl := List.mem_singleton.mp hm
          rfl
    refine ⟨⟨f.scopeAt f.bindings, [], .implicit r.draft, none⟩, ?_, rfl, ?_, rfl, by simp⟩
    · rw [hstatements, List.foldlM_cons] at hregion
      rw [List.foldlM_cons, hfirst, hregion]
    · rw [hdrafts]
      rfl

/-- **The regions of a function** are read to their end. -/
theorem Function.Readable.foldlM_regions (h : f.Readable) (hleads : f.Leads) :
    ∃ b, f.regionsStatements.foldlM BodyState.step ⟨f.scopeAt [], [], .none, none⟩ = .ok b ∧
      f.Complete b := by
  have hbraced := h.foldlM_braced hleads (List.nil_append f.regions)
  have hsingle : ∀ r, f.regions = [r] → _ := fun r => h.foldlM_single hleads
  rw [regionsStatements]
  match hregions : f.regions with
  | [] => exact absurd hregions h.regions_ne_nil
  | [r] => exact hsingle r hregions
  | r :: r' :: rs =>
    rw [hregions] at hbraced
    refine ⟨_, hbraced, rfl, ?_, rfl, by simp⟩
    rw [hregions]
    rfl

/-- A value that is defined in one region only is exposed by no other. -/
theorem Function.WellFormed.notMem_exposed (h : f.WellFormed) (hr : r ∈ f.regions)
    (hnone : r.outputs = []) {b : Binding} (hb : b ∈ r.bindings) : b.id ∉ f.exposed := by
  -- values are distinct over the whole function, so no parameter and no other region has this one
  have hn := h.nodup
  rw [ids_context, Function.bindings, List.map_flatMap] at hn
  obtain ⟨-, hregions, hparams⟩ := List.nodup_append.mp hn
  have hmem : ∀ r ∈ f.regions, ∀ id ∈ r.bindings.map Binding.id, id ∉ f.paramIds :=
    fun r hr id hid hp => hparams id hp id (List.mem_flatMap.mpr ⟨r, hr, hid⟩) rfl
  have hid : b.id ∈ r.bindings.map Binding.id := List.mem_map_of_mem hb
  intro he
  rcases List.mem_append.mp he with hp | ho
  · exact hmem r hr b.id hid hp
  · obtain ⟨r', hr', ho⟩ := List.mem_flatMap.mp ho
    have hne : r ≠ r' := by
      rintro rfl
      simp [hnone] at ho
    have hsymm : Std.Symm (Function.onFun List.Disjoint fun r : Region =>
        r.bindings.map Binding.id) := ⟨fun _ _ hd _ hm hm' => hd hm' hm⟩
    have hdisjoint := (List.nodup_flatMap.mp hregions).2.forall hr hr' hne
    rcases h.outputs r' hr' b.id ho with hp | hid'
    · exact hmem r hr b.id hid hp
    · exact hdisjoint hid hid'

/-- **By default** a region exposes what is returned of its own bindings. -/
theorem mem_defaultOutputs_iff {bs : List Binding} {returned : List ValueId} {id : ValueId} :
    id ∈ defaultOutputs bs returned ↔ id ∈ returned ∧ id ∈ bs.map Binding.id := by
  have hany : ∀ id', bs.any (fun b => b.id == id') = true ↔ id' ∈ bs.map Binding.id := by
    simp
  have hfold : ∀ outputs : List ValueId,
      id ∈ returned.foldl (fun outputs id => if bs.any (fun b => b.id == id) &&
        !outputs.contains id then outputs ++ [id] else outputs) outputs ↔
        id ∈ outputs ∨ id ∈ returned ∧ id ∈ bs.map Binding.id := by
    -- `outputs` are those taken so far
    induction returned with
    | nil => simp
    | cons id' rest ih =>
      intro outputs
      rw [List.foldl_cons, ih, List.mem_cons]
      by_cases hid : id = id'
      · subst hid
        by_cases hb : id ∈ bs.map Binding.id
        · rw [(hany id).mpr hb]
          by_cases ho : id ∈ outputs <;> simp [ho, hb]
        · rw [Bool.eq_false_iff.mpr fun h => hb ((hany id).mp h)]
          simp [hb]
      · split <;> simp [hid]
  rw [defaultOutputs, hfold]
  simp

/-- A region that shows no outputs exposes nothing that is returned. -/
theorem Function.WellFormed.defaultOutputs_eq (h : f.WellFormed) (hr : r ∈ f.regions)
    (hnone : r.outputs = []) : defaultOutputs r.bindings f.ret.values = [] := by
  rw [List.eq_nil_iff_forall_not_mem]
  intro id hid
  obtain ⟨hreturned, hdefined⟩ := mem_defaultOutputs_iff.mp hid
  obtain ⟨b, hb, rfl⟩ := List.mem_map.mp hdefined
  exact h.notMem_exposed hr hnone hb (h.returns b.id hreturned)

/-- The region that its text spells. -/
def Region.spelled (ret : ReturnExpr) (r : Region) : Region := r.draft.complete ret

/-- **`spelled`** -- the function that its text spells. -/
def Function.spelled (f : Function) : Function :=
  { f with regions := f.regions.map (Region.spelled f.ret) }

/-- A region of a printable function is spelled as it is. -/
theorem Function.Printable.spelled_region (h : f.Printable) (hr : r ∈ f.regions) :
    r.spelled f.ret = r := by
  have hdefault := h.wellFormed.defaultOutputs_eq hr
  have hbindings : r.bindings.map Binding.spelled = r.bindings := by
    refine map_eq_self_iff.mpr fun b hb => ?_
    have hmem : b ∈ f.bindings := List.mem_flatMap.mpr ⟨r, hr, hb⟩
    rw [Binding.spelled, (h.exprs b hmem).legible.2.2]
  obtain ⟨bindings, outputs⟩ := r
  rw [Region.spelled, RegionDraft.complete, Region.draft, hbindings]
  cases outputs with
  | nil => exact congrArg (Region.mk bindings) (hdefault rfl)
  | cons id ids => rfl

/-- **A printable function** is spelled as it is. -/
theorem Function.Printable.spelled_eq (h : f.Printable) : f.spelled = f := by
  have hregions : f.regions.map (Region.spelled f.ret) = f.regions :=
    map_eq_self_iff.mpr fun r hr => h.spelled_region hr
  rw [spelled, hregions]

/-- The text of a body, from the brace that opens it to the one that closes it. -/
def Function.renderBody (f : Function) : List Char :=
  '\n' :: (f.renderRegions ++ renderLine 1 ("return ".toList ++ f.renderReturn f.ret))

/-- What is returned is shown in the end. -/
theorem Function.Readable.shows_return (h : f.Readable) :
    ∀ id ∈ f.ret.values, f.Shows (f.scopeAt f.bindings) id := by
  exact fun id hid => h.shows_at (List.append_nil f.bindings) (h.returns id hid)

/-- The lines of a body. -/
theorem Function.Readable.readAs_body (h : f.Readable) :
    ReadAs f.renderBody (f.regionsStatements ++ [.returning (' ' :: f.renderReturn f.ret)]) := by
  have hpiece := piece_renderReturn h.shows_return
  have hword : Solid "return".toList := solid_of_isWordChar (by simp) (by decide)
  have hchars : ∀ c ∈ "return ".toList ++ f.renderReturn f.ret, IsLineChar c :=
    List.forall_mem_append.mpr ⟨by decide, hpiece.inLine⟩
  have hsolid : Solid ("return ".toList ++ f.renderReturn f.ret) :=
    hword.append hpiece.solid [' ']
  have hreturn := readAs_of_inLine 1 hsolid hchars
  rw [ofLine_return] at hreturn
  exact readAs_break.append (h.readAs_regions.append hreturn)

/-- **A body is read back** as it is spelled. -/
theorem Function.Readable.ofText_body (h : f.Readable) (hleads : f.Leads) :
    ParsedBody.ofText (f.scopeAt []) f.renderBody =
      .ok ⟨f.spelled.regions, f.ret, f.scopeAt f.bindings⟩ := by
  obtain ⟨b, hfold, hcomplete⟩ := h.foldlM_regions hleads
  obtain ⟨hscope, hdrafts, hret, hcurrent⟩ := hcomplete
  have hread : readReturn b.scope (' ' :: f.renderReturn f.ret) = .ok f.ret := by
    rw [hscope]
    exact readReturn_eq h.shows_return (piece_renderReturn h.shows_return).solid.trim_space
  have hstep : b.step (.returning (' ' :: f.renderReturn f.ret)) =
      .ok { b with ret := some f.ret } := by
    have hreturning : b.returning (' ' :: f.renderReturn f.ret) =
        .ok { b with ret := some f.ret } := by
      rw [BodyState.returning]
      split
      · next draft hc => exact absurd hc (hcurrent draft)
      · rw [hread]
        rfl
    rw [BodyState.step, hret]
    exact hreturning
  have hregions : b.drafts.map (RegionDraft.complete f.ret) = f.spelled.regions := by
    rw [hdrafts, List.map_map]
    rfl
  have hend : BodyState.drafts { b with ret := some f.ret } = b.drafts := rfl
  rw [ParsedBody.ofText, h.readAs_body.statements_eq, List.foldlM_append, hfold, ok_bind,
    List.foldlM_cons, hstep, ok_bind, List.foldlM_nil, pure_eq_ok, ok_bind]
  split
  · next draft hc => exact absurd hc (hcurrent draft)
  · next hnone _ => simp at hnone
  · next ret hsome _ =>
    obtain rfl := Option.some.inj hsome
    rw [hend, hregions, hscope]
    rfl

end Body

end TensorGraph
