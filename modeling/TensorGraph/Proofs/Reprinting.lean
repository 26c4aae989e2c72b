/-
# TensorGraph.Proofs.Reprinting -- what is transformed can be printed and read

A gradient function and a composition have no other text form than the functions that they are
made of. New values get the next numbers, names that are made unique stay words, and an expression
that is emitted is typed: what a machine holds of types bounds the axes, extents and indices that
it names (`Expr.printable_of_hasType`). Copies of expressions keep operators, literals and indices.
So both results are printable again, and a printed one is read back as it is
(`Function.ofText_render_transformed`).
-/
import TensorGraph.Proofs.Passes
import TensorGraph.Proofs.Roundtrip
import TensorGraph.Proofs.Splicing

namespace TensorGraph

/-! ## Words -/

theorem IsWord.append {s t : String} (h : IsWord s) (ht : ∀ c ∈ t.toList, IsWordChar c) :
    IsWord (s ++ t) where
  ne_empty := by
    intro he
    have hlist := congrArg String.toList he
    rw [String.toList_append] at hlist
    exact h.toList_ne_nil (List.append_eq_nil_iff.mp hlist).1
  chars := by
    intro c hc
    rw [String.toList_append] at hc
    exact (List.mem_append.mp hc).elim (h.chars c) (ht c)

namespace NameSupply

/-- **A name chosen for a word** is a word. -/
theorem isWord_choose (supply : NameSupply) {hint : String} (h : IsWord hint) :
    IsWord (supply.choose hint) := by
  unfold choose
  split
  · split
    · next k _ =>
      refine h.append fun c hc => ?_
      rw [Nat.toList_repr] at hc
      exact isWordChar_toDigits k c hc
    · exact h
  · exact h

theorem isWord_freshAll {supply : NameSupply} {hints : List String}
    (h : ∀ hint ∈ hints, IsWord hint) : ∀ name ∈ (supply.freshAll hints).1, IsWord name := by
  induction hints generalizing supply with
  | nil => exact fun name hname => absurd hname List.not_mem_nil
  | cons hint rest ih =>
    obtain ⟨hhint, hrest⟩ := List.forall_mem_cons.mp h
    rw [freshAll_cons]
    exact List.forall_mem_cons.mpr ⟨supply.isWord_choose hhint, ih hrest⟩

end NameSupply

/-! ## Typed expressions -/

namespace ValueType

mutual

/-- The extents of a storable type can be read. -/
theorem bounded_of_storable : (ty : ValueType) → ty.Storable → ty.Bounded
  | .tensor _, h => h.2
  | .tuple elements, h => allBounded_of_storable elements h.2

theorem allBounded_of_storable : (tys : List ValueType) → AllStorable tys → AllBounded tys
  | [], _ => trivial
  | ty :: rest, h => ⟨bounded_of_storable ty h.1, allBounded_of_storable rest h.2⟩

end

end ValueType

/-- **The parameters of a typed operator** can be read: axes are axes of an operand, and the extents
that a reshape names are those of the result. -/
theorem Operation.printable_of_resultSpec {op : Operation} {specs : List TensorSpec}
    {declared : Option ValueType} {out : TensorSpec} (h : op.resultSpec specs declared = .ok out)
    (hop : op.isCustom = false) (hspecs : ∀ spec ∈ specs, spec.Storable) (hout : out.Storable) :
    op.Printable := by
  have axis : ∀ {x : TensorSpec} {n : Nat}, specs = [x] → n < x.shape.rank → n < indexBound := by
    rintro x n rfl hn
    exact hn.trans (hspecs x List.mem_cons_self).1
  cases op with
  | transpose perm =>
    obtain ⟨x, hx, hperm, -⟩ := transposeSpec_eq_ok_iff.mp h
    exact fun n hn => axis hx (hperm.2.2 n hn)
  | reshape dims =>
    obtain ⟨x, _, _, rfl⟩ := reshapeSpec_eq_ok_iff.mp h
    exact hout.2
  | sum axes keepdims =>
    obtain ⟨x, hx, hnamed, -⟩ := sumSpec_eq_ok_iff.mp h
    intro ns hns n hn
    cases hns
    exact axis hx (hnamed.2 n hn)
  | softmax n =>
    obtain ⟨hx, hn⟩ := softmaxSpec_eq_ok_iff.mp h
    exact axis hx hn
  | customCall target => cases hop
  | _ => exact trivial

section Typed

variable {types : TypeMap}

/-- **A typed operand** can be read, and its type is storable: the index of a component is below
the number of components. -/
theorem Operand.printable_of_type? (htypes : ∀ id ty, types id = some ty → ty.Storable)
    {x : Operand} {ty : ValueType} (h : x.type? types = some ty)
    (hx : ∀ l, x.constant? = some l → l.Plain) : x.Printable ∧ ty.Storable := by
  cases x with
  | value id => exact ⟨trivial, htypes id ty h⟩
  | tupleElement tuple index =>
    obtain ⟨elements, htuple, helement⟩ := Operand.type?_tupleElement h
    obtain ⟨hlen, hall⟩ := ValueType.storable_tuple.mp (htypes tuple _ htuple)
    obtain ⟨hlt, _⟩ := List.getElem?_eq_some_iff.mp helement
    exact ⟨hlt.trans hlen, hall ty (List.mem_of_getElem? helement)⟩
  | literal constant =>
    have hplain := hx constant rfl
    cases h
    refine ⟨hplain, ?_⟩
    rw [hplain.1]
    exact ⟨show 0 < indexBound by decide, fun d hd => absurd hd List.not_mem_nil⟩

mutual

theorem TupleField.printable_of_type? (htypes : ∀ id ty, types id = some ty → ty.Storable)
    (field : TupleField) {ty : ValueType} (h : field.type? types = some ty)
    (hf : ∀ l ∈ field.constants, l.Plain) : field.Printable := by
  cases field with
  | operand x =>
    have hx : x.type? types = some ty := h
    exact (Operand.printable_of_type? htypes hx fun l hl => hf l (Option.mem_toList.mpr hl)).1
  | tuple fields =>
    obtain ⟨tys, htys, _⟩ := TupleField.type?_tuple_eq_some_iff.mp h
    exact TupleField.allPrintable_of_types? htypes fields htys hf

theorem TupleField.allPrintable_of_types? (htypes : ∀ id ty, types id = some ty → ty.Storable)
    (fields : List TupleField) {tys : List ValueType}
    (h : TupleField.types? types fields = some tys)
    (hf : ∀ l ∈ TupleField.constantsList fields, l.Plain) : TupleField.AllPrintable fields := by
  cases fields with
  | nil => exact trivial
  | cons field rest =>
    obtain ⟨ty, tys', hfield, hrest, rfl⟩ := TupleField.types?_cons_eq_some_iff.mp h
    rw [TupleField.constantsList, List.forall_mem_append] at hf
    exact ⟨TupleField.printable_of_type? htypes field hfield hf.1,
      TupleField.allPrintable_of_types? htypes rest hrest hf.2⟩

end

/-- **A typed expression** that may be emitted can be read, where the values that it reads and its
result have storable types. -/
theorem Expr.printable_of_hasType (htypes : ∀ id ty, types id = some ty → ty.Storable) {e : Expr}
    {ty : ValueType} (h : e.HasType types ty) (hty : ty.Storable)
    (he : e.IsEmitted Literal.Plain) : e.Printable := by
  cases e with
  | call op xs =>
    obtain ⟨tys, hxs, hresult⟩ := h
    have hop := he.transparent op rfl
    obtain ⟨specs, out, rfl, hspec, rfl⟩ := (Operation.resultType_eq_ok_iff hop).mp hresult
    have hread : ∀ {x ty}, x ∈ xs → x.type? types = some ty → x.Printable ∧ ty.Storable := by
      intro x ty hx htype
      refine Operand.printable_of_type? htypes htype fun l hl => ?_
      exact he.constants l (List.mem_filterMap.mpr ⟨x, hx, hl⟩)
    refine ⟨Operation.printable_of_resultSpec hspec hop (fun spec hm => ?_) hty, fun x hx => ?_⟩
    · obtain ⟨x, hx, htype⟩ := forall₂_exists_of_mem hxs.flip (List.mem_map_of_mem hm)
      exact (hread hx htype).2
    · obtain ⟨ty, _, htype⟩ := forall₂_exists_of_mem hxs hx
      exact (hread hx htype).1
  | tuple fields =>
    obtain ⟨tys, htys, _⟩ := h
    exact TupleField.allPrintable_of_types? htypes fields htys he.constants
  | tupleGet source index =>
    have hx : (Operand.tupleElement source index).type? types = some ty := h
    exact (Operand.printable_of_type? htypes hx fun l hl => by cases hl).1
  | «alias» x =>
    have hx : x.type? types = some ty := h
    have hprint : x.Printable :=
      (Operand.printable_of_type? htypes hx fun l hl => he.constants l (Option.mem_toList.mpr hl)).1
    cases x with
    | tupleElement tuple index => exact absurd rfl (he.projects tuple index)
    | _ => exact hprint

end Typed

/-! ## Literals and copies of printable expressions -/

/-- The literal of a printable operand is plain. -/
theorem Operand.Printable.plain {x : Operand} (h : x.Printable) {l : Literal}
    (hl : x.constant? = some l) : l.Plain := by
  cases x with
  | literal constant =>
    cases hl
    exact h
  | _ => cases hl

namespace TupleField

mutual

theorem plain_of_printable (field : TupleField) (h : field.Printable) :
    ∀ l ∈ field.constants, l.Plain := by
  cases field with
  | operand x => exact fun l hl => Operand.Printable.plain h (Option.mem_toList.mp hl)
  | tuple fields => exact plain_of_allPrintable fields h

theorem plain_of_allPrintable (fields : List TupleField) (h : AllPrintable fields) :
    ∀ l ∈ constantsList fields, l.Plain := by
  cases fields with
  | nil => exact fun l hl => absurd hl List.not_mem_nil
  | cons field rest =>
    rw [constantsList, List.forall_mem_append]
    exact ⟨plain_of_printable field h.1, plain_of_allPrintable rest h.2⟩

end

end TupleField

/-- **The literals** of a printable expression are plain. -/
theorem Expr.Printable.plain {e : Expr} (h : e.Printable) : ∀ l ∈ e.constants, l.Plain := by
  cases e with
  | call op xs =>
    intro l hl
    obtain ⟨x, hx, hxl⟩ := List.mem_filterMap.mp hl
    exact (h.2 x hx).plain hxl
  | tuple fields => exact TupleField.plain_of_allPrintable fields h
  | tupleGet source index => exact fun l hl => absurd hl List.not_mem_nil
  | «alias» x => exact fun l hl => (Expr.Printable.of_alias h).plain (Option.mem_toList.mp hl)

namespace Remap

variable (placed : Remap)

theorem printable_operand {x : Operand} (h : x.Printable) : (placed.operand x).Printable := by
  cases x <;> exact h

mutual

theorem printable_field (field : TupleField) (h : field.Printable) :
    (placed.field field).Printable := by
  cases field with
  | operand x => exact placed.printable_operand h
  | tuple fields => exact printable_fields fields h

theorem printable_fields (fields : List TupleField) (h : TupleField.AllPrintable fields) :
    TupleField.AllPrintable (placed.fields fields) := by
  cases fields with
  | nil => exact trivial
  | cons field rest => exact ⟨printable_field field h.1, printable_fields rest h.2⟩

end

/-- **A copy** of a printable expression is printable. -/
theorem printable_expr {e : Expr} (h : e.Printable) : (placed.expr e).Printable := by
  cases e with
  | call op xs =>
    refine ⟨h.1, fun x hx => ?_⟩
    obtain ⟨y, hy, rfl⟩ := List.mem_map.mp hx
    exact placed.printable_operand (h.2 y hy)
  | tuple fields => exact placed.printable_fields fields h
  | tupleGet source index => exact h
  | «alias» x => cases x <;> exact h

end Remap

/-! ## Gradients -/

theorem Builder.Appends.numbered {allowed : String → Expr → ValueType → Prop} {b later : Builder}
    (h : b.Appends allowed later) (hb : b.Numbered) : later.Numbered := by
  induction h with
  | refl => exact hb
  | bind _ _ ih => exact ih.bind _ _ _

theorem Expr.IsEmitted.imp {kind kind' : Literal → Prop} {e : Expr} (h : e.IsEmitted kind)
    (himp : ∀ l, kind l → kind' l) : e.IsEmitted kind' :=
  ⟨h.transparent, fun l hl => himp l (h.constants l hl), h.projects⟩

namespace Function.Yields

variable {f : Function} {c : SweepContext} {target : ValueId} {spec : TensorSpec}
  {s : SweepState} {ids grads : List ValueId} {later : Builder}

/-- A gradient function of a numbered function is numbered. -/
theorem numbered (h : f.Yields c target spec s ids grads later) (hf : f.Printable) :
    (f.gradient target grads later).paramIds ++
        (f.gradient target grads later).bindings.map Binding.id =
      (List.range ((f.gradient target grads later).params.length +
        (f.gradient target grads later).bindings.length)).map ValueId.mk := by
  have hids : c.function.context.ids =
      (List.range (f.params.length + f.bindings.length)).map ValueId.mk := by
    rw [h.function, ids_context, hf.numbered]
  have hlater : later.Numbered :=
    (h.swept.appends.trans h.appends).numbered (Builder.numbered_ofFunction _ hids)
  have hbindings : (f.gradient target grads later).bindings = later.bindings :=
    Builder.bindings_finish _ _ _
  refine numbered_of_ids (n := later.nextIndex) ?_
  rw [context, hbindings]
  exact hlater

/-- **What is new in a gradient function** has words for names and storable types, and what it
computes may be emitted. -/
theorem new_spec (h : f.Yields c target spec s ids grads later) (hf : f.Printable)
    (hs : f.Storable) (hsuffix : ∀ ch ∈ c.suffix.toList, IsWordChar ch) (htemp : IsWord c.temp)
    {new : List Binding} (hnew : Builder.New c.Emits c.start later new) :
    ∀ b ∈ new, IsWord b.name ∧ b.expr.IsEmitted Literal.Plain ∧ b.ty.Storable := by
  intro b hb
  obtain ⟨hint, ⟨names, hname⟩, hhint, hexpr, hty⟩ := hnew.allowed b hb
  have hword : IsWord hint := by
    rcases hhint with rfl | ⟨name, hmem, rfl⟩
    · exact htemp
    · exact (hf.valueNames name (h.function ▸ hmem)).append hsuffix
  refine ⟨hname ▸ names.isWord_choose hword, hexpr.imp fun l hl => ?_, hty (h.function.symm ▸ hs)⟩
  obtain ⟨b', hb', hl⟩ := hl
  exact (hf.exprs b' (h.function ▸ hb')).plain l hl

/-- **A gradient function** of a printable function is printable. -/
theorem printable (h : f.Yields c target spec s ids grads later) (hf : f.Printable)
    (hs : f.Storable) (hsuffix : ∀ ch ∈ c.suffix.toList, IsWordChar ch) (htemp : IsWord c.temp)
    (hv : (f.gradient target grads later).verify = .ok ()) :
    (f.gradient target grads later).Printable := by
  obtain ⟨new, hnew, hlater, _⟩ := h.exists_new
  have hspec := h.new_spec hf hs hsuffix htemp hnew
  have hw := verify_eq_ok_iff.mp hv
  have hparams : (f.gradient target grads later).params = f.params := h.params
  have hbindings : (f.gradient target grads later).bindings = f.bindings ++ new :=
    (Builder.bindings_finish _ _ _).trans hlater
  -- all types are storable, so that what is typed in the whole function can be read
  have htypes : ∀ id ty, (f.gradient target grads later).context.typeOf? id = some ty →
      ty.Storable := by
    intro id ty
    refine hw.forall_types ?_ ?_
    · rw [hparams]
      exact fun p hp => (hs.param hp).2.2
    · rw [hbindings, List.forall_mem_append]
      exact ⟨fun b hb => (hs.binding hb).2.2.2, fun b hb => (hspec b hb).2.2⟩
  have hexprs : ∀ b ∈ new, b.expr.Printable := by
    intro b hb
    have hmem : b ∈ (f.gradient target grads later).bindings :=
      hbindings ▸ List.mem_append_right _ hb
    obtain ⟨_, hfields, hbounded⟩ := hspec b hb
    exact Expr.printable_of_hasType htypes (hw.binding_spec hmem).2 hbounded hfields
  refine ⟨hv, List.cons_ne_nil _ _, h.numbered hf, ?_, ?_, ?_, ?_, ?_⟩
  · show IsWord later.name
    rw [h.advances_start.grows.name, SweepContext.start, Builder.name_ofFunction,
      SweepContext.adjointName, h.function]
    exact hf.name.append hsuffix
  · rw [valueNames, hparams, hbindings, List.map_append, ← List.append_assoc,
      List.forall_mem_append]
    refine ⟨hf.valueNames, fun name hname => ?_⟩
    obtain ⟨b, hb, rfl⟩ := List.mem_map.mp hname
    exact (hspec b hb).1
  · rw [hbindings, List.forall_mem_append]
    exact ⟨hf.exprs, hexprs⟩
  · rw [hparams]
    exact hf.params
  · rw [hbindings, List.forall_mem_append]
    exact ⟨hf.bindings, fun b hb => b.ty.bounded_of_storable (hspec b hb).2.2⟩

end Function.Yields

/-- **Differentiation keeps functions printable**, under a suffix and a name for intermediate values
that are words. -/
theorem Function.Printable.of_differentiate {f g : Function} (hf : f.Printable) (hs : f.Storable)
    {config : GradientConfig} (hsuffix : IsWord config.suffix) (htemp : IsWord config.temp)
    {request : Option (List ValueId)}
    (h : f.differentiate .builtinOnly config request = .ok g) : g.Printable := by
  have hv := (outcome_of_differentiate h).1
  obtain ⟨c, target, spec, s, ⟨hc, hc'⟩, ⟨grads, later, hyields, rfl⟩, _⟩ :=
    exists_of_differentiate h
  exact hyields.printable hf hs (hc ▸ hsuffix.chars) (hc' ▸ htemp) hv

/-! ## Compositions -/

/-- **A composition** of printable functions under words is printable. -/
theorem Composition.Composed.printable {backbone loss c : Function} {outputs : List ValueId}
    {count : Nat} {target : ValueId} {name : String} {front back : Remap}
    {restNames bindingNames : List String}
    (h : Composed backbone loss outputs count target name front back restNames bindingNames c)
    (hb : backbone.Printable) (hl : loss.Printable) (hname : IsWord name)
    (hnames : ∀ own ∈ restNames ++ bindingNames, IsWord own) : c.Printable := by
  obtain ⟨hrest, hown⟩ := List.forall_mem_append.mp hnames
  have hparams : ∀ p ∈ c.params, IsWord p.name ∧ p.ty.Bounded := by
    rw [h.params, List.forall_mem_append]
    constructor
    · intro p hp
      obtain ⟨q, hq, rfl⟩ := List.mem_map.mp hp
      have hword : IsWord q.name := hb.readable.isWord_param hq
      exact ⟨hword, hb.params q hq⟩
    · intro p hp
      obtain ⟨⟨q, own⟩, hq, rfl⟩ := List.mem_map.mp hp
      obtain ⟨hq, hown⟩ := List.of_mem_zip hq
      exact ⟨hrest own hown, hl.params q (List.mem_of_mem_drop hq)⟩
  have hbindings : ∀ b ∈ c.bindings, IsWord b.name ∧ b.expr.Printable ∧ b.ty.Bounded := by
    rw [h.bindings, List.forall_mem_append]
    constructor
    · intro b hm
      obtain ⟨b', hb', rfl⟩ := List.mem_map.mp hm
      obtain ⟨hword, hexpr, hty⟩ := hb.binding_spec hb'
      exact ⟨hword, front.printable_expr hexpr, hty⟩
    · intro b hm
      obtain ⟨⟨b', own⟩, hb', rfl⟩ := List.mem_map.mp hm
      obtain ⟨hb', hword⟩ := List.of_mem_zip hb'
      obtain ⟨_, hexpr, hty⟩ := hl.binding_spec hb'
      exact ⟨hown own hword, back.printable_expr hexpr, hty⟩
  refine ⟨h.verified, ?_, h.numbered, h.name ▸ hname, ?_, fun b hm => (hbindings b hm).2.1,
    fun p hp => (hparams p hp).2, fun b hm => (hbindings b hm).2.2⟩
  · rw [← List.length_pos_iff, h.region]
    exact Nat.one_pos
  · rw [Function.valueNames, List.forall_mem_append]
    constructor
    · intro own hm
      obtain ⟨p, hp, rfl⟩ := List.mem_map.mp hm
      exact (hparams p hp).1
    · intro own hm
      obtain ⟨b, hb, rfl⟩ := List.mem_map.mp hm
      exact (hbindings b hb).1

/-- **Appending a loss keeps functions printable**, under a word for the new name. -/
theorem Function.Printable.of_appendLoss {m : Module} {backboneName : String}
    {backbone loss c : Function} {count : Nat} {newName : Option String}
    (hget : m.get? backboneName = some backbone) (hb : backbone.Printable) (hl : loss.Printable)
    (hname : ∀ name ∈ newName, IsWord name)
    (h : m.appendLoss backboneName loss count newName = .ok c) : c.Printable := by
  obtain ⟨backbone', outputs, target, hget', hfits, _, rfl⟩ := Module.appendLoss_eq_ok_iff.mp h
  obtain rfl := Option.some.inj (hget.symm.trans hget')
  have hword : IsWord (lossName backboneName newName) := by
    cases newName with
    | none =>
      have hsuffix : IsWord "_loss" := by decide
      exact (Module.name_of_get? hget ▸ hb.name).append hsuffix.chars
    | some name => exact hname name rfl
  refine (Composition.composed_spliceLoss hfits _).printable hb hl hword ?_
  rw [Composition.restNames_append_bindingNames]
  refine NameSupply.isWord_freshAll ?_
  rw [Composition.hints, List.forall_mem_append]
  constructor
  · intro hint hm
    obtain ⟨p, hp, rfl⟩ := List.mem_map.mp hm
    exact hl.readable.isWord_param (List.mem_of_mem_drop hp)
  · intro hint hm
    obtain ⟨b, hb, rfl⟩ := List.mem_map.mp hm
    exact (hl.binding_spec hb).1

/-! ## Reading back -/

/-- **What is transformed can be printed and read.** A gradient of a printable function that a
machine holds, and a printable loss behind a printable backbone, under a word if a name is given,
are printable, and from their text forms they are read back as they are. -/
theorem Function.ofText_render_transformed :
    (∀ (f g : Function) (request : Option (List ValueId)), f.Printable → f.Storable →
      f.differentiate .builtinOnly .standard request = .ok g →
        g.Printable ∧ Function.ofText g.render = .ok g) ∧
    ∀ (m : Module) (backboneName : String) (backbone loss c : Function) (count : Nat)
      (newName : Option String), m.get? backboneName = some backbone → backbone.Printable →
        loss.Printable → (∀ name ∈ newName, IsWord name) →
          m.appendLoss backboneName loss count newName = .ok c →
            c.Printable ∧ Function.ofText c.render = .ok c := by
  constructor
  · intro f g request hf hs h
    have hsuffix : IsWord GradientConfig.standard.suffix := by decide
    have htemp : IsWord GradientConfig.standard.temp := by decide
    have hg := hf.of_differentiate hs hsuffix htemp h
    exact ⟨hg, ofText_render hg⟩
  · intro m backboneName backbone loss c count newName hget hb hl hname h
    have hc := Printable.of_appendLoss hget hb hl hname h
    exact ⟨hc, ofText_render hc⟩

/-- The gradient of the probed squares, whose names of adjoints are taken in part, and the loss
behind the backbone whose names it has. -/
theorem Function.ofText_render_probedSquares :
    probedSquares.Printable ∧ probedSquares.Storable ∧
      (∃ g, probedSquares.differentiate .builtinOnly .standard none = .ok g ∧ g.Printable ∧
        Function.ofText g.render = .ok g) ∧
      Module.doubling.Printable ∧ Module.offset.Printable ∧
      ∃ c, Module.appendLoss ⟨currentVersion, [Module.doubling]⟩ "doubling" Module.offset 1
          (some "step") = .ok c ∧ c.Printable ∧ Function.ofText c.render = .ok c := by
  obtain ⟨hgradient, hloss⟩ := ofText_render_transformed
  have hf : probedSquares.Printable := by decide +kernel
  have hs : probedSquares.Storable := by decide +kernel
  have hb : Module.doubling.Printable := by decide +kernel
  have hl : Module.offset.Printable := by decide +kernel
  obtain ⟨g, hg⟩ : ∃ g, probedSquares.differentiate .builtinOnly .standard none = .ok g :=
    exists_eq_ok_of_isOk (by decide +kernel)
  obtain ⟨c, hc⟩ : ∃ c, Module.appendLoss ⟨currentVersion, [Module.doubling]⟩ "doubling"
      Module.offset 1 (some "step") = .ok c := exists_eq_ok_of_isOk (by decide +kernel)
  have hword : ∀ name ∈ some "step", IsWord name := by
    rintro _ ⟨⟩
    decide
  exact ⟨hf, hs, ⟨g, hg, hgradient _ g none hf hs hg⟩, hb, hl, c, hc,
    hloss _ "doubling" Module.doubling Module.offset c 1 (some "step") rfl hb hl hword hc⟩

end TensorGraph
