/-
# TensorGraph.Proofs.Copies -- copies keep types, numbers and names

A remap that sends every value of a context to a value of the same type in another context turns
an expression into one of the same type (`Remap.Places.hasType_expr`). A splice that starts from a
sound builder therefore stays sound while it copies parameters and accepted bindings, and numbers
its values in order of definition (`Splice.Carries`). At the end the copies are described by the
last remap alone, since values that are placed later are none of those that were read before
(`Splice.copiedBindings_eq`), and they have the names that a supply gives for the names asked for.
-/
import TensorGraph.Proofs.Mirror
import TensorGraph.Proofs.Naming

namespace TensorGraph

/-! ## Types of copies -/

namespace Remap

/-- **`Places`** -- every value of a context has a place of the same type in another. -/
def Places (placed : Remap) (s t : Context) : Prop :=
  ∀ id ty, s.typeOf? id = some ty → ∃ copy, placed.get? id = some copy ∧ t.typeOf? copy = some ty

variable {placed later : Remap} {s t : Context}

theorem places_nil : placed.Places [] t := by
  intro id ty h
  cases h

theorem Places.typeOf?_value (h : placed.Places s t) {id : ValueId} {ty : ValueType}
    (hid : s.typeOf? id = some ty) : t.typeOf? (placed.value id) = some ty := by
  obtain ⟨copy, hc, ht⟩ := h id ty hid
  rw [value, hc, Option.getD_some, ht]

theorem Places.append (h : placed.Places s t) (u : Context) : placed.Places s (t ++ u) := by
  intro id ty hid
  obtain ⟨copy, hc, ht⟩ := h id ty hid
  exact ⟨copy, hc, Context.typeOf?_append_of_eq_some u ht⟩

/-- A value that is new gets a place. -/
theorem Places.insert (h : placed.Places s t) {id copy : ValueId} (hid : id ∉ s.ids)
    {ty : ValueType} (hcopy : t.typeOf? copy = some ty) :
    (placed.insert id copy).Places (s ++ [(id, ty)]) t := by
  intro other ty' ho
  rw [Context.typeOf?_append_singleton hid] at ho
  rw [get?_insert]
  split at ho
  · next he =>
    cases ho
    exact ⟨copy, if_pos he, hcopy⟩
  · next he =>
    rw [if_neg he]
    exact h other ty' ho

theorem Places.type?_operand (h : placed.Places s t) {x : Operand} {ty : ValueType}
    (hx : x.type? s.typeOf? = some ty) : (placed.operand x).type? t.typeOf? = some ty := by
  cases x with
  | value id => exact h.typeOf?_value hx
  | tupleElement tuple index =>
    obtain ⟨elements, ht, he⟩ := Operand.type?_tupleElement hx
    rw [operand, Operand.type?, h.typeOf?_value ht]
    exact he
  | literal constant => exact hx

mutual

theorem Places.type?_field (h : placed.Places s t) (field : TupleField) {ty : ValueType}
    (hf : field.type? s.typeOf? = some ty) : (placed.field field).type? t.typeOf? = some ty := by
  cases field with
  | operand x => exact h.type?_operand hf
  | tuple fields =>
    obtain ⟨tys, hfs, rfl⟩ := TupleField.type?_tuple_eq_some_iff.mp hf
    exact TupleField.type?_tuple_eq_some_iff.mpr ⟨tys, h.types?_fields fields hfs, rfl⟩

theorem Places.types?_fields (h : placed.Places s t) (fields : List TupleField)
    {tys : List ValueType} (hf : TupleField.types? s.typeOf? fields = some tys) :
    TupleField.types? t.typeOf? (placed.fields fields) = some tys := by
  cases fields with
  | nil => exact hf
  | cons field rest =>
    obtain ⟨ty, tys', hx, hr, rfl⟩ := TupleField.types?_cons_eq_some_iff.mp hf
    exact TupleField.types?_cons_eq_some_iff.mpr
      ⟨ty, tys', h.type?_field field hx, h.types?_fields rest hr, rfl⟩

end

/-- **A copied expression** has the type of the expression. -/
theorem Places.hasType_expr (h : placed.Places s t) {e : Expr} {ty : ValueType}
    (he : e.HasType s.typeOf? ty) : (placed.expr e).HasType t.typeOf? ty := by
  cases e with
  | call op operands =>
    obtain ⟨tys, hx, hop⟩ := he
    exact ⟨tys, List.forall₂_map_left_iff.mpr (hx.imp fun _ _ => h.type?_operand), hop⟩
  | tuple fields =>
    obtain ⟨tys, hf, rfl⟩ := he
    exact ⟨tys, h.types?_fields fields hf, rfl⟩
  | tupleGet tuple index =>
    have hx : (Operand.tupleElement tuple index).type? s.typeOf? = some ty := he
    exact h.type?_operand hx
  | «alias» x =>
    have hx : x.type? s.typeOf? = some ty := he
    exact h.type?_operand hx

/-! ## What a remap depends on -/

theorem operand_congr {x : Operand}
    (h : ∀ id, x.value? = some id → placed.value id = later.value id) :
    placed.operand x = later.operand x := by
  cases x with
  | value id => rw [operand, operand, h id rfl]
  | tupleElement tuple index => rw [operand, operand, h tuple rfl]
  | literal constant => rfl

mutual

theorem field_congr (field : TupleField)
    (h : ∀ id ∈ field.values, placed.value id = later.value id) :
    placed.field field = later.field field := by
  cases field with
  | operand x =>
    refine congrArg _ (operand_congr fun id hid => h id ?_)
    rw [TupleField.values, hid]
    exact List.mem_singleton.mpr rfl
  | tuple fields => exact congrArg _ (fields_congr fields h)

theorem fields_congr (fields : List TupleField)
    (h : ∀ id ∈ TupleField.valuesList fields, placed.value id = later.value id) :
    placed.fields fields = later.fields fields := by
  cases fields with
  | nil => rfl
  | cons field rest =>
    rw [TupleField.valuesList, List.forall_mem_append] at h
    rw [Remap.fields, Remap.fields, field_congr field h.1, fields_congr rest h.2]

end

/-- **A copied expression** depends on the places of the values that are read. -/
theorem expr_congr {e : Expr} (h : ∀ id ∈ e.values, placed.value id = later.value id) :
    placed.expr e = later.expr e := by
  cases e with
  | call op operands =>
    refine congrArg _ (List.map_congr_left fun x hx => operand_congr fun id hid => h id ?_)
    exact List.mem_filterMap.mpr ⟨x, hx, hid⟩
  | tuple fields => exact congrArg _ (fields_congr fields h)
  | tupleGet tuple index => rw [expr, expr, h tuple (List.mem_singleton.mpr rfl)]
  | «alias» x =>
    refine congrArg _ (operand_congr fun id hid => h id ?_)
    rw [Expr.values, hid]
    exact List.mem_singleton.mpr rfl

/-! ## Copies -/

/-- A parameter at its place, under a name. -/
def copyParam (placed : Remap) (p : Param) (name : String) : Param :=
  ⟨placed.value p.id, name, p.ty⟩

/-- A binding at its place, under a name. -/
def copyBinding (placed : Remap) (b : Binding) (name : String) : Binding :=
  ⟨placed.value b.id, name, placed.expr b.expr, b.ty⟩

end Remap

/-! ## Numbered builders -/

namespace Builder

variable {b : Builder}

/-- **`Numbered`** -- the values are numbered in order, parameters first. -/
def Numbered (b : Builder) : Prop :=
  b.context.ids = (List.range b.nextIndex).map ValueId.mk

theorem numbered_snoc {ids : List ValueId} {n : Nat} (h : ids = (List.range n).map ValueId.mk) :
    ids ++ [⟨n⟩] = (List.range (n + 1)).map ValueId.mk := by
  rw [List.range_succ, List.map_append, ← h]
  rfl

theorem Numbered.bind (h : b.Numbered) (hint : String) (e : Expr) (ty : ValueType) :
    (b.bind hint e ty).2.Numbered := by
  rw [Numbered, context_bind, Context.ids_append]
  exact numbered_snoc h

/-- Seeding counts on where the numbers follow the next one. -/
theorem nextIndex_foldl_seed {β : Type} (key : β → ValueId) (seed : Builder → β → Builder)
    (hseed : ∀ b x, (seed b x).nextIndex = max b.nextIndex ((key x).index + 1)) {xs : List β}
    {b : Builder} (h : xs.map key = (List.range' b.nextIndex xs.length).map ValueId.mk) :
    (xs.foldl seed b).nextIndex = b.nextIndex + xs.length := by
  induction xs generalizing b with
  | nil => rfl
  | cons x xs ih =>
    rw [List.map_cons, List.length_cons, List.range'_succ, List.map_cons] at h
    obtain ⟨hx, hxs⟩ := List.cons.inj h
    have hnext : (seed b x).nextIndex = b.nextIndex + 1 := by
      rw [hseed, hx]
      exact Nat.max_eq_right (Nat.le_succ _)
    rw [List.foldl_cons, ih (hnext ▸ hxs), hnext, List.length_cons]
    omega

/-- **A builder that starts from a numbered function** is numbered. -/
theorem numbered_ofFunction (name : String) {f : Function} {n : Nat}
    (h : f.context.ids = (List.range n).map ValueId.mk) : (ofFunction name f).Numbered := by
  have hn : n = f.params.length + f.bindings.length := by
    have hlen := congrArg List.length h
    simpa [Function.ids_context, Function.paramIds] using hlen.symm
  subst hn
  rw [List.range_eq_range', ← List.range'_append_1, List.map_append, Function.ids_context] at h
  obtain ⟨hparams, hbindings⟩ := List.append_inj h (by simp [Function.paramIds])
  have hstart := nextIndex_foldl_seed Param.id seedParam (fun _ _ => rfl) (b := empty name) hparams
  have hnext : (ofFunction name f).nextIndex = f.params.length + f.bindings.length := by
    rw [ofFunction, nextIndex_foldl_seed Binding.id seedBinding (fun _ _ => rfl), hstart]
    · exact congrArg (· + _) (Nat.zero_add _)
    · rw [hstart, hbindings]
      rfl
  rw [Numbered, context_ofFunction, hnext, Function.ids_context, hparams, hbindings,
    ← List.map_append, List.range'_append_1, ← List.range_eq_range']

theorem context_addParam (hb : b.bindings = []) (hint : String) (ty : ValueType) :
    (b.addParam hint ty).2.context = b.context ++ [(⟨b.nextIndex⟩, ty)] := by
  rw [context, params_addParam, bindings_addParam, context, hb]
  simp [Param.entry]

theorem Numbered.addParam (h : b.Numbered) (hb : b.bindings = []) (hint : String)
    (ty : ValueType) : (b.addParam hint ty).2.Numbered := by
  rw [Numbered, context_addParam hb, Context.ids_append]
  exact numbered_snoc h

/-- **A parameter** may be added as long as there are no bindings. -/
theorem Sound.addParam (h : b.Sound) (hb : b.bindings = []) (hint : String) (ty : ValueType) :
    (b.addParam hint ty).2.Sound := by
  have hcontext := context_addParam hb hint ty
  have hnames : (b.addParam hint ty).2.valueNames = b.valueNames ++ [b.names.choose hint] := by
    rw [valueNames, params_addParam, bindings_addParam, valueNames, hb]
    simp
  refine ⟨?_, ?_, ?_, ?_, ?_⟩
  · rw [params_addParam, List.map_append]
    refine h.params_nodup.append (List.nodup_singleton _) (List.disjoint_singleton.mpr fun hm => ?_)
    have hids : Context.ids (b.params.map Param.entry) = b.params.map Param.id := List.map_map
    refine h.fresh ?_
    rw [context, Context.ids_append, hids]
    exact List.mem_append_left _ hm
  · rw [bindings_addParam, hb]
    trivial
  · rw [hcontext, nextIndex_addParam]
    exact h.bounded_concat ty
  · rw [hnames]
    exact NameSupply.nodup_concat_choose h.names_nodup h.taken hint
  · rw [hnames]
    exact NameSupply.isTaken_take_choose h.taken hint

theorem sound_empty (name : String) : (empty name).Sound :=
  ⟨List.nodup_nil, trivial, fun _ h => absurd h List.not_mem_nil, List.nodup_nil,
    fun _ h => absurd h List.not_mem_nil⟩

theorem numbered_empty (name : String) : (empty name).Numbered := rfl

end Builder

/-- A function whose values are numbered in order has as many numbers as values. -/
theorem Function.numbered_of_ids {f : Function} {n : Nat}
    (h : f.context.ids = (List.range n).map ValueId.mk) :
    f.paramIds ++ f.bindings.map Binding.id =
      (List.range (f.params.length + f.bindings.length)).map ValueId.mk := by
  have hlen := congrArg List.length h
  rw [ids_context, List.length_append, paramIds, List.length_map, List.length_map,
    List.length_map, List.length_range] at hlen
  rw [← ids_context, h, hlen]

/-! ## Splices that carry a context -/

namespace Splice

/-- **`Carries`** -- a splice whose builder is sound and numbered, and in which every value of a
context has a place of its type. -/
structure Carries (s : Splice) (source : Context) : Prop where
  /-- The builder holds a well-formed body. -/
  sound : s.builder.Sound
  /-- Its values are numbered in order. -/
  numbered : s.builder.Numbered
  /-- Values of the source have places. -/
  places : s.placed.Places source s.builder.context

variable {s : Splice} {source : Context}

theorem Carries.addParam (h : s.Carries source) (hb : s.builder.bindings = []) {p : Param}
    (hid : p.id ∉ source.ids) (name : String) :
    (s.addParam p name).Carries (source ++ [p.entry]) := by
  have hsound := h.sound.addParam hb name p.ty
  have hcontext := Builder.context_addParam hb name p.ty
  refine ⟨hsound, h.numbered.addParam hb name p.ty, ?_⟩
  refine Remap.Places.insert (t := (s.builder.addParam name p.ty).2.context) ?_ hid ?_
  · rw [hcontext]
    exact h.places.append _
  · rw [hcontext, Context.typeOf?_append_singleton h.sound.fresh, if_pos rfl]

theorem Carries.addBinding (h : s.Carries source) {b : Binding} (hid : b.id ∉ source.ids)
    (ht : b.expr.HasType source.typeOf? b.ty) (name : String) :
    (s.addBinding b name).Carries (source ++ [b.entry]) := by
  have hexpr := h.places.hasType_expr ht
  refine ⟨h.sound.bind name hexpr, h.numbered.bind name _ b.ty, ?_⟩
  refine Remap.Places.insert (t := (s.builder.bind name _ b.ty).2.context) ?_ hid
    (Builder.typeOf?_bind_self h.sound name _ b.ty)
  rw [Builder.context_bind]
  exact h.places.append _

/-- **Copying parameters** carries them. -/
theorem Carries.addParams (h : s.Carries source) (hb : s.builder.bindings = [])
    (ps : List (Param × String)) (hn : (source.ids ++ (ps.map Prod.fst).map Param.id).Nodup) :
    (s.addParams ps).Carries (source ++ (ps.map Prod.fst).map Param.entry) := by
  induction ps generalizing s source with
  | nil => simpa [Splice.addParams] using h
  | cons p ps ih =>
    obtain ⟨p, name⟩ := p
    have hid : p.id ∉ source.ids := fun hm =>
      (List.disjoint_of_nodup_append hn) hm List.mem_cons_self
    have hn' : (Context.ids (source ++ [p.entry]) ++ (ps.map Prod.fst).map Param.id).Nodup := by
      rw [Context.ids_append, List.append_assoc]
      exact hn
    have hrest := ih (h.addParam hb hid name) hb hn'
    rw [List.append_assoc, List.singleton_append] at hrest
    exact hrest

/-- **Copying accepted bindings** carries them. -/
theorem Carries.addBindings (h : s.Carries source) (bs : List (Binding × String))
    (hacc : source.Accepts (bs.map Prod.fst)) :
    (s.addBindings bs).Carries (source ++ (bs.map Prod.fst).map Binding.entry) := by
  induction bs generalizing s source with
  | nil => simpa [Splice.addBindings] using h
  | cons b bs ih =>
    obtain ⟨b, name⟩ := b
    obtain ⟨hid, ht, hrest⟩ := hacc
    have hlater := ih (h.addBinding hid ht name) hrest
    rw [List.append_assoc, List.singleton_append] at hlater
    exact hlater

/-! ## What later copies leave alone -/

theorem exists_context_addParams (s : Splice) (hb : s.builder.bindings = [])
    (ps : List (Param × String)) :
    ∃ more, (s.addParams ps).builder.context = s.builder.context ++ more := by
  refine ⟨(s.copiedParams ps).map Param.entry, ?_⟩
  rw [Builder.context, params_addParams, bindings_addParams, Builder.context, hb]
  simp

theorem exists_context_addBindings (s : Splice) (bs : List (Binding × String)) :
    ∃ more, (s.addBindings bs).builder.context = s.builder.context ++ more := by
  refine ⟨(s.copiedBindings bs).map Binding.entry, ?_⟩
  rw [Builder.context, params_addBindings, bindings_addBindings, List.map_append,
    ← List.append_assoc, Builder.context]

theorem get?_addParams_of_notMem (s : Splice) {ps : List (Param × String)} {id : ValueId}
    (h : id ∉ (ps.map Prod.fst).map Param.id) :
    (s.addParams ps).placed.get? id = s.placed.get? id := by
  induction ps generalizing s with
  | nil => rfl
  | cons p ps ih =>
    rw [List.map_cons, List.map_cons, List.mem_cons, not_or] at h
    refine (ih (s.addParam p.1 p.2) h.2).trans ?_
    exact (Remap.get?_insert s.placed p.1.id _ id).trans (if_neg h.1)

theorem get?_addBindings_of_notMem (s : Splice) {bs : List (Binding × String)} {id : ValueId}
    (h : id ∉ (bs.map Prod.fst).map Binding.id) :
    (s.addBindings bs).placed.get? id = s.placed.get? id := by
  induction bs generalizing s with
  | nil => rfl
  | cons b bs ih =>
    rw [List.map_cons, List.map_cons, List.mem_cons, not_or] at h
    refine (ih (s.addBinding b.1 b.2) h.2).trans ?_
    exact (Remap.get?_insert s.placed b.1.id _ id).trans (if_neg h.1)

/-! ## Copies by the last remap -/

/-- **Copied parameters** stand at their places, under names that the supply gives. -/
theorem copiedParams_eq (s : Splice) {ps : List (Param × String)}
    (hn : ((ps.map Prod.fst).map Param.id).Nodup) :
    s.copiedParams ps = ((ps.map Prod.fst).zip (s.builder.names.freshAll (ps.map Prod.snd)).1).map
      fun (p, name) => (s.addParams ps).placed.copyParam p name := by
  induction ps generalizing s with
  | nil => rfl
  | cons p ps ih =>
    obtain ⟨p, name⟩ := p
    obtain ⟨hp, hps⟩ := List.nodup_cons.mp hn
    have hplace : (s.addParams ((p, name) :: ps)).placed.value p.id = ⟨s.builder.nextIndex⟩ := by
      have hlater := get?_addParams_of_notMem (s.addParam p name) hp
      rw [show s.addParams ((p, name) :: ps) = (s.addParam p name).addParams ps from rfl,
        Remap.value, hlater]
      exact Remap.value_insert_self _ _ _
    rw [copiedParams, ih (s.addParam p name) hps, List.map_cons, List.map_cons,
      NameSupply.freshAll_cons, List.zip_cons_cons, List.map_cons]
    dsimp only
    rw [Remap.copyParam, hplace]
    rfl

/-- **Copied bindings** stand at their places and read what they read there: what is placed later
is none of what they read. -/
theorem copiedBindings_eq (s : Splice) {source : Context} {bs : List (Binding × String)}
    (hacc : source.Accepts (bs.map Prod.fst)) (hn : source.ids.Nodup) :
    s.copiedBindings bs =
      ((bs.map Prod.fst).zip (s.builder.names.freshAll (bs.map Prod.snd)).1).map
        fun (b, name) => (s.addBindings bs).placed.copyBinding b name := by
  induction bs generalizing s source with
  | nil => rfl
  | cons b bs ih =>
    obtain ⟨b, name⟩ := b
    have hnodup := Context.Accepts.nodup hacc hn
    obtain ⟨hid, ht, hrest⟩ := hacc
    have hn' : (Context.ids (source ++ [b.entry])).Nodup := by
      rw [Context.ids_append]
      exact hn.append (List.nodup_singleton _) (List.disjoint_singleton.mpr hid)
    rw [Context.ids_append, Context.ids_map_entry, List.map_cons, List.map_cons] at hnodup
    have hb : b.id ∉ (bs.map Prod.fst).map Binding.id :=
      (List.nodup_cons.mp (List.nodup_append.mp hnodup).2.1).1
    have hplace : (s.addBindings ((b, name) :: bs)).placed.value b.id = ⟨s.builder.nextIndex⟩ := by
      have hlater := get?_addBindings_of_notMem (s.addBinding b name) hb
      rw [show s.addBindings ((b, name) :: bs) = (s.addBinding b name).addBindings bs from rfl,
        Remap.value, hlater]
      exact Remap.value_insert_self _ _ _
    have hexpr : (s.addBindings ((b, name) :: bs)).placed.expr b.expr = s.placed.expr b.expr := by
      refine Remap.expr_congr fun id hid' => ?_
      have hsource : id ∈ source.ids := Context.isSome_typeOf?.mp (ht.isSome id hid')
      have hlater : id ∉ (((b, name) :: bs).map Prod.fst).map Binding.id := fun hm =>
        (List.disjoint_of_nodup_append hnodup) hsource hm
      rw [Remap.value, Remap.value, get?_addBindings_of_notMem s hlater]
    rw [copiedBindings, ih (s.addBinding b name) hrest hn', List.map_cons, List.map_cons,
      NameSupply.freshAll_cons, List.zip_cons_cons, List.map_cons]
    dsimp only
    rw [Remap.copyBinding, hplace, hexpr]
    rfl

/-! ## Names of copies -/

/-- Parameters take the names that the supply gives for them. -/
theorem names_addParams (s : Splice) (ps : List (Param × String)) :
    (s.addParams ps).builder.names = (s.builder.names.freshAll (ps.map Prod.snd)).2 := by
  induction ps generalizing s with
  | nil => rfl
  | cons p ps ih => exact ih (s.addParam p.1 p.2)

/-- Bindings take the names that the supply gives for them. -/
theorem names_addBindings (s : Splice) (bs : List (Binding × String)) :
    (s.addBindings bs).builder.names = (s.builder.names.freshAll (bs.map Prod.snd)).2 := by
  induction bs generalizing s with
  | nil => rfl
  | cons b bs ih => exact ih (s.addBinding b.1 b.2)

end Splice

end TensorGraph
