/-
# TensorGraph.Proofs.WellFormed -- what the verifier decides

`Function.WellFormed` states without an index and without an order of checks what a
verified function is: parameters are distinct, the context of the parameters accepts the
bindings, names are distinct, regions expose parameters or bindings of their own, and what
is returned is exposed. `verify_eq_ok_iff` says that the verifier decides exactly this.

The index enters through its outline, that is identities, types and places of definition;
recording uses changes no outline.
-/
import TensorGraph.Proofs.Context

namespace TensorGraph

/-! ## The outline of an index -/

namespace FunctionIndex

/-- Identities, types and places of definition. -/
def outline (ix : FunctionIndex) : List (ValueId × ValueType × Definition) :=
  ix.entries.map fun e => (e.id, e.ty, e.definition)

/-- The values of an index. -/
def ids (ix : FunctionIndex) : List ValueId := ix.outline.map Prod.fst

/-- The values of an index with their types. -/
def context (ix : FunctionIndex) : Context := ix.outline.map fun o => (o.1, o.2.1)

theorem ids_eq_map (ix : FunctionIndex) : ix.ids = ix.entries.map IndexEntry.id := List.map_map

theorem ids_context (ix : FunctionIndex) : ix.context.ids = ix.ids := by
  rw [context, Context.ids, List.map_map, ids]
  rfl

theorem isSome_entryOf? {ix : FunctionIndex} {id : ValueId} :
    (ix.entryOf? id).isSome ↔ id ∈ ix.ids := by
  rw [entryOf?, List.find?_isSome, ids_eq_map, List.mem_map]
  exact exists_congr fun e => and_congr_right fun _ => beq_iff_eq

private theorem map_find?_eq_lookup {β : Type} (g : IndexEntry → β) (es : List IndexEntry)
    (id : ValueId) :
    (es.find? fun e => e.id == id).map g = (es.map fun e => (e.id, g e)).lookup id := by
  induction es with
  | nil => rfl
  | cons e es ih =>
    rw [List.find?_cons, List.map_cons, List.lookup_cons]
    by_cases h : e.id = id
    · rw [beq_iff_eq.mpr h, beq_iff_eq.mpr h.symm]
      rfl
    · have h' : ¬id = e.id := fun h' => h h'.symm
      rw [beq_false_of_ne h, beq_false_of_ne h']
      exact ih

/-- The type of a value is read off the context of the index. -/
theorem typeOf?_eq (ix : FunctionIndex) : ix.typeOf? = ix.context.typeOf? := by
  funext id
  rw [typeOf?, entryOf?, map_find?_eq_lookup, context, outline, List.map_map]
  rfl

/-- The place of definition is read off the outline. -/
theorem definitionOf?_eq (ix : FunctionIndex) (id : ValueId) :
    ix.definitionOf? id = (ix.outline.map fun o => (o.1, o.2.2)).lookup id := by
  rw [definitionOf?, entryOf?, map_find?_eq_lookup, outline, List.map_map]
  rfl

/-- **A lookup** of what the index keeps for a value gives that of its entry. -/
theorem lookup_outline_eq_some_iff {β : Type} {ix : FunctionIndex} (hn : ix.ids.Nodup)
    (kept : ValueType × Definition → β) {id : ValueId} {x : β} :
    (ix.outline.map fun o => (o.1, kept o.2)).lookup id = some x ↔
      ∃ ty d, (id, ty, d) ∈ ix.outline ∧ kept (ty, d) = x := by
  rw [lookup_eq_some_iff (by rw [List.map_map]; exact hn), List.mem_map]
  constructor
  · rintro ⟨⟨_, ty, d⟩, hm, he⟩
    cases he
    exact ⟨ty, d, hm, rfl⟩
  · rintro ⟨ty, d, hm, rfl⟩
    exact ⟨_, hm, rfl⟩

theorem definitionOf?_eq_some_iff_mem {ix : FunctionIndex} (hn : ix.ids.Nodup) {id : ValueId}
    {d : Definition} : ix.definitionOf? id = some d ↔ ∃ ty, (id, ty, d) ∈ ix.outline := by
  rw [definitionOf?_eq, lookup_outline_eq_some_iff hn Prod.snd]
  simp

theorem typeOf?_eq_some_iff_mem {ix : FunctionIndex} (hn : ix.ids.Nodup) {id : ValueId}
    {ty : ValueType} : ix.typeOf? id = some ty ↔ ∃ d, (id, ty, d) ∈ ix.outline := by
  rw [typeOf?_eq, Context.typeOf?, context, lookup_outline_eq_some_iff hn Prod.fst]
  simp

/-! ## Steps of building -/

theorem define_eq_ok_iff {ix ix' : FunctionIndex} {id : ValueId} {ty : ValueType}
    {d : Definition} :
    ix.define id ty d = .ok ix' ↔ id ∉ ix.ids ∧ ix' = ⟨ix.entries ++ [⟨id, ty, d, []⟩]⟩ := by
  rw [define]
  by_cases h : (ix.entryOf? id).isSome
  · rw [if_pos h]
    simp [isSome_entryOf?.mp h]
  · rw [if_neg h]
    exact ⟨fun e => ⟨fun hm => h (isSome_entryOf?.mpr hm), (Except.ok.inj e).symm⟩,
      fun e => congrArg _ e.2.symm⟩

theorem outline_define {ix ix' : FunctionIndex} {id : ValueId} {ty : ValueType}
    {d : Definition} (h : ix.define id ty d = .ok ix') :
    ix'.outline = ix.outline ++ [(id, ty, d)] := by
  rw [(define_eq_ok_iff.mp h).2, outline, List.map_append]
  rfl

/-- Recording a use changes no outline. -/
theorem outline_use {ix ix' : FunctionIndex} {pos : BindingPos} {id : ValueId}
    (h : ix.use pos id = .ok ix') : id ∈ ix.ids ∧ ix'.outline = ix.outline := by
  rw [use] at h
  by_cases hs : (ix.entryOf? id).isSome
  · rw [if_pos hs] at h
    refine ⟨isSome_entryOf?.mp hs, ?_⟩
    rw [← Except.ok.inj h, outline, outline, List.map_map]
    apply List.map_congr_left
    intro e _
    show (fun e : IndexEntry => (e.id, e.ty, e.definition)) (if _ then _ else _) = _
    split <;> rfl
  · rw [if_neg hs] at h
    simp at h

theorem exists_use {ix : FunctionIndex} (pos : BindingPos) {id : ValueId} (h : id ∈ ix.ids) :
    ∃ ix', ix.use pos id = .ok ix' := by
  rw [use, if_pos (isSome_entryOf?.mpr h)]
  exact ⟨_, rfl⟩

theorem outline_uses {ix ix' : FunctionIndex} {pos : BindingPos} {vs : List ValueId}
    (h : vs.foldlM (fun ix id => ix.use pos id) ix = .ok ix') :
    (∀ id ∈ vs, id ∈ ix.ids) ∧ ix'.outline = ix.outline := by
  induction vs generalizing ix with
  | nil =>
    cases h
    exact ⟨fun _ hid => absurd hid List.not_mem_nil, rfl⟩
  | cons v vs ih =>
    obtain ⟨ix₁, h₁, h₂⟩ := foldlM_cons_eq_ok_iff.mp h
    obtain ⟨hv, ho⟩ := outline_use h₁
    obtain ⟨hvs, ho'⟩ := ih h₂
    have hids : ix₁.ids = ix.ids := congrArg (List.map Prod.fst) ho
    rw [hids] at hvs
    exact ⟨List.forall_mem_cons.mpr ⟨hv, hvs⟩, ho'.trans ho⟩

theorem exists_uses {ix : FunctionIndex} (pos : BindingPos) {vs : List ValueId}
    (h : ∀ id ∈ vs, id ∈ ix.ids) :
    ∃ ix', vs.foldlM (fun ix id => ix.use pos id) ix = .ok ix' := by
  obtain ⟨ix', h', _⟩ := exists_foldlM_eq_ok (fun ix' => ix'.ids = ix.ids) (b := ix) (l := vs)
    (f := fun ix id => ix.use pos id) rfl
    (fun ix₁ h₁ v hv => by
      have hv₁ : v ∈ ix₁.ids := h₁ ▸ h v hv
      obtain ⟨ix₂, h₂⟩ := exists_use pos hv₁
      exact ⟨ix₂, h₂, (congrArg (List.map Prod.fst) (outline_use h₂).2).trans h₁⟩)
  exact ⟨ix', h'⟩

theorem addBinding_eq_ok {ix ix' : FunctionIndex} {pos : BindingPos} {b : Binding}
    (h : ix.addBinding pos b = .ok ix') :
    (∀ id ∈ b.expr.values, id ∈ ix.ids) ∧ b.id ∉ ix.ids ∧
      ix'.outline = ix.outline ++ [(b.id, b.ty, .binding pos)] := by
  obtain ⟨ix₁, h₁, h₂⟩ := bind_eq_ok_iff.mp h
  obtain ⟨hv, ho⟩ := outline_uses h₁
  have hids : ix₁.ids = ix.ids := congrArg (List.map Prod.fst) ho
  refine ⟨hv, hids ▸ (define_eq_ok_iff.mp h₂).1, ?_⟩
  rw [outline_define h₂, ho]

theorem exists_addBinding {ix : FunctionIndex} (pos : BindingPos) {b : Binding}
    (hv : ∀ id ∈ b.expr.values, id ∈ ix.ids) (hb : b.id ∉ ix.ids) :
    ∃ ix', ix.addBinding pos b = .ok ix' := by
  obtain ⟨ix₁, h₁⟩ := exists_uses pos hv
  have hids : ix₁.ids = ix.ids := congrArg (List.map Prod.fst) (outline_uses h₁).2
  exact ⟨_, bind_eq_ok_iff.mpr ⟨ix₁, h₁, define_eq_ok_iff.mpr ⟨hids ▸ hb, rfl⟩⟩⟩

/-! ## The index of a function -/

theorem map_snd_positions (f : Function) : (positions f).map Prod.snd = f.bindings := by
  rw [positions, List.map_flatMap, Function.bindings]
  have h : ∀ (rs : List Region) (n : Nat),
      (rs.zipIdx n).flatMap (fun r => ((r.1.bindings.zipIdx.map fun x =>
        ((⟨r.2, x.2⟩ : BindingPos), x.1))).map Prod.snd) = rs.flatMap Region.bindings := by
    intro rs
    induction rs with
    | nil => intro n; rfl
    | cons r rs ih =>
      intro n
      rw [List.zipIdx_cons, List.flatMap_cons, List.flatMap_cons, ih, List.map_map]
      congr 1
      exact List.zipIdx_map_fst 0 r.bindings
  exact h f.regions 0

/-- The binding of a region stands in that region. -/
theorem mem_positions_iff {f : Function} {pos : BindingPos} {b : Binding} :
    (pos, b) ∈ positions f ↔
      ∃ r, f.regions[pos.region]? = some r ∧ r.bindings[pos.index]? = some b := by
  obtain ⟨region, index⟩ := pos
  rw [positions, List.mem_flatMap]
  constructor
  · rintro ⟨⟨r, k⟩, hr, hb⟩
    obtain ⟨⟨b', i⟩, hb', he⟩ := List.mem_map.mp hb
    cases he
    exact ⟨r, List.mem_zipIdx_iff_getElem?.mp hr, List.mem_zipIdx_iff_getElem?.mp hb'⟩
  · rintro ⟨r, hr, hb⟩
    exact ⟨(r, region), List.mem_zipIdx_iff_getElem?.mpr hr,
      List.mem_map.mpr ⟨(b, index), List.mem_zipIdx_iff_getElem?.mpr hb, rfl⟩⟩

private theorem map_zipIdx_fst {β : Type} (g : Param → β) (ps : List Param) :
    ps.zipIdx.map (fun p => g p.1) = ps.map g := by
  have h := congrArg (List.map g) (List.zipIdx_map_fst 0 ps)
  rwa [List.map_map] at h

/-- Bindings that read known values and define new ones. -/
def Sequenced (known : List ValueId) : List Binding → Prop
  | [] => True
  | b :: rest =>
    (∀ id ∈ b.expr.values, id ∈ known) ∧ b.id ∉ known ∧ Sequenced (known ++ [b.id]) rest

theorem Sequenced.nodup {known : List ValueId} {bs : List Binding} (hs : Sequenced known bs)
    (hk : known.Nodup) : (known ++ bs.map Binding.id).Nodup := by
  induction bs generalizing known with
  | nil => rwa [List.map_nil, List.append_nil]
  | cons b bs ih =>
    obtain ⟨_, hb, hs⟩ := hs
    have := ih hs (hk.append (List.nodup_singleton _) (List.disjoint_singleton.mpr hb))
    rwa [List.append_assoc, List.singleton_append] at this

/-- A binding in sequence reads what is known or bound before it. -/
theorem Sequenced.reads {known : List ValueId} {bs cs : List Binding} {b : Binding}
    (h : Sequenced known (bs ++ b :: cs)) :
    ∀ id ∈ b.expr.values, id ∈ known ++ bs.map Binding.id := by
  induction bs generalizing known with
  | nil => simpa using h.1
  | cons b' bs ih =>
    obtain ⟨-, -, hrest⟩ := h
    have := ih hrest
    rwa [List.append_assoc, List.singleton_append] at this

/-- One more binding that reads what is known and defines what is new. -/
theorem Sequenced.concat {known : List ValueId} {bs : List Binding} {b : Binding}
    (hs : Sequenced known bs) (hreads : ∀ id ∈ b.expr.values, id ∈ known ++ bs.map Binding.id)
    (hnew : b.id ∉ known ++ bs.map Binding.id) : Sequenced known (bs ++ [b]) := by
  induction bs generalizing known with
  | nil =>
    rw [List.map_nil, List.append_nil] at hreads hnew
    exact ⟨hreads, hnew, trivial⟩
  | cons b' bs ih =>
    obtain ⟨hreads', hnew', hs⟩ := hs
    rw [List.map_cons, List.append_cons] at hreads hnew
    exact ⟨hreads', hnew', ih hs hreads hnew⟩

/-- The outline of the index that a function has. -/
def outlineOf (f : Function) : List (ValueId × ValueType × Definition) :=
  (f.params.zipIdx.map fun (p, index) => (p.id, p.ty, .param index)) ++
    (positions f).map fun (pos, b) => (b.id, b.ty, .binding pos)

theorem mem_outlineOf_param {f : Function} {id : ValueId} {ty : ValueType} {index : Nat} :
    (id, ty, .param index) ∈ outlineOf f ↔
      ∃ p, f.params[index]? = some p ∧ p.id = id ∧ p.ty = ty := by
  rw [outlineOf, List.mem_append, List.mem_map, List.mem_map]
  constructor
  · rintro (⟨⟨p, _⟩, hp, he⟩ | ⟨_, _, he⟩)
    · cases he
      exact ⟨p, List.mem_zipIdx_iff_getElem?.mp hp, rfl, rfl⟩
    · cases he
  · rintro ⟨p, hp, rfl, rfl⟩
    exact .inl ⟨(p, index), List.mem_zipIdx_iff_getElem?.mpr hp, rfl⟩

theorem mem_outlineOf_binding {f : Function} {id : ValueId} {ty : ValueType} {pos : BindingPos} :
    (id, ty, .binding pos) ∈ outlineOf f ↔
      ∃ b, (pos, b) ∈ positions f ∧ b.id = id ∧ b.ty = ty := by
  rw [outlineOf, List.mem_append, List.mem_map, List.mem_map]
  constructor
  · rintro (⟨_, _, he⟩ | ⟨⟨_, b⟩, hb, he⟩)
    · cases he
    · cases he
      exact ⟨b, hb, rfl, rfl⟩
  · rintro ⟨b, hb, rfl, rfl⟩
    exact .inr ⟨(pos, b), hb, rfl⟩

theorem outline_params {ps : List (Param × Nat)} {ix ix' : FunctionIndex}
    (h : ps.foldlM (fun ix (p, index) => ix.define p.id p.ty (.param index)) ix = .ok ix') :
    ix'.outline = ix.outline ++ ps.map (fun (p, index) => (p.id, p.ty, .param index)) ∧
      (ix.ids.Nodup → ix'.ids.Nodup) := by
  induction ps generalizing ix with
  | nil =>
    cases h
    exact ⟨(List.append_nil _).symm, id⟩
  | cons p ps ih =>
    obtain ⟨ix₁, h₁, h₂⟩ := foldlM_cons_eq_ok_iff.mp h
    obtain ⟨ho, hn⟩ := ih h₂
    have ho₁ := outline_define h₁
    refine ⟨?_, fun hix => hn ?_⟩
    · rw [ho, ho₁, List.append_assoc]
      rfl
    · rw [ids, ho₁, List.map_append]
      exact hix.append (List.nodup_singleton _)
        (List.disjoint_singleton.mpr (define_eq_ok_iff.mp h₁).1)

theorem exists_params {ps : List (Param × Nat)} {ix : FunctionIndex}
    (h : (ix.ids ++ ps.map fun p => p.1.id).Nodup) :
    ∃ ix', ps.foldlM (fun ix (p, index) => ix.define p.id p.ty (.param index)) ix = .ok ix' := by
  induction ps generalizing ix with
  | nil => exact ⟨ix, rfl⟩
  | cons p ps ih =>
    have hp : p.1.id ∉ ix.ids := fun hm =>
      (List.disjoint_of_nodup_append h) hm List.mem_cons_self
    have h₁ := define_eq_ok_iff.mpr
      ⟨hp, (rfl : (⟨ix.entries ++ [⟨p.1.id, p.1.ty, .param p.2, []⟩]⟩ : FunctionIndex) = _)⟩
    have hn : (ids ⟨ix.entries ++ [⟨p.1.id, p.1.ty, .param p.2, []⟩]⟩ ++
        ps.map fun p => p.1.id).Nodup := by
      rw [ids, outline_define h₁, List.map_append, List.append_assoc]
      exact h
    obtain ⟨ix', h'⟩ := ih hn
    exact ⟨ix', foldlM_cons_eq_ok_iff.mpr ⟨_, h₁, h'⟩⟩

theorem outline_bindings {ps : List (BindingPos × Binding)} {ix ix' : FunctionIndex}
    (h : ps.foldlM (fun ix (pos, b) => ix.addBinding pos b) ix = .ok ix') :
    ix'.outline = ix.outline ++ ps.map (fun (pos, b) => (b.id, b.ty, .binding pos)) ∧
      Sequenced ix.ids (ps.map Prod.snd) := by
  induction ps generalizing ix with
  | nil =>
    cases h
    exact ⟨(List.append_nil _).symm, trivial⟩
  | cons p ps ih =>
    obtain ⟨ix₁, h₁, h₂⟩ := foldlM_cons_eq_ok_iff.mp h
    obtain ⟨hv, hb, ho₁⟩ := addBinding_eq_ok h₁
    obtain ⟨ho, hs⟩ := ih h₂
    refine ⟨?_, hv, hb, ?_⟩
    · rw [ho, ho₁, List.append_assoc]
      rfl
    · rw [ids, ho₁, List.map_append] at hs
      exact hs

theorem exists_bindings {ps : List (BindingPos × Binding)} {ix : FunctionIndex}
    (h : Sequenced ix.ids (ps.map Prod.snd)) :
    ∃ ix', ps.foldlM (fun ix (pos, b) => ix.addBinding pos b) ix = .ok ix' := by
  induction ps generalizing ix with
  | nil => exact ⟨ix, rfl⟩
  | cons p ps ih =>
    obtain ⟨hv, hb, hs⟩ := h
    obtain ⟨ix₁, h₁⟩ := exists_addBinding p.1 hv hb
    have hs₁ : Sequenced ix₁.ids (ps.map Prod.snd) := by
      rw [ids, (addBinding_eq_ok h₁).2.2, List.map_append]
      exact hs
    obtain ⟨ix', h'⟩ := ih hs₁
    exact ⟨ix', foldlM_cons_eq_ok_iff.mpr ⟨ix₁, h₁, h'⟩⟩

/-- **The index of a function** has the outline that the function prescribes. -/
theorem outline_ofFunction {f : Function} {ix : FunctionIndex} (h : ofFunction f = .ok ix) :
    ix.outline = outlineOf f ∧ f.paramIds.Nodup ∧ Sequenced f.paramIds f.bindings := by
  obtain ⟨ix₁, h₁, h₂⟩ := bind_eq_ok_iff.mp h
  obtain ⟨ho₁, hn⟩ := outline_params h₁
  obtain ⟨ho, hs⟩ := outline_bindings h₂
  have hids : ix₁.ids = f.paramIds := by
    rw [ids, ho₁, show outline ⟨[]⟩ = [] from rfl, List.nil_append, List.map_map]
    exact map_zipIdx_fst Param.id f.params
  rw [map_snd_positions] at hs
  refine ⟨?_, hids ▸ hn List.nodup_nil, hids ▸ hs⟩
  rw [ho, ho₁, outlineOf]
  rfl

/-- A function in single-assignment form has an index. -/
theorem exists_ofFunction {f : Function} (hp : f.paramIds.Nodup)
    (hs : Sequenced f.paramIds f.bindings) : ∃ ix, ofFunction f = .ok ix := by
  have hids : (f.params.zipIdx.map fun p => p.1.id) = f.paramIds :=
    map_zipIdx_fst Param.id f.params
  have hn : (ids ⟨[]⟩ ++ f.params.zipIdx.map fun p => p.1.id).Nodup := by
    rw [hids]
    exact hp
  obtain ⟨ix₁, h₁⟩ := exists_params hn
  have hids₁ : ix₁.ids = f.paramIds := by
    rw [ids, (outline_params h₁).1, List.map_append, List.map_map]
    exact hids
  have hseq : Sequenced ix₁.ids ((positions f).map Prod.snd) := by
    rw [map_snd_positions, hids₁]
    exact hs
  obtain ⟨ix, h₂⟩ := exists_bindings hseq
  exact ⟨ix, bind_eq_ok_iff.mpr ⟨ix₁, h₁, h₂⟩⟩

/-- The index of a function types its values as the function declares them. -/
theorem context_ofFunction {f : Function} {ix : FunctionIndex} (h : ofFunction f = .ok ix) :
    ix.context = f.context := by
  rw [context, (outline_ofFunction h).1, outlineOf, List.map_append, List.map_map, List.map_map,
    Function.context, Function.paramContext, ← map_snd_positions, List.map_map]
  exact congrArg (· ++ _) (map_zipIdx_fst Param.entry f.params)

/-! ## Checks in terms of types -/

theorem elementType_eq_ok_iff {ix : FunctionIndex} {binding : String} {tuple : ValueId}
    {index : Nat} {ty : ValueType} :
    ix.elementType binding tuple index = .ok ty ↔
      (Operand.tupleElement tuple index).type? ix.typeOf? = some ty := by
  rw [elementType, Operand.type?]
  cases ix.typeOf? tuple with
  | none => simp
  | some whole =>
    cases whole with
    | tensor spec => simp [ValueType.element?]
    | tuple elements =>
      cases hi : elements[index]? with
      | none => simp [ValueType.element?, hi]
      | some ty' => simp [ValueType.element?, hi]

theorem operandType_eq_ok_iff {ix : FunctionIndex} {binding : String} {x : Operand}
    {ty : ValueType} :
    ix.operandType binding x = .ok ty ↔ x.type? ix.typeOf? = some ty := by
  cases x with
  | value id =>
    rw [operandType, Operand.type?]
    cases ix.typeOf? id with
    | none => simp
    | some ty' =>
      exact ⟨fun h => congrArg _ (Except.ok.inj h), fun h => congrArg _ (Option.some.inj h)⟩
  | tupleElement tuple index => exact elementType_eq_ok_iff
  | literal constant =>
    exact ⟨fun h => congrArg _ (Except.ok.inj h), fun h => congrArg _ (Option.some.inj h)⟩

mutual

theorem fieldType_eq_ok_iff {ix : FunctionIndex} {binding : String} (field : TupleField)
    {ty : ValueType} :
    ix.fieldType binding field = .ok ty ↔ field.type? ix.typeOf? = some ty := by
  cases field with
  | operand x => exact operandType_eq_ok_iff
  | tuple fields =>
    rw [fieldType, map_eq_ok_iff, TupleField.type?, Option.map_eq_some_iff]
    exact exists_congr fun tys => and_congr_left' (fieldTypes_eq_ok_iff fields)

theorem fieldTypes_eq_ok_iff {ix : FunctionIndex} {binding : String}
    (fields : List TupleField) {tys : List ValueType} :
    ix.fieldTypes binding fields = .ok tys ↔ TupleField.types? ix.typeOf? fields = some tys := by
  cases fields with
  | nil =>
    exact ⟨fun h => congrArg _ (Except.ok.inj h), fun h => congrArg _ (Option.some.inj h)⟩
  | cons field rest =>
    rw [fieldTypes_eq_mapM, mapM_cons_eq_ok_iff, TupleField.types?_cons_eq_some_iff]
    refine exists_congr fun ty => exists_congr fun tys' => ?_
    rw [← fieldTypes_eq_mapM, fieldType_eq_ok_iff field, fieldTypes_eq_ok_iff rest]

end

/-- **The verifier types an expression** as its context does. -/
theorem exprType_eq_ok_iff {ix : FunctionIndex} {b : Binding} :
    ix.exprType b = .ok b.ty ↔ b.expr.HasType ix.typeOf? b.ty := by
  rw [exprType]
  cases b.expr with
  | call op operands =>
    show (operands.mapM (ix.operandType b.name) >>= fun types =>
      (op.resultType types (some b.ty)).mapError (.shape b.name)) = .ok b.ty ↔ _
    rw [bind_eq_ok_iff]
    refine exists_congr fun tys => ?_
    rw [mapM_eq_ok_iff, mapError_eq_ok_iff]
    simp only [operandType_eq_ok_iff]
  | tuple fields =>
    show (ix.fieldTypes b.name fields).map .tuple = .ok b.ty ↔ _
    rw [map_eq_ok_iff]
    refine exists_congr fun tys => ?_
    rw [fieldTypes_eq_ok_iff, eq_comm (a := ValueType.tuple tys)]
  | tupleGet source index => exact elementType_eq_ok_iff
  | «alias» x => exact operandType_eq_ok_iff

theorem checkBinding_eq_ok_iff {ix : FunctionIndex} {b : Binding} :
    ix.checkBinding b = .ok () ↔ b.expr.HasType ix.typeOf? b.ty := by
  rw [← exprType_eq_ok_iff, checkBinding, bind_eq_ok_iff]
  constructor
  · rintro ⟨ty, hty, h⟩
    by_cases he : ty = b.ty
    · rwa [he] at hty
    · rw [if_neg he] at h
      simp at h
  · intro h
    exact ⟨b.ty, h, if_pos rfl⟩

end FunctionIndex

/-! ## Accepted bindings -/

/-- **Bindings are accepted** when they read what comes before, define what is new, and
have their types in the context of all of them. -/
theorem Context.accepts_iff {s : Context} {bs : List Binding} :
    s.Accepts bs ↔ FunctionIndex.Sequenced s.ids bs ∧
      ∀ b ∈ bs, b.expr.HasType (Context.typeOf? (s ++ bs.map Binding.entry)) b.ty := by
  induction bs generalizing s with
  | nil => exact ⟨fun _ => ⟨trivial, fun _ hb => absurd hb List.not_mem_nil⟩, fun _ => trivial⟩
  | cons b bs ih =>
    have hids : Context.ids (s ++ [b.entry]) = s.ids ++ [b.id] := Context.ids_append s _
    have hctx : s ++ [b.entry] ++ bs.map Binding.entry = s ++ (b :: bs).map Binding.entry :=
      List.append_assoc s _ _
    rw [Context.Accepts, ih, hids, hctx, FunctionIndex.Sequenced, List.forall_mem_cons]
    constructor
    · rintro ⟨hb, ht, hs, hbs⟩
      have reads : ∀ id ∈ b.expr.values, id ∈ s.ids := fun id hid =>
        Context.isSome_typeOf?.mp (ht.isSome id hid)
      exact ⟨⟨reads, hb, hs⟩, Context.hasType_append _ ht, hbs⟩
    · rintro ⟨⟨reads, hb, hs⟩, ht, hbs⟩
      exact ⟨hb, Context.hasType_of_append ht reads, hs, hbs⟩

/-! ## Names, outputs and what is returned -/

theorem firstRepeated?_eq_none_iff {α : Type} [BEq α] [LawfulBEq α] {seen xs : List α} :
    firstRepeated? seen xs = none ↔ xs.Nodup ∧ ∀ x ∈ xs, x ∉ seen := by
  induction xs generalizing seen with
  | nil => exact ⟨fun _ => ⟨List.nodup_nil, fun _ hx => absurd hx List.not_mem_nil⟩, fun _ => rfl⟩
  | cons x xs ih =>
    rw [firstRepeated?, List.nodup_cons, List.forall_mem_cons]
    by_cases hx : x ∈ seen
    · rw [if_pos (List.contains_iff_mem.mpr hx)]
      simp [hx]
    · rw [if_neg (fun h => hx (List.contains_iff_mem.mp h)), ih]
      constructor
      · rintro ⟨hn, h⟩
        refine ⟨⟨fun hm => h x hm List.mem_cons_self, hn⟩, hx, fun y hy hs => ?_⟩
        exact h y hy (List.mem_cons_of_mem x hs)
      · rintro ⟨⟨hm, hn⟩, _, h⟩
        refine ⟨hn, fun y hy hs => ?_⟩
        rcases List.mem_cons.mp hs with rfl | hs
        · exact hm hy
        · exact h y hy hs

namespace FunctionIndex

/-- A value may be exposed by a region that binds it, and by every region if it is a
parameter. -/
theorem checkOutput_eq_ok_iff {f : Function} {ix : FunctionIndex} (h : ofFunction f = .ok ix)
    (hn : ix.ids.Nodup) {r : Region} {k : Nat} (hr : f.regions[k]? = some r) {id : ValueId} :
    ix.checkOutput k id = .ok () ↔ id ∈ f.paramIds ∨ id ∈ r.bindings.map Binding.id := by
  have hd : ∀ d, ix.definitionOf? id = some d ↔ ∃ ty, (id, ty, d) ∈ outlineOf f := fun d =>
    (outline_ofFunction h).1 ▸ definitionOf?_eq_some_iff_mem hn
  rw [checkOutput]
  constructor
  · intro hc
    split at hc
    · next i hi =>
      obtain ⟨ty, hm⟩ := (hd _).mp hi
      obtain ⟨p, hp, rfl, -⟩ := mem_outlineOf_param.mp hm
      exact .inl (List.mem_map_of_mem (List.mem_of_getElem? hp))
    · next pos hpos =>
      obtain ⟨ty, hm⟩ := (hd _).mp hpos
      obtain ⟨b, hb, rfl, -⟩ := mem_outlineOf_binding.mp hm
      by_cases hk : pos.region = k
      · obtain ⟨r', hr', hb'⟩ := mem_positions_iff.mp hb
        rw [hk, hr] at hr'
        cases hr'
        exact .inr (List.mem_map_of_mem (List.mem_of_getElem? hb'))
      · rw [if_neg hk] at hc
        cases hc
    · cases hc
  · rintro (hp | hb)
    · obtain ⟨p, hmp, rfl⟩ := List.mem_map.mp hp
      obtain ⟨i, hi⟩ := List.getElem?_of_mem hmp
      rw [(hd (.param i)).mpr ⟨p.ty, mem_outlineOf_param.mpr ⟨p, hi, rfl, rfl⟩⟩]
    · obtain ⟨b, hmb, rfl⟩ := List.mem_map.mp hb
      obtain ⟨i, hi⟩ := List.getElem?_of_mem hmb
      have hb : (⟨k, i⟩, b) ∈ positions f := mem_positions_iff.mpr ⟨r, hr, hi⟩
      rw [(hd (.binding ⟨k, i⟩)).mpr ⟨b.ty, mem_outlineOf_binding.mpr ⟨b, hb, rfl, rfl⟩⟩]
      exact if_pos rfl

end FunctionIndex

theorem ReturnExpr.valuesList_map_value (ids : List ValueId) :
    ReturnExpr.valuesList (ids.map .value) = ids := by
  induction ids with
  | nil => rfl
  | cons id ids ih => exact congrArg (id :: ·) ih

/-! ## Well-formed functions -/

namespace Function

/-- **`WellFormed`** -- single assignment, declared types, distinct names, and exposure. -/
structure WellFormed (f : Function) : Prop where
  /-- Parameters are distinct. -/
  params_nodup : f.paramIds.Nodup
  /-- Every binding reads values before it and declares the type of its expression. -/
  accepts : f.paramContext.Accepts f.bindings
  /-- Names are distinct. -/
  names_nodup : f.valueNames.Nodup
  /-- A region exposes parameters and bindings of its own. -/
  outputs : ∀ r ∈ f.regions, ∀ id ∈ r.outputs,
    id ∈ f.paramIds ∨ id ∈ r.bindings.map Binding.id
  /-- What is returned is exposed. -/
  returns : ∀ id ∈ f.ret.values, id ∈ f.exposed

theorem ids_paramContext (f : Function) : f.paramContext.ids = f.paramIds := List.map_map

theorem ids_context (f : Function) :
    f.context.ids = f.paramIds ++ f.bindings.map Binding.id := by
  rw [context, Context.ids_append, ids_paramContext, Context.ids_map_entry]

theorem WellFormed.nodup {f : Function} (h : f.WellFormed) : f.context.ids.Nodup :=
  h.accepts.nodup (f.ids_paramContext ▸ h.params_nodup)

theorem typeOf?_eq_context (f : Function) : f.typeOf? = f.context.typeOf? := by
  have hfind : ∀ {β : Type} (key : β → ValueId) (ty : β → ValueType) (xs : List β) (id : ValueId),
      ((xs.find? fun x => key x == id).map ty) = (xs.map fun x => (key x, ty x)).lookup id := by
    intro β key ty xs id
    induction xs with
    | nil => rfl
    | cons x xs ih =>
      rw [List.find?_cons, List.map_cons, List.lookup_cons]
      by_cases h : key x = id
      · rw [beq_iff_eq.mpr h, beq_iff_eq.mpr h.symm]
        rfl
      · have h' : ¬id = key x := fun h' => h h'.symm
        rw [beq_false_of_ne h, beq_false_of_ne h']
        exact ih
  funext id
  rw [typeOf?, param?, binding?, hfind Param.id Param.ty, hfind Binding.id Binding.ty, context,
    Context.typeOf?_append]
  rfl

/-- What a well-formed function exposes is defined. -/
theorem WellFormed.mem_context {f : Function} (h : f.WellFormed) {id : ValueId}
    (hid : id ∈ f.exposed) : id ∈ f.context.ids := by
  rw [ids_context]
  rcases List.mem_append.mp hid with hp | ho
  · exact List.mem_append_left _ hp
  · obtain ⟨r, hr, ho⟩ := List.mem_flatMap.mp ho
    rcases h.outputs r hr id ho with hp | hb
    · exact List.mem_append_left _ hp
    · obtain ⟨b, hm, rfl⟩ := List.mem_map.mp hb
      exact List.mem_append_right _
        (List.mem_map_of_mem (List.mem_flatMap.mpr ⟨r, hr, hm⟩))

/-- What a well-formed function returns has a type. -/
theorem WellFormed.exists_returned {f : Function} (h : f.WellFormed) {id : ValueId}
    (hid : id ∈ f.ret.values) : ∃ ty, f.context.typeOf? id = some ty :=
  Option.isSome_iff_exists.mp (Context.isSome_typeOf?.mpr (h.mem_context (h.returns id hid)))

/-- What the types of the parameters and of the bindings have in common, all types have. -/
theorem WellFormed.forall_types {f : Function} (h : f.WellFormed) {P : ValueType → Prop}
    (hparams : ∀ p ∈ f.params, P p.ty) (hbindings : ∀ b ∈ f.bindings, P b.ty) {id : ValueId}
    {ty : ValueType} (hid : f.context.typeOf? id = some ty) : P ty := by
  rcases List.mem_append.mp ((Context.typeOf?_eq_some_iff h.nodup).mp hid) with hm | hm
  · obtain ⟨p, hp, he⟩ := List.mem_map.mp hm
    obtain rfl := (Prod.mk.inj he).2
    exact hparams p hp
  · obtain ⟨b, hb, he⟩ := List.mem_map.mp hm
    obtain rfl := (Prod.mk.inj he).2
    exact hbindings b hb

/-! ## The checks of the verifier -/

section Checks

variable {f : Function} {ix : FunctionIndex}

/-- The check of the bindings is their typing in the context of the function. -/
theorem bindings_checked_iff (hix : FunctionIndex.ofFunction f = .ok ix) :
    f.bindings.forM ix.checkBinding = .ok () ↔
      ∀ b ∈ f.bindings, b.expr.HasType f.context.typeOf? b.ty := by
  rw [forM_eq_ok_iff, ← FunctionIndex.context_ofFunction hix, ← FunctionIndex.typeOf?_eq]
  exact forall₂_congr fun b _ => FunctionIndex.checkBinding_eq_ok_iff

/-- The check of the outputs: each is a parameter or bound in its region. -/
theorem outputs_checked_iff (hix : FunctionIndex.ofFunction f = .ok ix) (hn : ix.ids.Nodup) :
    (f.regions.zipIdx.forM fun (r, region) => r.outputs.forM (ix.checkOutput region)) = .ok () ↔
      ∀ r ∈ f.regions, ∀ id ∈ r.outputs, id ∈ f.paramIds ∨ id ∈ r.bindings.map Binding.id := by
  rw [forM_eq_ok_iff]
  constructor
  · intro h r hr id hid
    obtain ⟨k, hk⟩ := List.getElem?_of_mem hr
    have hchecked := h (r, k) (List.mem_zipIdx_iff_getElem?.mpr hk)
    exact (FunctionIndex.checkOutput_eq_ok_iff hix hn hk).mp
      (forM_eq_ok_iff.mp hchecked id hid)
  · rintro h ⟨r, k⟩ hr
    have hk := List.mem_zipIdx_iff_getElem?.mp hr
    refine forM_eq_ok_iff.mpr fun id hid => ?_
    exact (FunctionIndex.checkOutput_eq_ok_iff hix hn hk).mpr
      (h r (List.mem_of_getElem? hk) id hid)

/-- The check of what is returned: no value stays inside. -/
theorem returns_checked_iff :
    (f.ret.values.find? fun id => !f.exposed.contains id) = none ↔
      ∀ id ∈ f.ret.values, id ∈ f.exposed := by
  simp

end Checks

/-- **The verifier decides well-formedness.** -/
theorem verify_eq_ok_iff {f : Function} : f.verify = .ok () ↔ f.WellFormed := by
  have hids : ∀ ix, FunctionIndex.ofFunction f = .ok ix → ix.ids = f.context.ids := fun ix hix =>
    (FunctionIndex.ids_context ix).symm.trans
      (congrArg Context.ids (FunctionIndex.context_ofFunction hix))
  have hnames : firstRepeated? [] f.valueNames = none ↔ f.valueNames.Nodup := by
    simp [firstRepeated?_eq_none_iff]
  have haccepts : f.paramContext.Accepts f.bindings ↔ _ := Context.accepts_iff
  rw [ids_paramContext] at haccepts
  constructor
  · intro h
    obtain ⟨ix, hix, h⟩ := bind_eq_ok_iff.mp h
    have hix := mapError_eq_ok_iff.mp hix
    obtain ⟨_, hp, hs⟩ := FunctionIndex.outline_ofFunction hix
    have hn : ix.ids.Nodup := by
      rw [hids ix hix, ids_context]
      exact hs.nodup hp
    split at h
    · simp at h
    · next hno =>
      obtain ⟨⟨⟩, hb, h⟩ := bind_eq_ok_iff.mp h
      obtain ⟨⟨⟩, ho, h⟩ := bind_eq_ok_iff.mp h
      split at h
      · simp at h
      · next hr =>
        exact ⟨hp, haccepts.mpr ⟨hs, (bindings_checked_iff hix).mp hb⟩, hnames.mp hno,
          (outputs_checked_iff hix hn).mp ho, returns_checked_iff.mp hr⟩
  · intro h
    obtain ⟨hs, hb⟩ := haccepts.mp h.accepts
    obtain ⟨ix, hix⟩ := FunctionIndex.exists_ofFunction h.params_nodup hs
    have hn : ix.ids.Nodup := by
      rw [hids ix hix]
      exact h.nodup
    refine bind_eq_ok_iff.mpr ⟨ix, mapError_eq_ok_iff.mpr hix, ?_⟩
    rw [hnames.mpr h.names_nodup]
    refine bind_eq_ok_iff.mpr ⟨(), (bindings_checked_iff hix).mpr hb, ?_⟩
    refine bind_eq_ok_iff.mpr ⟨(), (outputs_checked_iff hix hn).mpr h.outputs, ?_⟩
    rw [returns_checked_iff.mpr h.returns]
    rfl

end Function

/-! ## Modules -/

theorem verifyFunctions_eq_ok_iff {seen : List String} {fs : List Function} :
    verifyFunctions seen fs = .ok () ↔ (fs.map Function.name).Nodup ∧
      (∀ f ∈ fs, f.name ∉ seen) ∧ ∀ f ∈ fs, f.verify = .ok () := by
  induction fs generalizing seen with
  | nil => simp [verifyFunctions]
  | cons f rest ih =>
    rw [verifyFunctions, List.map_cons, List.nodup_cons, List.forall_mem_cons,
      List.forall_mem_cons]
    by_cases hf : f.name ∈ seen
    · rw [if_pos (List.contains_iff_mem.mpr hf)]
      simp [hf]
    · rw [if_neg fun h => hf (List.contains_iff_mem.mp h), bind_eq_ok_iff]
      constructor
      · rintro ⟨⟨⟩, hv, hrest⟩
        obtain ⟨hn, hseen, hvs⟩ := ih.mp hrest
        refine ⟨⟨fun hm => ?_, hn⟩, ⟨hf, fun g hg hs => ?_⟩, hv, hvs⟩
        · obtain ⟨g, hg, he⟩ := List.mem_map.mp hm
          exact hseen g hg (he ▸ List.mem_cons_self)
        · exact hseen g hg (List.mem_cons_of_mem f.name hs)
      · rintro ⟨⟨hm, hn⟩, ⟨_, hseen⟩, hv, hvs⟩
        refine ⟨(), hv, ih.mpr ⟨hn, fun g hg hs => ?_, hvs⟩⟩
        rcases List.mem_cons.mp hs with he | hs
        · exact hm (he ▸ List.mem_map_of_mem hg)
        · exact hseen g hg hs

/-- **A module is verified** when its functions are and their names differ. -/
theorem Module.verify_eq_ok_iff {m : Module} :
    m.verify = .ok () ↔ m.names.Nodup ∧ ∀ f ∈ m.functions, f.verify = .ok () := by
  rw [verify, verifyFunctions_eq_ok_iff, names]
  simp

end TensorGraph
