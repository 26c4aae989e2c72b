/-
# TensorGraph.Proofs.Splicing -- a loss that fits is appended, and well

The conditions on a backbone and a loss are all there is: when they hold, the result of the splice
is verified. Stage after stage the builder stays sound and numbered, and the values of the source
that was copied last have places of their types. Names are made unique against the backbone before
anything is added, so that the builder gives every copy the name it is asked for: the names of the
backbone as they are, and the names of the loss up to renamings that are needed.
-/
import TensorGraph.Proofs.Composition

namespace TensorGraph

/-! ## Copies under the names asked for -/

namespace Splice

/-- Parameters keep names that the supply gives as they are. -/
theorem copiedParams_of_names (s : Splice) (ps : List (Param × String))
    (hn : ((ps.map Prod.fst).map Param.id).Nodup)
    (hnames : (s.builder.names.freshAll (ps.map Prod.snd)).1 = ps.map Prod.snd) :
    s.copiedParams ps = ps.map fun (p, name) => (s.addParams ps).placed.copyParam p name := by
  have hzip := List.zip_unzip ps
  rw [List.unzip_eq_map] at hzip
  rw [copiedParams_eq s hn, hnames, hzip]

/-- Bindings keep names that the supply gives as they are. -/
theorem copiedBindings_of_names (s : Splice) (source : Context) (bs : List (Binding × String))
    (hacc : source.Accepts (bs.map Prod.fst)) (hn : source.ids.Nodup)
    (hnames : (s.builder.names.freshAll (bs.map Prod.snd)).1 = bs.map Prod.snd) :
    s.copiedBindings bs = bs.map fun (b, name) => (s.addBindings bs).placed.copyBinding b name := by
  have hzip := List.zip_unzip bs
  rw [List.unzip_eq_map] at hzip
  rw [copiedBindings_eq s hacc hn, hnames, hzip]

end Splice

theorem mem_distinct {ids : List ValueId} {id : ValueId} : id ∈ distinct ids ↔ id ∈ ids := by
  suffices h : ∀ seen : List ValueId,
      id ∈ ids.foldl (fun seen id => if seen.contains id then seen else seen ++ [id]) seen ↔
        id ∈ seen ∨ id ∈ ids by
    simpa [distinct] using h []
  induction ids with
  | nil => simp
  | cons first rest ih =>
    intro seen
    rw [List.foldl_cons, ih, List.mem_cons]
    split
    · next hseen =>
      have hmem := List.contains_iff_mem.mp hseen
      constructor
      · tauto
      · rintro (h | rfl | h) <;> tauto
    · simp only [List.mem_append, List.mem_singleton]
      tauto

/-! ## Stages carry the sources -/

namespace Composition

section Stages

variable {backbone loss : Function} {outputs : List ValueId} {count : Nat} {target : ValueId}
  {name : String} {extraNames lossNames : List String}

theorem bindings_front : (front backbone name).builder.bindings = [] := by
  rw [front, Splice.bindings_addParams]
  rfl

theorem map_fst_own {β γ : Type} (xs : List β) (key : β → γ) :
    (xs.map fun x => (x, key x)).map Prod.fst = xs :=
  (List.map_map).trans (List.map_id _)

theorem map_snd_own {β γ : Type} (xs : List β) (key : β → γ) :
    (xs.map fun x => (x, key x)).map Prod.snd = xs.map key := List.map_map

theorem carries_front (name : String) (hb : backbone.WellFormed) :
    (front backbone name).Carries backbone.paramContext := by
  have hempty : (Splice.mk (.empty name) .empty).Carries [] :=
    ⟨Builder.sound_empty name, Builder.numbered_empty name, Remap.places_nil⟩
  have hps := map_fst_own backbone.params Param.name
  have h := hempty.addParams rfl (backbone.params.map fun p => (p, p.name)) (by
    rw [hps]
    exact hb.params_nodup)
  rw [hps] at h
  exact h

theorem carries_start (name : String) (hb : backbone.WellFormed) (hl : loss.WellFormed)
    (hextra : extraNames.length = (loss.params.drop count).length) :
    (start backbone loss count name extraNames).Carries
      ((loss.params.drop count).map Param.entry) := by
  have hfront := carries_front name hb
  have hempty : (Splice.mk (front backbone name).builder .empty).Carries [] :=
    ⟨hfront.sound, hfront.numbered, Remap.places_nil⟩
  have hps := List.map_fst_zip (Nat.le_of_eq hextra.symm)
  have h := hempty.addParams bindings_front ((loss.params.drop count).zip extraNames) (by
    rw [hps]
    exact hl.params_nodup.sublist ((List.drop_sublist count loss.params).map Param.id))
  rw [hps] at h
  exact h

theorem carries_body (name : String) (hb : backbone.WellFormed) (hl : loss.WellFormed)
    (hextra : extraNames.length = (loss.params.drop count).length) :
    (body backbone loss count name extraNames).Carries backbone.context := by
  have hstart := carries_start name hb hl hextra
  obtain ⟨more, hmore⟩ := Splice.exists_context_addParams
    ⟨(front backbone name).builder, .empty⟩ bindings_front ((loss.params.drop count).zip extraNames)
  have hparams : (Splice.mk (start backbone loss count name extraNames).builder
      (front backbone name).placed).Carries backbone.paramContext := by
    refine ⟨hstart.sound, hstart.numbered, ?_⟩
    rw [start, hmore]
    exact (carries_front name hb).places.append more
  have hbs := map_fst_own backbone.bindings Binding.name
  have h := hparams.addBindings (backbone.bindings.map fun b => (b, b.name)) (by
    rw [hbs]
    exact hb.accepts)
  rw [hbs] at h
  exact h

/-- **Parameters of the loss have places**: predictions, or parameters of the result. -/
theorem carries_joined (h : Checked backbone loss outputs count target) (name : String)
    (hextra : extraNames.length = (loss.params.drop count).length) :
    (joined backbone loss outputs count name extraNames).Carries loss.paramContext := by
  have hbody := carries_body name h.backbone_wellFormed h.loss_wellFormed hextra
  have hstart := carries_start name h.backbone_wellFormed h.loss_wellFormed hextra
  have hbuilder : (joined backbone loss outputs count name extraNames).builder =
      (body backbone loss count name extraNames).builder := Splice.builder_foldl_place _ _ _
  refine ⟨hbuilder ▸ hbody.sound, hbuilder ▸ hbody.numbered, ?_⟩
  have hn := h.loss_wellFormed.params_nodup
  intro id ty hid
  rw [Context.typeOf?_eq_some_iff (loss.ids_paramContext ▸ hn)] at hid
  obtain ⟨p, hp, hentry⟩ := List.mem_map.mp hid
  cases hentry
  rw [hbuilder]
  rw [← List.take_append_drop count loss.params] at hp
  rcases List.mem_append.mp hp with hp | hp
  · -- a parameter that a prediction takes the place of
    obtain ⟨i, hi⟩ := List.getElem?_of_mem hp
    rw [List.getElem?_take, Option.ite_none_right_eq_some] at hi
    obtain ⟨hlt, hpi⟩ := hi
    have hlo : i < outputs.length := Nat.lt_of_lt_of_le hlt h.available
    have hout : outputs[i]? = some outputs[i] := List.getElem?_eq_getElem hlo
    have hpo : (p, outputs[i]) ∈ loss.params.zip outputs :=
      List.mem_of_getElem? (List.getElem?_zip_eq_some.mpr ⟨hpi, hout⟩)
    have hty := h.typed i hlt outputs[i] p hout hpi
    rw [Function.typeOf?_eq_context] at hty
    exact ⟨_, get?_joined_of_mem hn hextra hp hpo, hbody.places.typeOf?_value hty⟩
  · -- a parameter that is left
    have htail : (Context.ids ((loss.params.drop count).map Param.entry)).Nodup := by
      rw [Context.ids, List.map_map]
      exact hn.sublist ((List.drop_sublist count loss.params).map Param.id)
    obtain ⟨place, hplace, hty⟩ := hstart.places p.id p.ty
      ((Context.typeOf?_eq_some_iff htail).mpr (List.mem_map_of_mem (f := Param.entry) hp))
    obtain ⟨more, hmore⟩ := Splice.exists_context_addBindings
      ⟨(start backbone loss count name extraNames).builder, (front backbone name).placed⟩
      (backbone.bindings.map fun b => (b, b.name))
    refine ⟨place, get?_joined_of_left hplace, ?_⟩
    rw [body, hmore]
    exact Context.typeOf?_append_of_eq_some more hty

theorem carries_done (h : Checked backbone loss outputs count target) (name : String)
    (hextra : extraNames.length = (loss.params.drop count).length)
    (hloss : lossNames.length = loss.bindings.length) :
    (done backbone loss outputs count name extraNames lossNames).Carries loss.context := by
  have hbs := List.map_fst_zip (Nat.le_of_eq hloss.symm)
  have hdone := (carries_joined h name hextra).addBindings (loss.bindings.zip lossNames) (by
      rw [hbs]
      exact h.loss_wellFormed.accepts)
  rw [hbs] at hdone
  exact hdone

end Stages

/-! ## Names of the copies -/

section Names

variable {backbone loss : Function} {outputs : List ValueId} {count : Nat} {target : ValueId}
  {name : String} {extraNames lossNames : List String}

theorem names_front :
    (front backbone name).builder.names =
      (NameSupply.empty.freshAll (backbone.params.map Param.name)).2 := by
  rw [front, Splice.names_addParams, map_snd_own]
  rfl

theorem names_start (hextra : extraNames.length = (loss.params.drop count).length) :
    (start backbone loss count name extraNames).builder.names =
      (NameSupply.empty.freshAll (backbone.params.map Param.name ++ extraNames)).2 := by
  rw [start, Splice.names_addParams, List.map_snd_zip (Nat.le_of_eq hextra), names_front,
    NameSupply.freshAll_append]

theorem names_body (hextra : extraNames.length = (loss.params.drop count).length) :
    (body backbone loss count name extraNames).builder.names =
      (NameSupply.empty.freshAll (backbone.params.map Param.name ++ extraNames ++
        backbone.bindings.map Binding.name)).2 := by
  rw [body, Splice.names_addBindings, map_snd_own, names_start hextra,
    NameSupply.freshAll_append _ (backbone.params.map Param.name ++ extraNames)]

/-- Parameters of the backbone stay where the front placed them. -/
theorem value_body_of_mem (hb : backbone.WellFormed) {p : Param} (hp : p ∈ backbone.params) :
    (body backbone loss count name extraNames).placed.value p.id =
      (front backbone name).placed.value p.id := by
  have hn := hb.nodup
  rw [Function.ids_context] at hn
  rw [Remap.value, Remap.value, body, Splice.get?_addBindings_of_notMem]
  rw [map_fst_own]
  exact (List.disjoint_of_nodup_append hn) (List.mem_map_of_mem hp)

/-- Parameters of the loss stay where they were placed before its bindings. -/
theorem get?_done_of_mem (hl : loss.WellFormed) (hloss : lossNames.length = loss.bindings.length)
    {p : Param} (hp : p ∈ loss.params) :
    (done backbone loss outputs count name extraNames lossNames).placed.get? p.id =
      (joined backbone loss outputs count name extraNames).placed.get? p.id := by
  have hn := hl.nodup
  rw [Function.ids_context] at hn
  rw [done, Splice.get?_addBindings_of_notMem]
  rw [List.map_fst_zip (Nat.le_of_eq hloss.symm)]
  exact (List.disjoint_of_nodup_append hn) (List.mem_map_of_mem hp)

/-- Parameters that are left stay where they were placed at the start. -/
theorem value_done_of_left (h : Checked backbone loss outputs count target)
    (hextra : extraNames.length = (loss.params.drop count).length)
    (hloss : lossNames.length = loss.bindings.length) {p : Param}
    (hp : p ∈ loss.params.drop count) :
    (done backbone loss outputs count name extraNames lossNames).placed.value p.id =
      (start backbone loss count name extraNames).placed.value p.id := by
  have hstart := carries_start name h.backbone_wellFormed h.loss_wellFormed hextra
  have htail : (Context.ids ((loss.params.drop count).map Param.entry)).Nodup := by
    rw [Context.ids, List.map_map]
    exact h.loss_wellFormed.params_nodup.sublist
      ((List.drop_sublist count loss.params).map Param.id)
  obtain ⟨place, hplace, _⟩ := hstart.places p.id p.ty
    ((Context.typeOf?_eq_some_iff htail).mpr (List.mem_map_of_mem (f := Param.entry) hp))
  rw [Remap.value, Remap.value, get?_done_of_mem h.loss_wellFormed hloss (List.mem_of_mem_drop hp),
    get?_joined_of_left hplace, hplace]

/-- **The parameters** of the result: those of the backbone, and those of the loss that are left,
under the names asked for. -/
theorem params_done_eq (h : Checked backbone loss outputs count target)
    (hextra : extraNames.length = (loss.params.drop count).length)
    (hloss : lossNames.length = loss.bindings.length)
    (hn : (backbone.params.map Param.name ++ extraNames).Nodup) :
    (done backbone loss outputs count name extraNames lossNames).builder.params =
      backbone.params.map (fun p =>
          (body backbone loss count name extraNames).placed.copyParam p p.name) ++
        ((loss.params.drop count).zip extraNames).map fun (p, own) =>
          (done backbone loss outputs count name extraNames lossNames).placed.copyParam p own := by
  have hfront := Splice.copiedParams_of_names (Splice.mk (.empty name) .empty)
    (backbone.params.map fun p => (p, p.name))
    (by rw [map_fst_own]; exact h.backbone_wellFormed.params_nodup)
    (by
      rw [map_snd_own]
      exact NameSupply.freshAll_of_nodup [] _ (List.Nodup.of_append_left hn))
  have hstart := Splice.copiedParams_of_names ⟨(front backbone name).builder, .empty⟩
    ((loss.params.drop count).zip extraNames)
    (by
      rw [List.map_fst_zip (Nat.le_of_eq hextra.symm)]
      exact h.loss_wellFormed.params_nodup.sublist
        ((List.drop_sublist count loss.params).map Param.id))
    (by
      rw [List.map_snd_zip (Nat.le_of_eq hextra)]
      show ((front backbone name).builder.names.freshAll extraNames).1 = extraNames
      rw [names_front]
      exact NameSupply.freshAll_of_nodup _ _ hn)
  rw [params_done, front, Splice.params_addParams, hfront, ← front, hstart, List.map_map]
  refine congrArg₂ (· ++ ·) (List.map_congr_left fun p hp => ?_)
    (List.map_congr_left fun entry he => ?_)
  · show (front backbone name).placed.copyParam p p.name = _
    rw [Remap.copyParam, Remap.copyParam, value_body_of_mem h.backbone_wellFormed hp]
  · obtain ⟨p, own⟩ := entry
    show (start backbone loss count name extraNames).placed.copyParam p own =
      (done backbone loss outputs count name extraNames lossNames).placed.copyParam p own
    rw [Remap.copyParam, Remap.copyParam,
      value_done_of_left h hextra hloss (List.of_mem_zip he).1]

/-- **The bindings** of the result: those of the backbone, then those of the loss, under the names
asked for. -/
theorem bindings_done_eq (h : Checked backbone loss outputs count target)
    (hextra : extraNames.length = (loss.params.drop count).length)
    (hloss : lossNames.length = loss.bindings.length)
    (hn : (backbone.params.map Param.name ++ extraNames ++ backbone.bindings.map Binding.name ++
      lossNames).Nodup) :
    (done backbone loss outputs count name extraNames lossNames).builder.bindings =
      backbone.bindings.map (fun b =>
          (body backbone loss count name extraNames).placed.copyBinding b b.name) ++
        (loss.bindings.zip lossNames).map fun (b, own) =>
          (done backbone loss outputs count name extraNames
            lossNames).placed.copyBinding b own := by
  have hb := h.backbone_wellFormed
  have hl := h.loss_wellFormed
  have hbody := Splice.copiedBindings_of_names
    ⟨(start backbone loss count name extraNames).builder, (front backbone name).placed⟩
    backbone.paramContext (backbone.bindings.map fun b => (b, b.name))
    (by rw [map_fst_own]; exact hb.accepts) (backbone.ids_paramContext ▸ hb.params_nodup)
    (by
      rw [map_snd_own]
      show ((start backbone loss count name extraNames).builder.names.freshAll _).1 = _
      rw [names_start hextra]
      exact NameSupply.freshAll_of_nodup _ _ (List.Nodup.of_append_left hn))
  have hdone := Splice.copiedBindings_of_names
    (joined backbone loss outputs count name extraNames)
    loss.paramContext (loss.bindings.zip lossNames)
    (by rw [List.map_fst_zip (Nat.le_of_eq hloss.symm)]; exact hl.accepts)
    (loss.ids_paramContext ▸ hl.params_nodup)
    (by
      rw [List.map_snd_zip (Nat.le_of_eq hloss), joined, Splice.builder_foldl_place]
      show ((body backbone loss count name extraNames).builder.names.freshAll _).1 = _
      rw [names_body hextra]
      exact NameSupply.freshAll_of_nodup _ _ hn)
  rw [bindings_done, hbody, hdone, List.map_map]
  rfl

end Names

/-! ## Names that are made unique -/

section Unique

variable (backbone loss : Function) (count : Nat)

/-- The names that a loss brings, in the order in which they are made unique. -/
def hints : List String :=
  (loss.params.drop count).map Param.name ++ loss.bindings.map Binding.name

/-- The names for the parameters that are left of the loss. -/
def restNames : List String :=
  ((NameSupply.empty.takeAll backbone.valueNames).freshAll
    ((loss.params.drop count).map Param.name)).1

/-- The names for the bindings of the loss. -/
def bindingNames : List String :=
  (((NameSupply.empty.takeAll backbone.valueNames).freshAll
    ((loss.params.drop count).map Param.name)).2.freshAll (loss.bindings.map Binding.name)).1

theorem restNames_append_bindingNames :
    restNames backbone loss count ++ bindingNames backbone loss count =
      ((NameSupply.empty.takeAll backbone.valueNames).freshAll (hints loss count)).1 := by
  rw [hints, NameSupply.freshAll_append]
  rfl

theorem length_restNames :
    (restNames backbone loss count).length = (loss.params.drop count).length :=
  (NameSupply.length_freshAll _ _).trans (List.length_map _)

theorem length_bindingNames :
    (bindingNames backbone loss count).length = loss.bindings.length :=
  (NameSupply.length_freshAll _ _).trans (List.length_map _)

theorem isTaken_valueNames (taken : String) :
    (NameSupply.empty.takeAll backbone.valueNames).isTaken taken = true ↔
      taken ∈ backbone.valueNames := by
  rw [NameSupply.isTaken_takeAll]
  exact or_iff_left Bool.false_ne_true

/-- **Names of the loss change** only where they have to. -/
theorem renames_hints :
    NameSupply.Renames backbone.valueNames (hints loss count)
      (restNames backbone loss count ++ bindingNames backbone loss count) := by
  rw [restNames_append_bindingNames]
  exact NameSupply.renames_freshAll fun taken => (isTaken_valueNames backbone taken).mp

/-- **All names differ**, in the order in which the builder is asked for them. -/
theorem nodup_names {backbone : Function} (hb : backbone.WellFormed) :
    (backbone.params.map Param.name ++ restNames backbone loss count ++
      backbone.bindings.map Binding.name ++ bindingNames backbone loss count).Nodup := by
  have hnew : (restNames backbone loss count ++ bindingNames backbone loss count).Nodup := by
    rw [restNames_append_bindingNames]
    exact NameSupply.nodup_freshAll _ _
  have hfree : List.Disjoint backbone.valueNames
      (restNames backbone loss count ++ bindingNames backbone loss count) := by
    rw [restNames_append_bindingNames]
    intro own hown hgiven
    have hfree := NameSupply.isTaken_of_mem_freshAll hgiven
    rw [(isTaken_valueNames backbone own).mpr hown] at hfree
    cases hfree
  have hall := hb.names_nodup.append hnew hfree
  -- the builder is asked for the parameters that are left before the bindings of the backbone
  refine (List.Perm.nodup_iff ?_).mp hall
  rw [Function.valueNames, List.append_assoc, List.append_assoc, List.append_assoc,
    ← List.append_assoc (backbone.bindings.map Binding.name),
    ← List.append_assoc (restNames backbone loss count)]
  exact (List.perm_append_comm.append_right _).append_left _

end Unique

/-! ## The result -/

theorem values_result (returned : ValueId) (states : List ValueId) :
    (result returned states).values = returned :: states := by
  cases states with
  | nil => rfl
  | cons state states => exact ReturnExpr.valuesList_map_value (returned :: state :: states)

/-- **`Composed`** -- what becomes of a loss behind a backbone: their parameters and bindings
follow each other, copied to new places, `front` and `back`, under names of which only those of
the loss may change. -/
structure Composed (backbone loss : Function) (outputs : List ValueId) (count : Nat)
    (target : ValueId) (name : String) (front back : Remap) (restNames bindingNames : List String)
    (c : Function) : Prop where
  /-- The result has the name that was asked for. -/
  name : c.name = name
  /-- The result has one region. -/
  region : c.regions.length = 1
  /-- The result is verified. -/
  verified : c.verify = .ok ()
  /-- Values are numbered in order, parameters first. -/
  numbered : c.paramIds ++ c.bindings.map Binding.id =
    (List.range (c.params.length + c.bindings.length)).map ValueId.mk
  /-- Parameters of the backbone come before those that are left of the loss. -/
  params : c.params = backbone.params.map (fun p => front.copyParam p p.name) ++
    ((loss.params.drop count).zip restNames).map fun (p, own) => back.copyParam p own
  /-- Bindings of the backbone come before those of the loss. -/
  bindings : c.bindings = backbone.bindings.map (fun b => front.copyBinding b b.name) ++
    (loss.bindings.zip bindingNames).map fun (b, own) => back.copyBinding b own
  /-- Predictions stand in the places of the first parameters of the loss. -/
  predictions : ((loss.params.take count).map fun p => back.value p.id) =
    (outputs.take count).map front.value
  /-- The loss is returned, and behind it what the backbone returns besides. -/
  ret : c.ret = result (back.value target) ((outputs.drop count).map front.value)
  /-- There is a name for every parameter that is left. -/
  restNames_length : restNames.length = (loss.params.drop count).length
  /-- There is a name for every binding of the loss. -/
  bindingNames_length : bindingNames.length = loss.bindings.length
  /-- Names of the loss change only if they are taken. -/
  renamed : NameSupply.Renames backbone.valueNames (hints loss count) (restNames ++ bindingNames)

section Result

variable {backbone loss : Function} {outputs : List ValueId} {count : Nat} {target : ValueId}

/-- **What is returned is there**: the target of the loss, and every output of the backbone. -/
theorem returned_mem_context (h : Checked backbone loss outputs count target) (name : String)
    {extraNames lossNames : List String}
    (hextra : extraNames.length = (loss.params.drop count).length)
    (hloss : lossNames.length = loss.bindings.length) {id : ValueId}
    (hid : id ∈ (done backbone loss outputs count name extraNames lossNames).placed.value target ::
      (outputs.drop count).map (body backbone loss count name extraNames).placed.value) :
    id ∈ (done backbone loss outputs count name extraNames lossNames).builder.context.ids := by
  have places : ∀ {placed : Remap} {s t : Context}, placed.Places s t → ∀ {id : ValueId},
      (∃ ty, s.typeOf? id = some ty) → placed.value id ∈ t.ids := by
    rintro placed s t hplaces id ⟨ty, hty⟩
    exact Context.isSome_typeOf?.mp (Option.isSome_of_eq_some (hplaces.typeOf?_value hty))
  rcases List.mem_cons.mp hid with rfl | hid
  · exact places (carries_done h name hextra hloss).places h.exists_target
  · obtain ⟨output, ho, rfl⟩ := List.mem_map.mp hid
    have hbody := carries_body name h.backbone_wellFormed h.loss_wellFormed hextra
    obtain ⟨more, hmore⟩ := Splice.exists_context_addBindings
      (joined backbone loss outputs count name extraNames) (loss.bindings.zip lossNames)
    rw [done, hmore, Context.ids_append, joined, Splice.builder_foldl_place]
    exact List.mem_append_left _ (places hbody.places (h.exists_output (List.mem_of_mem_drop ho)))

/-- Predictions stand in the places of the first parameters. -/
theorem predictions_done (h : Checked backbone loss outputs count target) (name : String)
    {extraNames lossNames : List String}
    (hextra : extraNames.length = (loss.params.drop count).length)
    (hloss : lossNames.length = loss.bindings.length) :
    ((loss.params.take count).map fun p =>
        (done backbone loss outputs count name extraNames lossNames).placed.value p.id) =
      (outputs.take count).map (body backbone loss count name extraNames).placed.value := by
  have hlen : (loss.params.take count).length = (outputs.take count).length := by
    rw [List.length_take_of_le h.taken, List.length_take_of_le h.available]
  rw [← List.forall₂_eq_eq_eq, List.forall₂_map_left_iff, List.forall₂_map_right_iff,
    List.forall₂_iff_zip]
  refine ⟨hlen, fun {p output} hm => ?_⟩
  have hp := (List.of_mem_zip hm).1
  have hpo : (p, output) ∈ loss.params.zip outputs := by
    have hzip : (loss.params.zip outputs).take count =
        (loss.params.take count).zip (outputs.take count) := List.take_zipWith
    rw [← hzip] at hm
    exact List.mem_of_mem_take hm
  rw [Remap.value, get?_done_of_mem h.loss_wellFormed hloss (List.mem_of_mem_take hp),
    get?_joined_of_mem h.loss_wellFormed.params_nodup hextra hp hpo, Option.getD_some]

/-- **A loss that fits** gives a verified composition. -/
theorem composed_spliceLoss (h : Appendable backbone loss outputs count target) (name : String) :
    Composed backbone loss outputs count target name
      (body backbone loss count name (restNames backbone loss count)).placed
      (done backbone loss outputs count name (restNames backbone loss count)
        (bindingNames backbone loss count)).placed
      (restNames backbone loss count) (bindingNames backbone loss count)
      (spliceLoss backbone loss outputs count target name) := by
  have hc := checked_of_appendable h
  have hextra := length_restNames backbone loss count
  have hloss := length_bindingNames backbone loss count
  have hdone := carries_done hc name hextra hloss
  have hnames := nodup_names loss count hc.backbone_wellFormed
  have hverified : (spliceLoss backbone loss outputs count target name).WellFormed := by
    refine hdone.sound.finish (fun id hid => ?_) fun id hid => List.mem_append_right _ ?_
    · exact returned_mem_context hc name hextra hloss (mem_distinct.mp hid)
    · exact mem_distinct.mpr (values_result _ _ ▸ hid)
  have hbindings : (spliceLoss backbone loss outputs count target name).bindings =
      (done backbone loss outputs count name (restNames backbone loss count)
        (bindingNames backbone loss count)).builder.bindings := Builder.bindings_finish _ _ _
  obtain ⟨n, hnumbered⟩ : ∃ n, (spliceLoss backbone loss outputs count target name).context.ids =
      (List.range n).map ValueId.mk := by
    rw [Function.context, hbindings]
    exact ⟨_, hdone.numbered⟩
  refine ⟨name_spliceLoss .., rfl, Function.verify_eq_ok_iff.mpr hverified, ?_, ?_, ?_,
    predictions_done hc name hextra hloss, rfl, hextra, hloss, renames_hints backbone loss count⟩
  · exact Function.numbered_of_ids hnumbered
  · exact params_done_eq hc hextra hloss
      (List.Nodup.of_append_left (List.Nodup.of_append_left hnames))
  · rw [hbindings]
    exact bindings_done_eq hc hextra hloss hnames

end Result

end Composition

namespace Module

/-- **A loss is appended exactly when it fits**: the backbone is there, both are verified functions
of one region, the backbone returns a value or a flat tuple of values, some of which are
predictions and have the types of the first parameters of the loss, and the loss returns a scalar.
The result is then verified. It is made of the backbone and of the loss, in this order, its values
are numbered in order, and only names of the loss change, which are names of the backbone or were
given before. -/
theorem appendLoss_composed (m : Module) (backboneName : String) (loss : Function) (count : Nat)
    (newName : Option String) :
    ((m.appendLoss backboneName loss count newName).isOk = true ↔
      ∃ backbone outputs target, m.get? backboneName = some backbone ∧
        Appendable backbone loss outputs count target) ∧
    ∀ c, m.appendLoss backboneName loss count newName = .ok c →
      ∃ backbone outputs target front back restNames bindingNames,
        m.get? backboneName = some backbone ∧ Appendable backbone loss outputs count target ∧
          Composition.Composed backbone loss outputs count target (lossName backboneName newName)
            front back restNames bindingNames c := by
  refine ⟨⟨fun h => ?_, ?_⟩, fun c h => ?_⟩
  · obtain ⟨c, hc⟩ := exists_eq_ok_of_isOk h
    obtain ⟨backbone, outputs, target, hget, hfits, _⟩ := appendLoss_eq_ok_iff.mp hc
    exact ⟨backbone, outputs, target, hget, hfits⟩
  · rintro ⟨backbone, outputs, target, hget, hfits⟩
    have hcomposed := Composition.composed_spliceLoss hfits (lossName backboneName newName)
    rw [appendLoss_eq_ok_iff.mpr ⟨backbone, outputs, target, hget, hfits, hcomposed.verified, rfl⟩]
    rfl
  · obtain ⟨backbone, outputs, target, hget, hfits, _, rfl⟩ := appendLoss_eq_ok_iff.mp h
    exact ⟨backbone, outputs, target, _, _, _, _, hget, hfits,
      Composition.composed_spliceLoss hfits _⟩

/-- The parameter of the loss that is left has a name of the backbone and changes it. -/
theorem appendLoss_offset_composed :
    ∃ c, Module.appendLoss ⟨currentVersion, [doubling]⟩ "doubling" offset 1 none = .ok c ∧
      c.valueNames = ["x", "y1", "y", "z", "loss"] ∧
      ∃ backbone outputs target front back restNames bindingNames,
        Module.get? ⟨currentVersion, [doubling]⟩ "doubling" = some backbone ∧
          Appendable backbone offset outputs 1 target ∧
          Composition.Composed backbone offset outputs 1 target (lossName "doubling" none)
            front back restNames bindingNames c :=
  ⟨_, rfl, by decide +kernel, (appendLoss_composed _ _ _ _ _).2 _ rfl⟩

end Module

end TensorGraph
