/-
# TensorGraph.Proofs.Composition -- a spliced loss computes the composition

The function that puts a loss behind a backbone runs exactly when the backbone runs and the
loss runs on what the backbone predicts, and it returns what the loss returns, followed by
what the backbone returns besides. The proof follows the splice: copied parameters mirror
the inputs, copied bindings of the backbone mirror its run, and once the predictions are
placed for the first parameters of the loss, its copied bindings mirror a run of the loss
that starts from the predictions.
-/
import TensorGraph.Proofs.Conditions
import TensorGraph.Proofs.Copies

namespace TensorGraph

variable {α : Type} {ar : Arithmetic α} {custom : CustomKernels α}

/-! ## What is returned -/

/-- The values that a return expression puts next to each other: the value itself, or the
components of a tuple. -/
def ReturnExpr.parts : ReturnExpr → Value α → List (Value α)
  | .value _, v => [v]
  | .tuple _, .tuple vs => vs
  | .tuple _, .tensor _ => []

theorem Function.values_ret_of_flatReturn {f : Function} {outputs : List ValueId}
    (h : f.flatReturn = .ok outputs) : f.ret.values = outputs := by
  rcases flatReturn_eq_ok_iff.mp h with ⟨id, hret, rfl⟩ | hret
  · rw [hret]
    rfl
  · rw [hret]
    exact ReturnExpr.valuesList_map_value outputs

namespace Env

/-- **Flat returns** put together the values returned. -/
theorem collect_eq_ok {env : Env α} {f : Function} {outputs : List ValueId}
    (h : f.flatReturn = .ok outputs) {o : Value α} (ho : env.collect f.ret = .ok o) :
    List.Forall₂ (fun id v => env.lookup id = .ok v) outputs (f.ret.parts o) := by
  rcases Function.flatReturn_eq_ok_iff.mp h with ⟨id, hret, rfl⟩ | hret
  · rw [hret] at ho ⊢
    exact .cons ho .nil
  · rw [hret] at ho ⊢
    obtain ⟨vs, hvs, rfl⟩ := map_eq_ok_iff.mp ho
    exact collectAll_map_value_eq_ok_iff.mp hvs

theorem exists_collect {env : Env α} {f : Function} {outputs : List ValueId}
    (h : f.flatReturn = .ok outputs) {vs : List (Value α)}
    (hvs : List.Forall₂ (fun id v => env.lookup id = .ok v) outputs vs) :
    ∃ o, env.collect f.ret = .ok o ∧ f.ret.parts o = vs := by
  rcases Function.flatReturn_eq_ok_iff.mp h with ⟨id, hret, rfl⟩ | hret
  · rw [hret]
    obtain ⟨v, vs, hv, hnil, rfl⟩ := List.forall₂_cons_left_iff.mp hvs
    cases hnil
    exact ⟨v, hv, rfl⟩
  · rw [hret]
    exact ⟨.tuple vs, map_eq_ok_iff.mpr ⟨vs, collectAll_map_value_eq_ok_iff.mpr hvs, rfl⟩, rfl⟩

end Env

/-! ## The stages of a splice -/

theorem Splice.builder_foldl_place (pairs : List (Param × ValueId)) (f : ValueId → ValueId)
    (s : Splice) :
    (pairs.foldl (fun s (p, output) => s.place p.id (f output)) s).builder = s.builder := by
  induction pairs generalizing s with
  | nil => rfl
  | cons pair pairs ih =>
    obtain ⟨p, output⟩ := pair
    refine (ih _).trans ?_
    show (s.place p.id (f output)).builder = s.builder
    unfold Splice.place
    split <;> rfl

/-- **Placing values** keeps the places there are, and gives the others the first place
that is listed for them. -/
theorem Splice.get?_foldl_place (pairs : List (Param × ValueId)) (f : ValueId → ValueId)
    (s : Splice) (id : ValueId) :
    (pairs.foldl (fun s (p, output) => s.place p.id (f output)) s).placed.get? id =
      (s.placed.get? id).or ((pairs.map fun (p, output) => (p.id, f output)).lookup id) := by
  induction pairs generalizing s with
  | nil => exact (Option.or_none).symm
  | cons pair pairs ih =>
    obtain ⟨p, output⟩ := pair
    have hplace : (s.place p.id (f output)).placed.get? id =
        (s.placed.get? id).or (if id = p.id then some (f output) else none) := by
      rw [Splice.place]
      cases hp : s.placed.get? p.id with
      | some found =>
        by_cases he : id = p.id
        · rw [he, hp, Option.some_or]
        · rw [if_neg he, Option.or_none]
      | none =>
        rw [Remap.get?_insert]
        by_cases he : id = p.id
        · rw [if_pos he, if_pos he, he, hp, Option.none_or]
        · rw [if_neg he, if_neg he, Option.or_none]
    rw [List.foldl_cons, ih, hplace, Option.or_assoc, List.map_cons, List.lookup_cons]
    by_cases he : id = p.id
    · rw [if_pos he, beq_iff_eq.mpr he, Option.some_or]
    · rw [if_neg he, beq_false_of_ne he, Option.none_or]

namespace Composition

section Stages

variable (backbone loss : Function) (outputs : List ValueId) (count : Nat) (name : String)
  (extraNames lossNames : List String)

/-- The parameters of the backbone are in. -/
def front : Splice :=
  (Splice.mk (.empty name) .empty).addParams (backbone.params.map fun p => (p, p.name))

/-- The parameters that are left of the loss are in. -/
def start : Splice :=
  (Splice.mk (front backbone name).builder .empty).addParams
    ((loss.params.drop count).zip extraNames)

/-- The bindings of the backbone are in. -/
def body : Splice :=
  (Splice.mk (start backbone loss count name extraNames).builder
    (front backbone name).placed).addBindings (backbone.bindings.map fun b => (b, b.name))

/-- The predictions are placed. -/
def joined : Splice :=
  (loss.params.zip outputs).foldl
    (fun s (p, output) =>
      s.place p.id ((body backbone loss count name extraNames).placed.value output))
    (Splice.mk (body backbone loss count name extraNames).builder
      (start backbone loss count name extraNames).placed)

/-- The bindings of the loss are in. -/
def done : Splice :=
  (joined backbone loss outputs count name extraNames).addBindings (loss.bindings.zip lossNames)

/-- The parameters of the spliced function: those of the backbone and the rest of the loss's. -/
theorem params_done :
    (done backbone loss outputs count name extraNames lossNames).builder.params =
      (front backbone name).builder.params ++
        Splice.copiedParams ⟨(front backbone name).builder, .empty⟩
          ((loss.params.drop count).zip extraNames) := by
  rw [done, Splice.params_addBindings, joined, Splice.builder_foldl_place, body,
    Splice.params_addBindings, start, Splice.params_addParams]

/-- The bindings of the spliced function: those of the backbone, then those of the loss. -/
theorem bindings_done :
    (done backbone loss outputs count name extraNames lossNames).builder.bindings =
      Splice.copiedBindings ⟨(start backbone loss count name extraNames).builder,
          (front backbone name).placed⟩ (backbone.bindings.map fun b => (b, b.name)) ++
        Splice.copiedBindings (joined backbone loss outputs count name extraNames)
          (loss.bindings.zip lossNames) := by
  rw [done, Splice.bindings_addBindings, joined, Splice.builder_foldl_place, ← joined, body,
    Splice.bindings_addBindings, start, Splice.bindings_addParams, front,
    Splice.bindings_addParams]
  rfl

theorem nextIndex_front_le :
    (front backbone name).builder.nextIndex ≤
      (start backbone loss count name extraNames).builder.nextIndex := by
  rw [start, Splice.nextIndex_addParams]
  exact Nat.le_add_right _ _

theorem nextIndex_start_le :
    (start backbone loss count name extraNames).builder.nextIndex ≤
      (body backbone loss count name extraNames).builder.nextIndex := by
  rw [body, Splice.nextIndex_addBindings]
  exact Nat.le_add_right _ _

theorem nextIndex_joined :
    (joined backbone loss outputs count name extraNames).builder.nextIndex =
      (body backbone loss count name extraNames).builder.nextIndex :=
  congrArg Builder.nextIndex (Splice.builder_foldl_place _ _ _)

/-- What the spliced function returns. -/
def result (target : ValueId) (states : List ValueId) : ReturnExpr :=
  if states.isEmpty then .value target else .tuple ((target :: states).map .value)

/-- **The stages** make up the spliced function. -/
theorem exists_spliceLoss (target : ValueId) :
    ∃ extraNames lossNames, extraNames.length = (loss.params.drop count).length ∧
      lossNames.length = loss.bindings.length ∧
      ∃ exposed, spliceLoss backbone loss outputs count target name =
        (done backbone loss outputs count name extraNames lossNames).builder.finish exposed
          (result ((done backbone loss outputs count name extraNames lossNames).placed.value target)
            ((outputs.drop count).map
              (body backbone loss count name extraNames).placed.value)) := by
  refine ⟨_, _, ?_, ?_, _, rfl⟩
  · exact (NameSupply.length_freshAll _ _).trans (List.length_map _)
  · exact (NameSupply.length_freshAll _ _).trans (List.length_map _)

/-- The spliced function has the name it is given. -/
theorem name_spliceLoss (target : ValueId) :
    (spliceLoss backbone loss outputs count target name).name = name := by
  obtain ⟨extraNames, lossNames, _, _, exposed, hc⟩ :=
    exists_spliceLoss backbone loss outputs count name target
  rw [hc]
  show (done backbone loss outputs count name extraNames lossNames).builder.name = name
  rw [done, Splice.name_addBindings, joined, Splice.builder_foldl_place, body,
    Splice.name_addBindings, start, Splice.name_addParams, front, Splice.name_addParams]
  rfl

/-- The spliced function has as many bindings as the backbone and the loss. -/
theorem length_bindings_spliceLoss (target : ValueId) :
    (spliceLoss backbone loss outputs count target name).bindings.length =
      backbone.bindings.length + loss.bindings.length := by
  obtain ⟨extraNames, lossNames, _, hlen, exposed, hc⟩ :=
    exists_spliceLoss backbone loss outputs count name target
  rw [hc]
  show ((done backbone loss outputs count name extraNames lossNames).builder.bindings ++ []).length
    = _
  rw [List.append_nil, bindings_done, List.length_append, Splice.length_copiedBindings,
    Splice.length_copiedBindings, List.length_map, List.length_zip, hlen, Nat.min_self]

end Stages

/-- **`Checked`** -- the conditions on a backbone and a loss: both are well-formed, the
backbone returns enough values, flat, and its predictions have the types of the parameters
that they take the place of. -/
structure Checked (backbone loss : Function) (outputs : List ValueId) (count : Nat)
    (target : ValueId) : Prop where
  /-- The backbone is well-formed. -/
  backbone_wellFormed : backbone.WellFormed
  /-- The loss is well-formed. -/
  loss_wellFormed : loss.WellFormed
  /-- The backbone returns its outputs next to each other. -/
  flat : backbone.flatReturn = .ok outputs
  /-- There are enough outputs. -/
  available : count ≤ outputs.length
  /-- The loss has enough parameters. -/
  taken : count ≤ loss.params.length
  /-- Predictions have the types of the parameters. -/
  typed : ∀ i < count, ∀ output p, outputs[i]? = some output → loss.params[i]? = some p →
    backbone.typeOf? output = some p.ty
  /-- The loss returns its target. -/
  target : loss.ret = .value target

/-- A loss that fits behind a backbone meets them. -/
theorem checked_of_appendable {backbone loss : Function} {outputs : List ValueId} {count : Nat}
    {target : ValueId} (h : Appendable backbone loss outputs count target) :
    Checked backbone loss outputs count target where
  backbone_wellFormed := Function.verify_eq_ok_iff.mp h.backbone_verified
  loss_wellFormed := Function.verify_eq_ok_iff.mp h.loss_verified
  flat := Function.flatReturn_eq_ok_iff.mpr h.returns
  available := h.available
  taken := h.taken
  typed := by
    intro i hi output p ho hp
    have hat := congrArg (fun types => types[i]?) h.typed
    simpa [List.getElem?_take_of_lt hi, ho, hp] using hat
  target := h.loss_returns

/-- Outputs of the backbone have types. -/
theorem Checked.exists_output {backbone loss : Function} {outputs : List ValueId} {count : Nat}
    {target : ValueId} (h : Checked backbone loss outputs count target) {id : ValueId}
    (hid : id ∈ outputs) : ∃ ty, backbone.context.typeOf? id = some ty :=
  h.backbone_wellFormed.exists_returned (by rwa [Function.values_ret_of_flatReturn h.flat])

/-- The target of the loss has a type. -/
theorem Checked.exists_target {backbone loss : Function} {outputs : List ValueId} {count : Nat}
    {target : ValueId} (h : Checked backbone loss outputs count target) :
    ∃ ty, loss.context.typeOf? target = some ty :=
  h.loss_wellFormed.exists_returned (by rw [h.target]; exact List.mem_singleton.mpr rfl)

/-- **A loss that was appended** met the conditions; the result is verified. -/
theorem spec_of_appendLoss {m : Module} {backboneName : String} {loss : Function} {count : Nat}
    {newName : Option String} {c : Function}
    (h : m.appendLoss backboneName loss count newName = .ok c) :
    ∃ backbone outputs target, m.get? backboneName = some backbone ∧
      Checked backbone loss outputs count target ∧ c.verify = .ok () ∧
        c = spliceLoss backbone loss outputs count target
          (newName.getD (defaultLossName backboneName)) := by
  obtain ⟨backbone, outputs, target, hget, hfits, hresult⟩ := Module.appendLoss_eq_ok_iff.mp h
  exact ⟨backbone, outputs, target, hget, checked_of_appendable hfits, hresult⟩

theorem exists_checked {m : Module} {backboneName : String} {loss : Function} {count : Nat}
    {newName : Option String} {c : Function}
    (h : m.appendLoss backboneName loss count newName = .ok c) :
    ∃ backbone outputs target name, m.get? backboneName = some backbone ∧
      Checked backbone loss outputs count target ∧
        c = spliceLoss backbone loss outputs count target name := by
  obtain ⟨backbone, outputs, target, hget, hchecked, _, hc⟩ := spec_of_appendLoss h
  exact ⟨backbone, outputs, target, _, hget, hchecked, hc⟩

/-! ## The loss starts from the predictions -/

section Run

variable {backbone loss : Function} {outputs : List ValueId} {count : Nat} {target : ValueId}
  {name : String} {extraNames lossNames : List String}

/-- The parameters that are left are the later ones. -/
theorem Checked.zip_eq (h : Checked backbone loss outputs count target) {os : List (Value α)}
    (hos : os.length = outputs.length) (es : List (Value α)) :
    loss.params.zip (os.take count ++ es) =
      (loss.params.take count).zip (os.take count) ++ (loss.params.drop count).zip es := by
  have hlen : (loss.params.take count).length = (os.take count).length := by
    rw [List.length_take_of_le h.taken, List.length_take_of_le (hos ▸ h.available)]
  rw [← List.zip_append hlen, List.take_append_drop]

/-- Predictions have the types of the parameters that they take the place of. -/
theorem Checked.hasType (h : Checked backbone loss outputs count target) {source target' : Env α}
    {placed : Remap} {bound : Nat}
    (hm : source.Mirrors target' placed bound backbone.context) {os : List (Value α)}
    (hos : List.Forall₂ (fun id v => source.lookup id = .ok v) outputs os) {p : Param}
    {v : Value α} (hp : (p, v) ∈ (loss.params.take count).zip (os.take count)) :
    ∃ output copy, (p, output) ∈ loss.params.zip outputs ∧ placed.get? output = some copy ∧
      copy.index < bound ∧ target'.lookup copy = .ok v ∧ v.hasType p.ty = true := by
  obtain ⟨i, hi⟩ := List.getElem?_of_mem hp
  obtain ⟨hpi, hvi⟩ := List.getElem?_zip_eq_some.mp hi
  rw [List.getElem?_take] at hpi hvi
  split at hpi
  · next hlt =>
    rw [if_pos hlt] at hvi
    obtain ⟨hl, hv⟩ := List.getElem?_eq_some_iff.mp hvi
    have hlo : i < outputs.length := hos.length_eq ▸ hl
    have hout : outputs[i]? = some outputs[i] := List.getElem?_eq_getElem hlo
    have hsource : source.lookup outputs[i] = .ok v :=
      ((List.forall₂_iff_get.mp hos).2 i hlo hl).trans (congrArg _ hv)
    have hty := h.typed i hlt outputs[i] p hout hpi
    rw [Function.typeOf?_eq_context] at hty
    obtain ⟨copy, w, hc, hb, hs, ht, hw⟩ := hm outputs[i] p.ty hty
    have hwv : w = v := Except.ok.inj (hs.symm.trans hsource)
    subst hwv
    have hpo : (loss.params.zip outputs)[i]? = some (p, outputs[i]) :=
      List.getElem?_zip_eq_some.mpr ⟨hpi, hout⟩
    exact ⟨outputs[i], copy, List.mem_of_getElem? hpo, hc, hb, ht, hw⟩
  · simp at hpi

theorem exists_mem_zip {β γ : Type} {xs : List β} {ys : List γ} (h : xs.length ≤ ys.length)
    {x : β} (hx : x ∈ xs) : ∃ y, (x, y) ∈ xs.zip ys := by
  rw [← List.map_fst_zip h] at hx
  obtain ⟨⟨_, y⟩, hm, rfl⟩ := List.mem_map.mp hx
  exact ⟨y, hm⟩

theorem map_fst_zip_sublist {β γ : Type} (xs : List β) (ys : List γ) :
    ((xs.zip ys).map Prod.fst).Sublist xs := by
  induction xs generalizing ys with
  | nil => exact .slnil
  | cons x xs ih =>
    cases ys with
    | nil => exact List.nil_sublist _
    | cons y ys => exact (ih ys).cons_cons x

/-- A parameter that is left keeps the place that it has. -/
theorem get?_joined_of_left {id place : ValueId}
    (h : (start backbone loss count name extraNames).placed.get? id = some place) :
    (joined backbone loss outputs count name extraNames).placed.get? id = some place := by
  rw [joined, Splice.get?_foldl_place, h, Option.some_or]

/-- **A prediction** stands in the place of its parameter. -/
theorem get?_joined_of_mem (hn : loss.paramIds.Nodup)
    (hnames : extraNames.length = (loss.params.drop count).length) {p : Param} {output : ValueId}
    (hp : p ∈ loss.params.take count) (hpo : (p, output) ∈ loss.params.zip outputs) :
    (joined backbone loss outputs count name extraNames).placed.get? p.id =
      some ((body backbone loss count name extraNames).placed.value output) := by
  have hfree : (start backbone loss count name extraNames).placed.get? p.id = none := by
    refine (Splice.get?_addParams_of_notMem _ ?_).trans rfl
    rw [List.map_fst_zip (Nat.le_of_eq hnames.symm)]
    rw [List.map_drop]
    refine List.disjoint_take_drop hn (Nat.le_refl count) ?_
    rw [Function.paramIds, ← List.map_take]
    exact List.mem_map_of_mem hp
  have hkeys : (((loss.params.zip outputs).map fun (p, output) => (p.id,
      (body backbone loss count name extraNames).placed.value output)).map Prod.fst).Nodup := by
    rw [List.map_map]
    have hsub := (map_fst_zip_sublist loss.params outputs).map Param.id
    rw [List.map_map] at hsub
    exact hn.sublist hsub
  rw [joined, Splice.get?_foldl_place, hfree, Option.none_or]
  exact (lookup_eq_some_iff hkeys).mpr (List.mem_map.mpr ⟨_, hpo, rfl⟩)

/-- **The loss starts** from the predictions and from the inputs of its own that the
spliced function took in. -/
theorem Checked.mirrors_joined (h : Checked backbone loss outputs count target)
    (hnames : extraNames.length = (loss.params.drop count).length)
    {bodyEnv extraEnv copy : Env α} {es os : List (Value α)}
    (hbody : bodyEnv.Mirrors copy (body backbone loss count name extraNames).placed
      (body backbone loss count name extraNames).builder.nextIndex backbone.context)
    (hextra : extraEnv.Mirrors copy (start backbone loss count name extraNames).placed
      (body backbone loss count name extraNames).builder.nextIndex
      ((loss.params.drop count).map Param.entry))
    (hes : es.length = (loss.params.drop count).length)
    (hin : Env.empty.pushInputs ((loss.params.drop count).zip es) = .ok extraEnv)
    (hos : List.Forall₂ (fun id v => bodyEnv.lookup id = .ok v) outputs os) :
    ∃ lossEnv, Env.empty.pushInputs (loss.params.zip (os.take count ++ es)) = .ok lossEnv ∧
      lossEnv.Mirrors copy (joined backbone loss outputs count name extraNames).placed
        (joined backbone loss outputs count name extraNames).builder.nextIndex
        loss.paramContext := by
  obtain ⟨htypes, rfl⟩ := Env.pushInputs_eq_ok_iff.mp hin
  have hzip := h.zip_eq hos.length_eq.symm es
  have hpredicted : (os.take count).length = (loss.params.take count).length := by
    rw [List.length_take_of_le h.taken, List.length_take_of_le (hos.length_eq ▸ h.available)]
  have hn := h.loss_wellFormed.params_nodup
  have hsplit : loss.params = loss.params.take count ++ loss.params.drop count :=
    (List.take_append_drop count loss.params).symm
  have hleft : ((loss.params.drop count).map Param.id).Nodup :=
    hn.sublist ((List.drop_sublist count loss.params).map Param.id)
  have hlen : loss.params.length ≤ (os.take count ++ es).length := Nat.le_of_eq <| by
    rw [List.length_append, hpredicted, hes, ← List.length_append, List.take_append_drop]
  refine ⟨_, Env.pushInputs_eq_ok_iff.mpr ⟨fun p v hpv => ?_, rfl⟩, ?_⟩
  · rw [hzip] at hpv
    rcases List.mem_append.mp hpv with hpv | hpv
    · obtain ⟨_, _, _, _, _, _, hty⟩ := h.hasType hbody hos hpv
      exact hty
    · exact htypes p v hpv
  · intro id ty hid
    rw [Context.typeOf?_eq_some_iff (loss.ids_paramContext ▸ hn)] at hid
    obtain ⟨p, hp, hentry⟩ := List.mem_map.mp hid
    cases hentry
    have hfound : ∀ v, (p, v) ∈ loss.params.zip (os.take count ++ es) →
        (Env.empty.pushAll (loss.params.zip (os.take count ++ es))).lookup p.id = .ok v :=
      fun v hpv => Env.lookup_pushAll (by rw [map_id_zip hlen]; exact hn) hpv
    have hbound : (joined backbone loss outputs count name extraNames).builder.nextIndex =
        (body backbone loss count name extraNames).builder.nextIndex :=
      congrArg Builder.nextIndex (Splice.builder_foldl_place _ _ _)
    rw [hbound]
    rw [hsplit] at hp
    rcases List.mem_append.mp hp with hp | hp
    · -- a parameter that a prediction takes the place of
      obtain ⟨v, hpv⟩ := exists_mem_zip (Nat.le_of_eq hpredicted.symm) hp
      obtain ⟨output, place, hpo, hc, hb, ht, hty⟩ := h.hasType hbody hos hpv
      refine ⟨place, v, ?_, hb, hfound v ?_, ht, hty⟩
      · rw [get?_joined_of_mem hn hnames hp hpo, Remap.value, hc, Option.getD_some]
      · rw [hzip]
        exact List.mem_append_left _ hpv
    · -- a parameter that is left
      obtain ⟨v, hpv⟩ := exists_mem_zip (Nat.le_of_eq hes.symm) hp
      have htail : (Context.ids ((loss.params.drop count).map Param.entry)).Nodup := by
        rw [Context.ids, List.map_map]
        exact hleft
      obtain ⟨place, w, hc, hb, hs, ht, hty⟩ := hextra p.id p.ty
        ((Context.typeOf?_eq_some_iff htail).mpr (List.mem_map_of_mem (f := Param.entry) hp))
      have hv : (Env.empty.pushAll ((loss.params.drop count).zip es)).lookup p.id = .ok v :=
        Env.lookup_pushAll (by rw [map_id_zip (Nat.le_of_eq hes.symm)]; exact hleft) hpv
      have hwv : w = v := Except.ok.inj (hs.symm.trans hv)
      subst hwv
      refine ⟨place, w, ?_, hb, hfound w ?_, ht, hty⟩
      · exact get?_joined_of_left hc
      · rw [hzip]
        exact List.mem_append_right _ hpv

/-! ## The stages of a run -/

theorem front_agrees (name : String) (hn : backbone.paramIds.Nodup) {xs : List (Value α)}
    (hl : xs.length = backbone.params.length) :
    Agree (fun source copy => source.Mirrors copy (front backbone name).placed
        (front backbone name).builder.nextIndex backbone.paramContext)
      (Env.empty.pushInputs (backbone.params.zip xs))
      (Env.empty.pushInputs ((front backbone name).builder.params.zip xs)) := by
  have hps : (backbone.params.map fun p => (p, p.name)).map Prod.fst = backbone.params :=
    (List.map_map).trans (List.map_id _)
  have hempty : Env.Mirrors (Env.empty : Env α) Env.empty Remap.empty 0 [] := Env.mirrors_nil
  have hrun := Env.Mirrors.pushInputs (s := Splice.mk (.empty name) .empty)
    hempty
    (backbone.params.map fun p => (p, p.name)) (by rw [hps]; exact hn)
    (hl.trans (List.length_map _).symm)
  rw [hps] at hrun
  rw [front, Splice.params_addParams]
  exact hrun.mono fun source copy h => h.1

theorem start_agrees (backbone : Function) (name : String) (hn : loss.paramIds.Nodup)
    (hnames : extraNames.length = (loss.params.drop count).length) {es : List (Value α)}
    (hl : es.length = (loss.params.drop count).length) (copy : Env α) :
    Agree (fun source copy' => source.Mirrors copy'
          (start backbone loss count name extraNames).placed
          (start backbone loss count name extraNames).builder.nextIndex
          ((loss.params.drop count).map Param.entry) ∧
        copy.Keeps (front backbone name).builder.nextIndex copy')
      (Env.empty.pushInputs ((loss.params.drop count).zip es))
      (copy.pushInputs ((Splice.copiedParams ⟨(front backbone name).builder, .empty⟩
        ((loss.params.drop count).zip extraNames)).zip es)) := by
  have hps := List.map_fst_zip (Nat.le_of_eq hnames.symm)
  have hempty : Env.Mirrors Env.empty copy Remap.empty (front backbone name).builder.nextIndex [] :=
    Env.mirrors_nil
  have hrun := Env.Mirrors.pushInputs (s := ⟨(front backbone name).builder, .empty⟩)
    hempty
    ((loss.params.drop count).zip extraNames) (by
      rw [hps]
      exact hn.sublist ((List.drop_sublist count loss.params).map Param.id))
    (by rw [hl, List.length_zip, hnames, Nat.min_self])
  rw [hps] at hrun
  exact hrun

theorem body_agrees (hw : backbone.WellFormed) {source copy : Env α}
    (h : source.Mirrors copy (front backbone name).placed
      (start backbone loss count name extraNames).builder.nextIndex backbone.paramContext) :
    Agree (fun source' copy' => source'.Mirrors copy'
          (body backbone loss count name extraNames).placed
          (body backbone loss count name extraNames).builder.nextIndex backbone.context ∧
        copy.Keeps (start backbone loss count name extraNames).builder.nextIndex copy')
      (backbone.bindings.foldlM (Env.step ar custom) source)
      ((Splice.copiedBindings ⟨(start backbone loss count name extraNames).builder,
        (front backbone name).placed⟩ (backbone.bindings.map fun b => (b, b.name))).foldlM
          (Env.step ar custom) copy) := by
  have hbs : (backbone.bindings.map fun b => (b, b.name)).map Prod.fst = backbone.bindings :=
    (List.map_map).trans (List.map_id _)
  have hrun := Env.Mirrors.run ar custom
    (s := ⟨(start backbone loss count name extraNames).builder, (front backbone name).placed⟩)
    h (backbone.bindings.map fun b => (b, b.name)) (by rw [hbs]; exact hw.accepts)
  rw [hbs] at hrun
  exact hrun

theorem done_agrees (hw : loss.WellFormed) (hnames : lossNames.length = loss.bindings.length)
    {source copy : Env α}
    (h : source.Mirrors copy (joined backbone loss outputs count name extraNames).placed
      (joined backbone loss outputs count name extraNames).builder.nextIndex loss.paramContext) :
    Agree (fun source' copy' => source'.Mirrors copy'
          (done backbone loss outputs count name extraNames lossNames).placed
          (done backbone loss outputs count name extraNames lossNames).builder.nextIndex
          loss.context ∧
        copy.Keeps (joined backbone loss outputs count name extraNames).builder.nextIndex copy')
      (loss.bindings.foldlM (Env.step ar custom) source)
      ((Splice.copiedBindings (joined backbone loss outputs count name extraNames)
        (loss.bindings.zip lossNames)).foldlM (Env.step ar custom) copy) := by
  have hbs := List.map_fst_zip (Nat.le_of_eq hnames.symm)
  have hrun := Env.Mirrors.run ar custom h (loss.bindings.zip lossNames)
    (by rw [hbs]; exact hw.accepts)
  rw [hbs] at hrun
  exact hrun

/-- **What is returned** at the end: what the loss returns, and behind it what the backbone
returns besides the predictions. -/
theorem Checked.collect_eq_ok (h : Checked backbone loss outputs count target)
    {bodyEnv lossEnv mid final : Env α} {placed placed' : Remap} {bound bound' : Nat}
    {os : List (Value α)} {l : Value α}
    (hbody : bodyEnv.Mirrors mid placed bound backbone.context)
    (hloss : lossEnv.Mirrors final placed' bound' loss.context)
    (hkeeps : mid.Keeps bound final)
    (hos : List.Forall₂ (fun id v => bodyEnv.lookup id = .ok v) outputs os)
    (hl : lossEnv.collect loss.ret = .ok l) :
    final.collect (result (placed'.value target) ((outputs.drop count).map placed.value)) =
      .ok (if os.length = count then l else .tuple (l :: os.drop count)) := by
  rw [h.target] at hl
  obtain ⟨ty, hty⟩ := h.exists_target
  have hresult : final.lookup (placed'.value target) = .ok l := (hloss.lookup_eq hty).trans hl
  have hstates : List.Forall₂ (fun id v => final.lookup id = .ok v)
      ((outputs.drop count).map placed.value) (os.drop count) := by
    rw [List.forall₂_map_left_iff, List.forall₂_iff_get]
    refine ⟨by rw [List.length_drop, List.length_drop, hos.length_eq], fun i hi hi' => ?_⟩
    have hm := List.mem_of_mem_drop (List.get_mem (outputs.drop count) ⟨i, hi⟩)
    obtain ⟨ty, hty⟩ := h.exists_output hm
    obtain ⟨place, v, hc, hb, hs, ht, _⟩ := hbody _ ty hty
    have hv : bodyEnv.lookup ((outputs.drop count).get ⟨i, hi⟩) =
        .ok ((os.drop count).get ⟨i, hi'⟩) :=
      (List.forall₂_iff_get.mp (List.forall₂_drop count hos)).2 i hi hi'
    rw [Remap.value, hc, Option.getD_some, hkeeps place hb, ht, ← hs, hv]
  have hlen := hstates.length_eq
  rw [List.length_map, List.length_drop, List.length_drop] at hlen
  have hcount := h.available
  have hoslen := hos.length_eq
  rw [result]
  by_cases hdone : os.length = count
  · have hempty : outputs.drop count = [] := List.drop_eq_nil_of_le (by omega)
    rw [if_pos hdone, hempty]
    exact hresult
  · have hmore : ¬((outputs.drop count).map placed.value).isEmpty = true := by
      rw [List.isEmpty_iff, List.map_eq_nil_iff, List.drop_eq_nil_iff]
      omega
    rw [if_neg hdone, if_neg hmore]
    exact map_eq_ok_iff.mpr
      ⟨_, Env.collectAll_map_value_eq_ok_iff.mpr (.cons hresult hstates), rfl⟩

/-- **A run of the spliced function** goes in stages: the parameters of the backbone and those
left of the loss, then the bindings of the backbone and those of the loss. -/
theorem run_spliced_eq_ok_iff
    (hextra : extraNames.length = (loss.params.drop count).length) (exposed : List ValueId)
    (ret : ReturnExpr) {xs es : List (Value α)} (hxs : xs.length = backbone.params.length)
    {v : Value α} :
    ((done backbone loss outputs count name extraNames lossNames).builder.finish exposed ret).run
        ar custom (xs ++ es) = .ok v ↔
      es.length = (loss.params.drop count).length ∧ ∃ copy₀ copy₁ copy₂ final,
        Env.empty.pushInputs ((front backbone name).builder.params.zip xs) = .ok copy₀ ∧
        copy₀.pushInputs ((Splice.copiedParams ⟨(front backbone name).builder, .empty⟩
          ((loss.params.drop count).zip extraNames)).zip es) = .ok copy₁ ∧
        (Splice.copiedBindings ⟨(start backbone loss count name extraNames).builder,
          (front backbone name).placed⟩ (backbone.bindings.map fun b => (b, b.name))).foldlM
            (Env.step ar custom) copy₁ = .ok copy₂ ∧
        (Splice.copiedBindings (joined backbone loss outputs count name extraNames)
          (loss.bindings.zip lossNames)).foldlM (Env.step ar custom) copy₂ = .ok final ∧
        final.collect ret = .ok v := by
  have hfront : (front backbone name).builder.params.length = xs.length := by
    rw [front, Splice.params_addParams, hxs]
    exact (Splice.length_copiedParams _ _).trans (List.length_map _)
  have hrest : (Splice.copiedParams ⟨(front backbone name).builder, .empty⟩
      ((loss.params.drop count).zip extraNames)).length = (loss.params.drop count).length := by
    rw [Splice.length_copiedParams, List.length_zip, hextra, Nat.min_self]
  have hfinish : ∀ (b : Builder) (ids : List ValueId) (ret : ReturnExpr),
      (b.finish ids ret).bindings = b.bindings := fun b _ _ => List.append_nil b.bindings
  rw [Function.run_eq_ok_iff, hfinish, bindings_done]
  show ((done backbone loss outputs count name extraNames lossNames).builder.params.length = _ ∧
    ∃ start final, Env.empty.pushInputs
      ((done backbone loss outputs count name extraNames lossNames).builder.params.zip _) = _ ∧ _)
      ↔ _
  rw [params_done, List.zip_append hfront, List.length_append, List.length_append, hrest, hfront]
  constructor
  · rintro ⟨hlen, copy₁, final, hin, hrun, hcollect⟩
    obtain ⟨copy₀, hin₀, hin₁⟩ := Env.pushInputs_append_eq_ok_iff.mp hin
    obtain ⟨copy₂, hrun₁, hrun₂⟩ := foldlM_append_eq_ok_iff.mp hrun
    exact ⟨by omega, copy₀, copy₁, copy₂, final, hin₀, hin₁, hrun₁, hrun₂, hcollect⟩
  · rintro ⟨hes, copy₀, copy₁, copy₂, final, hin₀, hin₁, hrun₁, hrun₂, hcollect⟩
    exact ⟨by omega, copy₁, final, Env.pushInputs_append_eq_ok_iff.mpr ⟨copy₀, hin₀, hin₁⟩,
      foldlM_append_eq_ok_iff.mpr ⟨copy₂, hrun₁, hrun₂⟩, hcollect⟩

/-- **A run of the spliced function** is a run of the backbone and one of the loss on its
predictions. -/
theorem Checked.run_eq_ok_iff (h : Checked backbone loss outputs count target)
    (hextra : extraNames.length = (loss.params.drop count).length)
    (hlossNames : lossNames.length = loss.bindings.length) (exposed : List ValueId)
    {xs es : List (Value α)} (hxs : xs.length = backbone.params.length) {v : Value α} :
    ((done backbone loss outputs count name extraNames lossNames).builder.finish exposed
      (result ((done backbone loss outputs count name extraNames lossNames).placed.value target)
        ((outputs.drop count).map
          (body backbone loss count name extraNames).placed.value))).run ar custom (xs ++ es) =
        .ok v ↔
      ∃ o l, backbone.run ar custom xs = .ok o ∧
        loss.run ar custom ((backbone.ret.parts o).take count ++ es) = .ok l ∧
          v = if (backbone.ret.parts o).length = count then l
            else .tuple (l :: (backbone.ret.parts o).drop count) := by
  have hle₁ := nextIndex_front_le backbone loss count name extraNames
  have hle₂ := nextIndex_start_le backbone loss count name extraNames
  have hjoined := nextIndex_joined backbone loss outputs count name extraNames
  have hdrop := List.length_drop (i := count) (l := loss.params)
  have htaken := h.taken
  have havailable := h.available
  rw [run_spliced_eq_ok_iff hextra exposed _ hxs]
  constructor
  · rintro ⟨hes, copy₀, copy₁, copy₂, final, hin₀, hin₁, hrun₁, hrun₂, hcollect⟩
    obtain ⟨bodyStart, hbs, hm₀⟩ :=
      (front_agrees name h.backbone_wellFormed.params_nodup hxs).2 copy₀ hin₀
    obtain ⟨extraEnv, hextraIn, hm₁, hk₁⟩ :=
      (start_agrees backbone name h.loss_wellFormed.params_nodup hextra hes copy₀).2 copy₁ hin₁
    obtain ⟨bodyEnv, hbe, hm₂, hk₂⟩ :=
      (body_agrees h.backbone_wellFormed (hm₀.keeps hk₁ hle₁)).2 copy₂ hrun₁
    obtain ⟨os, hos⟩ : ∃ os, List.Forall₂ (fun id v => bodyEnv.lookup id = .ok v) outputs os :=
      exists_forall₂ fun id hid => hm₂.exists_lookup (h.exists_output hid)
    obtain ⟨o, ho, rfl⟩ := Env.exists_collect h.flat hos
    obtain ⟨lossStart, hls, hm₃⟩ :=
      h.mirrors_joined hextra hm₂ (hm₁.keeps hk₂ hle₂) hes hextraIn hos
    obtain ⟨lossEnv, hle, hm₄, hk₄⟩ :=
      (done_agrees h.loss_wellFormed hlossNames hm₃).2 final hrun₂
    obtain ⟨l, hl⟩ : ∃ l, lossEnv.collect loss.ret = .ok l :=
      h.target ▸ hm₄.exists_lookup h.exists_target
    have hv := h.collect_eq_ok hm₂ hm₄ (hjoined ▸ hk₄) hos hl
    have hoslen := hos.length_eq
    have hlossLen : loss.params.length =
        ((backbone.ret.parts o).take count ++ es).length := by
      rw [List.length_append, List.length_take_of_le (by omega)]
      omega
    exact ⟨o, l, Function.run_eq_ok_iff.mpr ⟨hxs.symm, bodyStart, bodyEnv, hbs, hbe, ho⟩,
      Function.run_eq_ok_iff.mpr ⟨hlossLen, lossStart, lossEnv, hls, hle, hl⟩,
      Except.ok.inj (hcollect.symm.trans hv)⟩
  · rintro ⟨o, l, hb, hl, rfl⟩
    obtain ⟨_, bodyStart, bodyEnv, hbs, hbe, ho⟩ := Function.run_eq_ok_iff.mp hb
    obtain ⟨hlen, lossStart, lossEnv, hls, hle, hl⟩ := Function.run_eq_ok_iff.mp hl
    have hos := Env.collect_eq_ok h.flat ho
    have hoslen := hos.length_eq
    rw [List.length_append, List.length_take_of_le (by omega)] at hlen
    have hes : es.length = (loss.params.drop count).length := by omega
    obtain ⟨extraEnv, hextraIn⟩ : ∃ extraEnv,
        Env.empty.pushInputs ((loss.params.drop count).zip es) = .ok extraEnv := by
      obtain ⟨htypes, _⟩ := Env.pushInputs_eq_ok_iff.mp hls
      refine ⟨_, Env.pushInputs_eq_ok_iff.mpr ⟨fun p v hpv => htypes p v ?_, rfl⟩⟩
      rw [h.zip_eq hoslen.symm]
      exact List.mem_append_right _ hpv
    obtain ⟨copy₀, hin₀, hm₀⟩ :=
      (front_agrees name h.backbone_wellFormed.params_nodup hxs).1 bodyStart hbs
    obtain ⟨copy₁, hin₁, hm₁, hk₁⟩ :=
      (start_agrees backbone name h.loss_wellFormed.params_nodup hextra hes copy₀).1
        extraEnv hextraIn
    obtain ⟨copy₂, hrun₁, hm₂, hk₂⟩ :=
      (body_agrees h.backbone_wellFormed (hm₀.keeps hk₁ hle₁)).1 bodyEnv hbe
    obtain ⟨lossStart', hls', hm₃⟩ :=
      h.mirrors_joined hextra hm₂ (hm₁.keeps hk₂ hle₂) hes hextraIn hos
    have hstart : lossStart' = lossStart := Except.ok.inj (hls'.symm.trans hls)
    subst hstart
    obtain ⟨final, hrun₂, hm₄, hk₄⟩ :=
      (done_agrees h.loss_wellFormed hlossNames hm₃).1 lossEnv hle
    exact ⟨hes, copy₀, copy₁, copy₂, final, hin₀, hin₁, hrun₁, hrun₂,
      h.collect_eq_ok hm₂ hm₄ (hjoined ▸ hk₄) hos hl⟩

end Run

end Composition

namespace Module

/-- **A loss behind a backbone computes the composition.** Whenever the two are put
together, the result has a value for inputs of the backbone followed by inputs of the loss
exactly when the backbone has one and the loss has one on the predictions, which are the
first values that the backbone returns; and then it returns what the loss returns, alone if
there are only predictions, and otherwise in front of the other values. -/
theorem appendLoss_run_iff {m : Module} {backboneName : String} {loss : Function} {count : Nat}
    {newName : Option String} {c : Function}
    (h : m.appendLoss backboneName loss count newName = .ok c) (ar : Arithmetic α)
    (custom : CustomKernels α) :
    ∃ backbone, m.get? backboneName = some backbone ∧
      ∀ (xs es : List (Value α)) (v : Value α), xs.length = backbone.params.length →
        (c.run ar custom (xs ++ es) = .ok v ↔
          ∃ o l, backbone.run ar custom xs = .ok o ∧
            loss.run ar custom ((backbone.ret.parts o).take count ++ es) = .ok l ∧
              v = if (backbone.ret.parts o).length = count then l
                else .tuple (l :: (backbone.ret.parts o).drop count)) := by
  obtain ⟨backbone, outputs, target, name, hget, hchecked, rfl⟩ := Composition.exists_checked h
  refine ⟨backbone, hget, fun xs es v hxs => ?_⟩
  obtain ⟨extraNames, lossNames, hextra, hlossNames, exposed, hc⟩ :=
    Composition.exists_spliceLoss backbone loss outputs count name target
  rw [hc]
  exact hchecked.run_eq_ok_iff hextra hlossNames exposed hxs

/-- A backbone that returns its prediction and, besides, its parameter. -/
def doubling : Function where
  name := "doubling"
  params := [⟨⟨0⟩, "x", .tensor ⟨.f32, ⟨[2]⟩⟩⟩]
  regions := [⟨[⟨⟨1⟩, "y", .call .add [.value ⟨0⟩, .value ⟨0⟩], .tensor ⟨.f32, ⟨[2]⟩⟩⟩], [⟨1⟩]⟩]
  ret := .tuple [.value ⟨1⟩, .value ⟨0⟩]

/-- A loss with the identities and names of the backbone. -/
def offset : Function where
  name := "offset"
  params := [⟨⟨0⟩, "x", .tensor ⟨.f32, ⟨[2]⟩⟩⟩, ⟨⟨1⟩, "y", .tensor ⟨.f32, ⟨[2]⟩⟩⟩]
  regions :=
    [⟨[⟨⟨2⟩, "z", .call .subtract [.value ⟨0⟩, .value ⟨1⟩], .tensor ⟨.f32, ⟨[2]⟩⟩⟩,
      ⟨⟨3⟩, "loss", .call (.sum none false) [.value ⟨2⟩], .tensor ⟨.f32, ⟨[]⟩⟩⟩], [⟨3⟩]⟩]
  ret := .value ⟨3⟩

theorem appendLoss_offset_doubling :
    ∃ c, Module.appendLoss ⟨currentVersion, [doubling]⟩ "doubling" offset 1 none = .ok c ∧
      ∀ v, c.run .float CustomKernels.none
          ([.tensor ⟨⟨.f32, ⟨[2]⟩⟩, #[1, 2]⟩] ++ [.tensor ⟨⟨.f32, ⟨[2]⟩⟩, #[3, 5]⟩]) = .ok v ↔
        ∃ o l, doubling.run .float CustomKernels.none [.tensor ⟨⟨.f32, ⟨[2]⟩⟩, #[1, 2]⟩] = .ok o ∧
          offset.run .float CustomKernels.none ((doubling.ret.parts o).take 1 ++
            [.tensor ⟨⟨.f32, ⟨[2]⟩⟩, #[3, 5]⟩]) = .ok l ∧
          v = if (doubling.ret.parts o).length = 1 then l
            else .tuple (l :: (doubling.ret.parts o).drop 1) := by
  refine ⟨_, rfl, fun v => ?_⟩
  have happend : Module.appendLoss ⟨currentVersion, [doubling]⟩ "doubling" offset 1 none = .ok _ :=
    rfl
  obtain ⟨backbone, hget, hrun⟩ := appendLoss_run_iff happend .float CustomKernels.none
  cases hget
  exact hrun _ _ v rfl

end Module

end TensorGraph
