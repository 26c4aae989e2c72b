/-
# TensorGraph.Proofs.JsonForm -- the JSON form is faithful

A decoder undoes an encoder on the values that fit, as long as the levels it is given reach as
deep as the document (`Json.Decodes`). This is passed on from numbers to lists, records, trees and
functions; together with the reading of documents it gives the round trip of modules.
-/
import Mathlib.Data.List.Nodup
import TensorGraph.Proofs.Documents
import TensorGraph.Proofs.Storable

namespace TensorGraph

open scoped CoreInstances

namespace Json

/-! ## Depth -/

theorem depthElements_le {elements : List Json} {d : Nat} :
    depthElements elements ≤ d ↔ ∀ element ∈ elements, element.depth ≤ d := by
  induction elements with
  | nil => simp [depthElements]
  | cons element rest ih => rw [depthElements, Nat.max_le, ih, List.forall_mem_cons]

theorem depthFields_le {fields : List (Option String × Json)} {d : Nat} :
    depthFields fields ≤ d ↔ ∀ field ∈ fields, field.2.depth ≤ d := by
  induction fields with
  | nil => simp [depthFields]
  | cons field rest ih => rw [depthFields, Nat.max_le, ih, List.forall_mem_cons]

theorem succ_le_iff_exists {k d : Nat} : k + 1 ≤ d ↔ ∃ d', d = d' + 1 ∧ k ≤ d' := by
  constructor
  · intro h
    exact ⟨d - 1, by omega, by omega⟩
  · rintro ⟨d', rfl, h⟩
    exact Nat.succ_le_succ h

/-- The elements of a list are one level down. -/
theorem depth_array_le {elements : List Json} {d : Nat} :
    (array elements).depth ≤ d ↔ ∃ d', d = d' + 1 ∧ ∀ element ∈ elements, element.depth ≤ d' := by
  simp only [depth, succ_le_iff_exists, depthElements_le]

/-- The fields of a record are one level down. -/
theorem depth_record_le {fields : List (String × Json)} {d : Nat} :
    (record fields).depth ≤ d ↔ ∃ d', d = d' + 1 ∧ ∀ field ∈ fields, field.2.depth ≤ d' := by
  simp only [record, depth, succ_le_iff_exists, depthFields_le, List.forall_mem_map]

/-- What a kind carries is one level down. -/
theorem depth_tagged_le {tag : String} {value : Json} {d : Nat} :
    (tagged tag value).depth ≤ d ↔ ∃ d', d = d' + 1 ∧ value.depth ≤ d' := by
  simp only [tagged, depth, succ_le_iff_exists, depthFields_le, List.forall_mem_singleton]

/-! ## Decoders and encoders that belong together -/

/-- **`Decodes`** -- a decoder undoes an encoder on what fits, given enough levels. -/
def Decodes {α : Type} (decode : JsonDecoder α) (encode : α → Json) (fits : α → Prop) : Prop :=
  ∀ x, fits x → ∀ d, (encode x).depth ≤ d → decode d (encode x) = some x

section Decodes

variable {α β : Type} {decode : JsonDecoder α} {encode : α → Json} {fits : α → Prop}

theorem mapM_map_eq_some {f : Json → Option α} {xs : List α}
    (h : ∀ x ∈ xs, f (encode x) = some x) : (xs.map encode).mapM f = some xs := by
  induction xs with
  | nil => rfl
  | cons x xs ih =>
    obtain ⟨hx, hxs⟩ := List.forall_mem_cons.mp h
    rw [List.map_cons, List.mapM_cons, hx, ih hxs]
    rfl

/-- **Lists** are decoded element by element. -/
theorem Decodes.list (h : Decodes decode encode fits) :
    Decodes (list decode) (fun xs => .array (xs.map encode)) (ListFits fits) := by
  intro xs hxs d hd
  obtain ⟨inner, rfl, hinner⟩ := depth_array_le.mp hd
  exact mapM_map_eq_some fun x hx => h x (hxs.2 x hx) inner (hinner _ (List.mem_map_of_mem hx))

/-- **The fields of a record** are found by their names. -/
theorem fields?_record {fields : List (String × Json)} (hn : (fields.map Prod.fst).Nodup)
    (d : Nat) : (record fields).fields? (fields.map Prod.fst) (d + 1) =
      some (d, fields.map fun field => some field.2) := by
  have hkeys : (fields.map fun field => (some field.1, field.2)).mapM Prod.fst =
      some (fields.map Prod.fst) := by
    clear hn
    induction fields with
    | nil => rfl
    | cons field fields ih =>
      rw [List.map_cons, List.mapM_cons, ih]
      rfl
  have hcount : ((fields.map Prod.fst).all fun name =>
      (fields.map Prod.fst).count name ≤ 1) = true :=
    List.all_eq_true.mpr fun name _ => decide_eq_true (List.nodup_iff_count_le_one.mp hn name)
  have hlookup : ((fields.map Prod.fst).map fun name =>
      (fields.map fun field => (some field.1, field.2)).lookup (some name)) =
        fields.map fun field => some field.2 := by
    clear hkeys hcount
    induction fields with
    | nil => rfl
    | cons field fields ih =>
      obtain ⟨hfield, hfields⟩ := List.nodup_cons.mp hn
      rw [List.map_cons, List.map_cons, List.map_cons, List.map_cons, List.lookup_cons,
        beq_self_eq_true, ← ih hfields]
      refine congrArg (some field.2 :: ·) (List.map_congr_left fun name hname => ?_)
      have hne : ¬name = field.1 := by
        rintro rfl
        exact hfield hname
      rw [List.lookup_cons, beq_false_of_ne fun he => hne (Option.some.inj he)]
  rw [record, fields?]
  simp only [hkeys, Option.bind_eq_bind, Option.bind_some, hcount, if_true, hlookup]
  rfl

end Decodes

/-! ## Numbers and texts -/

theorem nat?_ofNat {bound n : Nat} (h : n < bound) : (ofNat n).nat? bound = some n := if_pos h

theorem valueId?_ofValueId {id : ValueId} (h : id.Storable) :
    (ofValueId id).valueId? = some id := by
  rw [valueId?, ofValueId, nat?_ofNat h]
  rfl

theorem decodes_valueId : Decodes (fun _ => valueId?) ofValueId ValueId.Storable :=
  fun _ h _ _ => valueId?_ofValueId h

theorem decodes_nats (bound : Nat) : Decodes (nats bound) ofNats (ListFits (· < bound)) := by
  have hitem : Decodes (fun _ => nat? bound) ofNat (· < bound) := fun _ h _ _ => nat?_ofNat h
  exact hitem.list

theorem dtype?_ofText (d : DType) (depth : Nat) :
    (ofText d.jsonName).dtype? depth = some d := by
  cases d <;> rfl

/-! ## Types and literals -/

theorem decodes_shape : Decodes shape? (fun s => record [("dims", ofNats s.dims)])
    fun s => ListFits (· < indexBound) s.dims := by
  intro s hs d hd
  simp only [depth_record_le, List.forall_mem_cons] at hd
  obtain ⟨d, rfl, hdepth, -⟩ := hd
  have hfields : (record [("dims", ofNats s.dims)]).fields? ["dims"] (d + 1) =
    some (d, [some (ofNats s.dims)]) := fields?_record (by simp) d
  simp only [shape?, hfields, Option.bind_eq_bind, Option.bind_some,
    decodes_nats indexBound s.dims hs d hdepth]
  rfl

theorem decodes_spec : Decodes spec? ofSpec TensorSpec.Storable := by
  intro t ht d hd
  rw [ofSpec, depth_record_le] at hd
  simp only [List.forall_mem_cons] at hd
  obtain ⟨d, rfl, -, hshape, -⟩ := hd
  have hfields : (ofSpec t).fields? ["dtype", "shape"] (d + 1) = some (d,
      [some (ofText t.dtype.jsonName), some (record [("dims", ofNats t.shape.dims)])]) :=
    fields?_record (by simp) d
  simp only [spec?, hfields, Option.bind_eq_bind, Option.bind_some, dtype?_ofText,
    decodes_shape t.shape ht d hshape]
  rfl

theorem decodes_literal : Decodes literal? ofLiteral Literal.Storable := by
  intro l hl d hd
  simp only [ofLiteral, depth_record_le, List.forall_mem_cons] at hd
  obtain ⟨d, rfl, hspec, hbytes, -⟩ := hd
  have hfields : (ofLiteral l).fields? ["spec", "bytes"] (d + 1) = some (d,
      [some (ofSpec l.spec), some (ofNats (l.bytes.map UInt8.toNat))]) :=
    fields?_record (by simp) d
  have hfits : ListFits (· < 256) (l.bytes.map UInt8.toNat) := by
    refine ⟨by rw [List.length_map]; exact hl.2, fun n hn => ?_⟩
    obtain ⟨b, _, rfl⟩ := List.mem_map.mp hn
    exact b.toNat_lt
  have hback : (l.bytes.map UInt8.toNat).map UInt8.ofNat = l.bytes := by
    rw [List.map_map]
    exact List.map_id'' (fun b => UInt8.ofNat_toNat) _
  simp only [literal?, hfields, Option.bind_eq_bind, Option.bind_some,
    decodes_spec l.spec hl.1 d hspec, decodes_nats 256 _ hfits d hbytes, hback]
  rfl

/-! ## Trees -/

/-- **`TreeForm`** -- trees that are objects of one of two kinds: a leaf, or a list of trees. -/
structure TreeForm {α β : Type} (decode : JsonDecoder β) (encode : β → Json) (fits : β → Prop)
    (leafTag : String) (leaf : JsonDecoder α) (encodeLeaf : α → Json) (fitsLeaf : α → Prop)
    (ofLeaf : α → β) (ofTrees : List β → β) : Prop where
  /-- Leaves are decoded. -/
  decodes_leaf : Decodes leaf encodeLeaf fitsLeaf
  /-- A tree is a leaf or a list of trees. -/
  eq_cases : ∀ x, (∃ a, x = ofLeaf a) ∨ ∃ xs, x = ofTrees xs
  /-- A leaf is named and encoded. -/
  encode_leaf : ∀ a, encode (ofLeaf a) = tagged leafTag (encodeLeaf a)
  /-- A list of trees is named and encoded. -/
  encode_trees : ∀ xs, encode (ofTrees xs) = tagged "Tuple" (.array (xs.map encode))
  /-- A leaf is decoded one level down. -/
  decode_leaf : ∀ d json, decode (d + 1) (tagged leafTag json) = (leaf d json).map ofLeaf
  /-- A list of trees is decoded two levels down. -/
  decode_trees : ∀ d elements, decode (d + 2) (tagged "Tuple" (.array elements)) =
    (elements.mapM (decode d)).map ofTrees
  /-- A leaf fits as a tree. -/
  fits_leaf : ∀ a, fits (ofLeaf a) → fitsLeaf a
  /-- A list of trees fits as a tree. -/
  fits_trees : ∀ xs, fits (ofTrees xs) → ListFits fits xs

/-- **Trees** are decoded level by level. -/
theorem TreeForm.decodes {α β : Type} {decode : JsonDecoder β} {encode : β → Json}
    {fits : β → Prop} {leafTag : String} {leaf : JsonDecoder α} {encodeLeaf : α → Json}
    {fitsLeaf : α → Prop} {ofLeaf : α → β} {ofTrees : List β → β}
    (h : TreeForm decode encode fits leafTag leaf encodeLeaf fitsLeaf ofLeaf ofTrees) :
    Decodes decode encode fits := by
  intro x hx d hd
  induction d using Nat.strongRecOn generalizing x with
  | ind d ih =>
    rcases h.eq_cases x with ⟨a, rfl⟩ | ⟨xs, rfl⟩
    · rw [h.encode_leaf] at hd ⊢
      obtain ⟨inner, rfl, hinner⟩ := depth_tagged_le.mp hd
      rw [h.decode_leaf, h.decodes_leaf a (h.fits_leaf a hx) inner hinner, Option.map_some]
    · rw [h.encode_trees] at hd ⊢
      obtain ⟨_, rfl, hlist⟩ := depth_tagged_le.mp hd
      obtain ⟨inner, rfl, hinner⟩ := depth_array_le.mp hlist
      have hall := (h.fits_trees xs hx).2
      have htrees : (xs.map encode).mapM (decode inner) = some xs :=
        mapM_map_eq_some fun x hx =>
          ih inner (by omega) x (hall x hx) (hinner _ (List.mem_map_of_mem hx))
      rw [h.decode_trees, htrees, Option.map_some]

theorem treeForm_type : TreeForm type? ofType ValueType.Storable "Tensor" spec? ofSpec
    TensorSpec.Storable .tensor .tuple where
  decodes_leaf := decodes_spec
  eq_cases := fun ty => by cases ty <;> simp
  encode_leaf := fun _ => rfl
  encode_trees := fun elements => by rw [ofType, ofTypes_eq_map]
  decode_leaf := fun _ _ => by simp [tagged, type?]
  decode_trees := fun _ _ => by simp [tagged, type?]
  fits_leaf := fun _ h => h
  fits_trees := fun _ => ValueType.storable_tuple.mp

/-- **Types** are decoded. -/
theorem decodes_type : Decodes type? ofType ValueType.Storable := treeForm_type.decodes

/-! ## Expressions -/

/-- The part of an expression that is a component of a tuple. -/
theorem element?_ofElement {tuple : ValueId} {index : Nat} (ht : tuple.Storable)
    (hi : index < indexBound) {d : Nat} (hd : (ofElement tuple index).depth ≤ d) :
    (ofElement tuple index).element? d = some (tuple, index) := by
  simp only [ofElement, depth_record_le, List.forall_mem_cons] at hd
  obtain ⟨d, rfl, -⟩ := hd
  have hfields : (ofElement tuple index).fields? ["tuple", "index"] (d + 1) = some (d,
      [some (ofValueId tuple), some (ofNat index)]) := fields?_record (by simp) d
  simp only [element?, hfields, Option.bind_eq_bind, Option.bind_some, valueId?_ofValueId ht,
    index?, nat?_ofNat hi]
  rfl

/-- What is named is taken with its name. -/
theorem payload?_tagged (tag : String) (value : Json) (d : Nat) :
    (tagged tag value).payload? (d + 1) = some (tag, value, d) := rfl

theorem variant?_tagged (tag : String) (value : Json) (d : Nat) :
    (tagged tag value).variant? (d + 1) = some (tag, value, d) := rfl

theorem decodes_operand : Decodes operand? ofOperand Operand.Storable := by
  intro x hx d hd
  cases x with
  | value id =>
    obtain ⟨d, rfl, _⟩ := depth_tagged_le.mp hd
    simp [operand?, ofOperand, payload?_tagged, valueId?_ofValueId (show id.Storable from hx)]
  | tupleElement tuple index =>
    obtain ⟨d, rfl, hinner⟩ := depth_tagged_le.mp hd
    simp [operand?, ofOperand, payload?_tagged, element?_ofElement hx.1 hx.2 hinner]
  | literal constant =>
    obtain ⟨d, rfl, hinner⟩ := depth_tagged_le.mp hd
    simp [operand?, ofOperand, payload?_tagged, decodes_literal constant hx d hinner]

/-- Axes are decoded, given or not. -/
theorem axes?_ofAxes {axes : Option (List Nat)}
    (h : ∀ ns ∈ axes, ListFits (· < indexBound) ns) {d : Nat} (hd : (ofAxes axes).depth ≤ d) :
    axes? d (some (ofAxes axes)) = some axes := by
  cases axes with
  | none => rfl
  | some ns =>
    have hns := decodes_nats indexBound ns (h ns rfl) d hd
    show (nats indexBound d (ofNats ns)).map some = _
    rw [hns, Option.map_some]

theorem soleField?_record (name : String) (value : Json) (d : Nat) :
    (record [(name, value)]).soleField? name (d + 1) = some (d, value) := by
  have hfields : (record [(name, value)]).fields? [name] (d + 1) = some (d, [some value]) :=
    fields?_record (by simp) d
  simp only [soleField?, hfields, Option.bind_eq_bind, Option.bind_some]

/-- An operator with parameters is decoded from what it carries. -/
theorem operation?_tagged {tag : String} (h : plainOperation? tag = none) (value : Json) (d : Nat) :
    (tagged tag value).operation? (d + 1) = loadedOperation? d tag value := by
  simp only [operation?, variant?_tagged, Option.bind_eq_bind, Option.bind_some, h]

/-- **Operations** are decoded. -/
theorem decodes_operation : Decodes operation? ofOperation Operation.Storable := by
  intro op hop d hd
  cases op with
  | transpose perm =>
    obtain ⟨_, rfl, hrecord⟩ := depth_tagged_le.mp hd
    obtain ⟨d, rfl, hinner⟩ := depth_record_le.mp hrecord
    have hperm := decodes_nats indexBound perm hop d (hinner _ List.mem_cons_self)
    rw [ofOperation, operation?_tagged rfl]
    simp [loadedOperation?, soleField?_record, hperm]
  | reshape dims =>
    obtain ⟨_, rfl, hrecord⟩ := depth_tagged_le.mp hd
    obtain ⟨d, rfl, hinner⟩ := depth_record_le.mp hrecord
    have hdims := decodes_nats indexBound dims hop d (hinner _ List.mem_cons_self)
    rw [ofOperation, operation?_tagged rfl]
    simp [loadedOperation?, soleField?_record, hdims]
  | sum axes keepdims =>
    obtain ⟨_, rfl, hrecord⟩ := depth_tagged_le.mp hd
    obtain ⟨d, rfl, hinner⟩ := depth_record_le.mp hrecord
    have haxes := axes?_ofAxes hop (hinner _ List.mem_cons_self)
    have hfields : (record [("axes", ofAxes axes), ("keepdims", .bool keepdims)]).fields?
        ["axes", "keepdims"] (d + 1) = some (d, [some (ofAxes axes), some (.bool keepdims)]) :=
      fields?_record (by simp) d
    rw [ofOperation, operation?_tagged rfl]
    simp [loadedOperation?, hfields, haxes, bool?]
  | softmax axis =>
    obtain ⟨_, rfl, hrecord⟩ := depth_tagged_le.mp hd
    obtain ⟨d, rfl, _⟩ := depth_record_le.mp hrecord
    rw [ofOperation, operation?_tagged rfl]
    simp [loadedOperation?, soleField?_record, index?, nat?_ofNat (n := axis) hop]
  | customCall target =>
    obtain ⟨_, rfl, hrecord⟩ := depth_tagged_le.mp hd
    obtain ⟨d, rfl, _⟩ := depth_record_le.mp hrecord
    rw [ofOperation, operation?_tagged rfl]
    simp [loadedOperation?, soleField?_record, ofText, text?]
  | _ => rfl

theorem treeForm_field : TreeForm field? ofField TupleField.Storable "Operand" operand? ofOperand
    Operand.Storable .operand .tuple where
  decodes_leaf := decodes_operand
  eq_cases := fun field => by cases field <;> simp
  encode_leaf := fun _ => rfl
  encode_trees := fun fields => by rw [ofField, ofFields_eq_map]
  decode_leaf := fun _ _ => by simp [tagged, field?]
  decode_trees := fun _ _ => by simp [tagged, field?]
  fits_leaf := fun _ h => h
  fits_trees := fun _ => TupleField.storable_tuple.mp

theorem decodes_field : Decodes field? ofField TupleField.Storable := treeForm_field.decodes

/-- **Expressions** are decoded. -/
theorem decodes_expr : Decodes expr? ofExpr Expr.Storable := by
  intro e he d hd
  cases e with
  | call op operands =>
    obtain ⟨_, rfl, hrecord⟩ := depth_tagged_le.mp hd
    obtain ⟨d, rfl, hinner⟩ := depth_record_le.mp hrecord
    simp only [List.forall_mem_cons] at hinner
    have hfields :
        (record [("op", ofOperation op), ("operands", .array (operands.map ofOperand))]).fields?
          ["op", "operands"] (d + 1) = some (d,
            [some (ofOperation op), some (.array (operands.map ofOperand))]) :=
      fields?_record (by simp) d
    have hop := decodes_operation op he.1 d hinner.1
    have hoperands := decodes_operand.list operands he.2 d hinner.2.1
    simp [expr?, ofExpr, payload?_tagged, hfields, hop, hoperands]
  | tuple fields =>
    obtain ⟨d, rfl, hinner⟩ := depth_tagged_le.mp hd
    rw [ofFields_eq_map] at hinner
    have hfields := decodes_field.list fields he d hinner
    simp [expr?, ofExpr, ofFields_eq_map, payload?_tagged, hfields]
  | tupleGet tuple index =>
    obtain ⟨d, rfl, hinner⟩ := depth_tagged_le.mp hd
    simp [expr?, ofExpr, payload?_tagged, element?_ofElement he.1 he.2 hinner]
  | «alias» x =>
    obtain ⟨d, rfl, hinner⟩ := depth_tagged_le.mp hd
    simp [expr?, ofExpr, payload?_tagged, decodes_operand x he d hinner]

theorem treeForm_return : TreeForm return? ofReturn ReturnExpr.Storable "Value"
    (fun _ => valueId?) ofValueId ValueId.Storable .value .tuple where
  decodes_leaf := decodes_valueId
  eq_cases := fun element => by cases element <;> simp
  encode_leaf := fun _ => rfl
  encode_trees := fun elements => by rw [ofReturn, ofReturns_eq_map]
  decode_leaf := fun _ _ => by simp [tagged, return?]
  decode_trees := fun _ _ => by simp [tagged, return?]
  fits_leaf := fun _ h => h
  fits_trees := fun _ => ReturnExpr.storable_tuple.mp

theorem decodes_return : Decodes return? ofReturn ReturnExpr.Storable := treeForm_return.decodes

/-! ## Functions and modules -/

theorem decodes_param : Decodes param? ofParam Param.Storable := by
  intro p hp d hd
  obtain ⟨hid, _, hty⟩ := hp
  rw [ofParam, depth_record_le] at hd
  simp only [List.forall_mem_cons] at hd
  obtain ⟨d, rfl, _, _, hdepth, -⟩ := hd
  have hfields : (ofParam p).fields? ["id", "name", "ty"] (d + 1) = some (d,
      [some (ofValueId p.id), some (ofText p.name), some (ofType p.ty)]) :=
    fields?_record (by simp) d
  simp [param?, hfields, valueId?_ofValueId hid, ofText, text?, decodes_type p.ty hty d hdepth]

theorem decodes_binding : Decodes binding? ofBinding Binding.Storable := by
  intro b hb d hd
  obtain ⟨hid, _, hexpr, hty⟩ := hb
  rw [ofBinding, depth_record_le] at hd
  simp only [List.forall_mem_cons] at hd
  obtain ⟨d, rfl, _, _, hexprDepth, htyDepth, -⟩ := hd
  have hfields : (ofBinding b).fields? ["id", "name", "expr", "ty"] (d + 1) = some (d,
      [some (ofValueId b.id), some (ofText b.name), some (ofExpr b.expr), some (ofType b.ty)]) :=
    fields?_record (by simp) d
  simp [binding?, hfields, valueId?_ofValueId hid, ofText, text?,
    decodes_expr b.expr hexpr d hexprDepth, decodes_type b.ty hty d htyDepth]

theorem decodes_region : Decodes region? ofRegion Region.Storable := by
  intro r hr d hd
  rw [ofRegion, depth_record_le] at hd
  simp only [List.forall_mem_cons] at hd
  obtain ⟨d, rfl, hbindings, houtputs, -⟩ := hd
  have hfields : (ofRegion r).fields? ["bindings", "outputs"] (d + 1) = some (d,
      [some (.array (r.bindings.map ofBinding)), some (.array (r.outputs.map ofValueId))]) :=
    fields?_record (by simp) d
  simp [region?, hfields, decodes_binding.list r.bindings hr.1 d hbindings,
    decodes_valueId.list r.outputs hr.2 d houtputs]

theorem decodes_function : Decodes function? ofFunction Function.Storable := by
  intro f hf d hd
  obtain ⟨_, hparams, hregions, hret⟩ := hf
  rw [ofFunction, depth_record_le] at hd
  simp only [List.forall_mem_cons] at hd
  obtain ⟨d, rfl, _, hparamsDepth, hregionsDepth, hretDepth, -⟩ := hd
  have hfields : (ofFunction f).fields? ["name", "params", "regions", "ret"] (d + 1) = some (d,
      [some (ofText f.name), some (.array (f.params.map ofParam)),
        some (.array (f.regions.map ofRegion)), some (ofReturn f.ret)]) :=
    fields?_record (by simp) d
  simp [function?, hfields, ofText, text?, decodes_param.list f.params hparams d hparamsDepth,
    decodes_region.list f.regions hregions d hregionsDepth, decodes_return f.ret hret d hretDepth]

/-- **Modules** are decoded. -/
theorem decodes_module : Decodes module? ofModule Module.Storable := by
  intro m hm d hd
  rw [ofModule, depth_record_le] at hd
  simp only [List.forall_mem_cons] at hd
  obtain ⟨d, rfl, _, hfunctions, -⟩ := hd
  have hfields : (ofModule m).fields? ["ir_version", "functions"] (d + 1) = some (d,
      [some (ofText m.version), some (.array (m.functions.map ofFunction))]) :=
    fields?_record (by simp) d
  simp [module?, hfields, ofText, text?, decodes_function.list m.functions hm.2 d hfunctions]

/-! ## Written documents are definite -/

theorem allDefinite_iff {elements : List Json} :
    AllDefinite elements ↔ ∀ element ∈ elements, element.Definite := by
  induction elements with
  | nil => simp [AllDefinite]
  | cons element rest ih => simp [AllDefinite, ih]

@[simp] theorem definite_array {elements : List Json} :
    (array elements).Definite ↔ ∀ element ∈ elements, element.Definite := allDefinite_iff

@[simp] theorem definite_record {fields : List (String × Json)} :
    (record fields).Definite ↔ ∀ field ∈ fields, field.2.Definite := by
  show FieldsDefinite _ ↔ _
  induction fields with
  | nil => simp [FieldsDefinite]
  | cons field rest ih => simp [FieldsDefinite, ih]

@[simp] theorem definite_tagged {tag : String} {value : Json} :
    (tagged tag value).Definite ↔ value.Definite := by
  simp [tagged, Definite, FieldsDefinite]

@[simp] theorem definite_ofText (text : String) : (ofText text).Definite := rfl

@[simp] theorem definite_ofNat (n : Nat) : (ofNat n).Definite := rfl

@[simp] theorem definite_ofNats (ns : List Nat) : (ofNats ns).Definite := by simp [ofNats]

@[simp] theorem definite_ofValueId (id : ValueId) : (ofValueId id).Definite := rfl

@[simp] theorem definite_ofSpec (t : TensorSpec) : (ofSpec t).Definite := by simp [ofSpec]

/-- Trees are written definitely when their leaves are. -/
theorem TreeForm.definite {α β : Type} {decode : JsonDecoder β} {encode : β → Json}
    {fits : β → Prop} {leafTag : String} {leaf : JsonDecoder α} {encodeLeaf : α → Json}
    {fitsLeaf : α → Prop} {ofLeaf : α → β} {ofTrees : List β → β}
    (h : TreeForm decode encode fits leafTag leaf encodeLeaf fitsLeaf ofLeaf ofTrees)
    (hleaf : ∀ a, (encodeLeaf a).Definite) (x : β) : (encode x).Definite := by
  generalize hd : (encode x).depth = d
  induction d using Nat.strongRecOn generalizing x with
  | ind d ih =>
    rcases h.eq_cases x with ⟨a, rfl⟩ | ⟨xs, rfl⟩
    · rw [h.encode_leaf, definite_tagged]
      exact hleaf a
    · rw [h.encode_trees] at hd ⊢
      obtain ⟨_, rfl, hlist⟩ := depth_tagged_le.mp (Nat.le_of_eq hd)
      obtain ⟨inner, rfl, hinner⟩ := depth_array_le.mp hlist
      rw [definite_tagged, definite_array]
      intro element he
      have hle := hinner element he
      obtain ⟨x, _, rfl⟩ := List.mem_map.mp he
      exact ih _ (by omega) x rfl

@[simp] theorem definite_ofType (ty : ValueType) : (ofType ty).Definite :=
  treeForm_type.definite definite_ofSpec ty

@[simp] theorem definite_ofElement (tuple : ValueId) (index : Nat) :
    (ofElement tuple index).Definite := by simp [ofElement]

@[simp] theorem definite_ofOperand (x : Operand) : (ofOperand x).Definite := by
  cases x <;> simp [ofOperand, ofLiteral]

@[simp] theorem definite_ofOperation (op : Operation) : (ofOperation op).Definite := by
  cases op with
  | sum axes keepdims => cases axes <;> simp [ofOperation, ofAxes, Definite]
  | _ => simp [ofOperation]

@[simp] theorem definite_ofField (field : TupleField) : (ofField field).Definite :=
  treeForm_field.definite definite_ofOperand field

@[simp] theorem definite_ofExpr (e : Expr) : (ofExpr e).Definite := by
  cases e <;> simp [ofExpr, ofFields_eq_map]

@[simp] theorem definite_ofReturn (element : ReturnExpr) : (ofReturn element).Definite :=
  treeForm_return.definite definite_ofValueId element

@[simp] theorem definite_ofFunction (f : Function) : (ofFunction f).Definite := by
  simp [ofFunction, ofParam, ofRegion, ofBinding]

/-- **A module is written** with all its numbers, texts and keys. -/
theorem definite_ofModule (m : Module) : (ofModule m).Definite := by simp [ofModule]

end Json

/-! ## The JSON form -/

namespace Module

/-- **The JSON form is faithful.** The text of a storable module whose brackets nest at most 127
deep is read back: the module of the current version, when its version word is empty or current,
and otherwise a complaint about this word. -/
theorem ofJsonText_toJsonText (m : Module) (hm : m.Storable)
    (hdepth : JsonToken.bracketDepth m.toJsonText ≤ 127) :
    ofJsonText m.toJsonText = if m.version = "" ∨ m.version = currentVersion
      then .ok { m with version := currentVersion }
      else .error (.versionMismatch m.version) := by
  have hdefinite := Json.definite_ofModule m
  rw [toJsonText, Json.bracketDepth_render hdefinite] at hdepth
  have hmodule := Json.decodes_module m hm Json.levelLimit hdepth
  rw [ofJsonText, toJsonText, Json.read?_render hdefinite, Option.bind_some, hmodule]
  exact acceptVersion_eq m

/-- A function whose name needs escapes, with a nested tuple and a literal. -/
def quotedName : Function where
  name := "say \"x\"\n\x07"
  params := [⟨⟨0⟩, "x", .tuple [.tensor ⟨.f64, ⟨[2]⟩⟩, .tuple []]⟩]
  regions := [⟨[⟨⟨1⟩, "k", .alias (.literal ⟨.scalar .i1, [1]⟩), .tensor (.scalar .i1)⟩], [⟨1⟩]⟩]
  ret := .tuple [.value ⟨1⟩, .tuple [.value ⟨0⟩]]

theorem ofJsonText_quotedName :
    Storable ⟨"", [quotedName]⟩ ∧ JsonToken.bracketDepth (toJsonText ⟨"", [quotedName]⟩) ≤ 127 ∧
      ofJsonText (toJsonText ⟨"", [quotedName]⟩) = .ok ⟨currentVersion, [quotedName]⟩ := by
  have hstorable : Storable ⟨"", [quotedName]⟩ := by decide +kernel
  have hdepth : JsonToken.bracketDepth (toJsonText ⟨"", [quotedName]⟩) ≤ 127 := by
    rw [toJsonText, Json.bracketDepth_render (Json.definite_ofModule _)]
    decide +kernel
  exact ⟨hstorable, hdepth, ofJsonText_toJsonText _ hstorable hdepth⟩

end Module

end TensorGraph
