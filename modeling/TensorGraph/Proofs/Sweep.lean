/-
# TensorGraph.Proofs.Sweep -- what a visit does to the pending adjoints

Between two visits the function in the making extends the one that is differentiated, and a
pending adjoint has the type of its value and is not known to be zero (`SweepContext.Fits`).
A contribution to an operand adds to the pending adjoint of the value that the operand reads,
at the place that it reads. Whatever a binding computes, its visit settles the adjoint of its
value and contributes to a list of operands (`SweepContext.exists_contributions`); a
contribution to a list keeps the state fitting and adds to what is reached what the
contributed adjoints reach.
-/
import TensorGraph.Proofs.Emission
import TensorGraph.Proofs.Liveness

namespace TensorGraph

/-! ## Sums at a place -/

/-- **`Adjoint.addInto`** -- adds to what stands at a place that an operand reads. -/
def Adjoint.addInto (a : Adjoint) : List Nat → Adjoint → Except ShapeError Adjoint
  | [], b => a.add b
  | index :: _, b => a.addAt index b

theorem Adjoint.exists_addInto {types context : TypeMap} {x : Operand} {id : ValueId}
    {place : List Nat} {a b : Adjoint} (hplace : x.place? = some (id, place))
    (hid : types id = some a.type) (hx : x.type? types = some b.type) (ha : a.Typed context)
    (hb : b.Typed context) :
    ∃ c, a.addInto place b = .ok c ∧ c.Typed context ∧ c.type = a.type ∧
      ∀ there, c.Reaches there ↔
        a.Reaches there ∨ ∃ rest, there = place ++ rest ∧ b.Reaches rest := by
  cases x with
  | literal constant => cases hplace
  | value id' =>
    cases hplace
    have hty : b.type = a.type := Option.some.inj (hx.symm.trans hid)
    obtain ⟨c, hc, htc, hct, hreach⟩ := exists_add a b hty ha hb
    refine ⟨c, hc, htc, hct, fun there => (hreach there).trans (or_congr_right ?_)⟩
    simp
  | tupleElement tuple index =>
    cases hplace
    obtain ⟨elements, he, hindex⟩ := Operand.type?_tupleElement hx
    have hty : a.type = .tuple elements := Option.some.inj (hid.symm.trans he)
    exact exists_addAt hty hindex rfl ha hb

/-! ## States of the sweep -/

namespace SweepState

/-- The pending adjoint of a value of a given type, or zeros. -/
def current (s : SweepState) (id : ValueId) (ty : ValueType) : Adjoint :=
  (s.adjoint? id).getD (.zerosOf ty)

/-- **`Reaches`** -- the pending adjoint of a value has at a place a tensor that is not a
known zero. -/
def Reaches (s : SweepState) (id : ValueId) (place : List Nat) : Prop :=
  ∃ a, s.adjoint? id = some a ∧ a.Reaches place

theorem reaches_iff_current {s : SweepState} {id : ValueId} {place : List Nat} (ty : ValueType) :
    s.Reaches id place ↔ (s.current id ty).Reaches place := by
  unfold Reaches current
  cases s.adjoint? id with
  | some a => simp
  | none =>
    simp [Adjoint.not_reaches_zerosOf ty place]

theorem reaches_put {s : SweepState} {id other : ValueId} {a : Adjoint} {place : List Nat} :
    (s.put id a).Reaches other place ↔
      (other = id ∧ a.Reaches place) ∨ (other ≠ id ∧ s.Reaches other place) := by
  unfold Reaches
  rw [adjoint?_put]
  by_cases h : other = id
  · rw [if_pos h]
    simp [h]
  · rw [if_neg h]
    simp [h]

theorem reaches_drop {s : SweepState} {id other : ValueId} {place : List Nat} :
    (s.drop id).Reaches other place ↔ other ≠ id ∧ s.Reaches other place := by
  unfold Reaches
  rw [adjoint?_drop]
  by_cases h : other = id
  · rw [if_pos h]
    simp [h]
  · rw [if_neg h]
    simp [h]

end SweepState

namespace SweepContext

/-- The function in the making before the sweep. -/
def start (c : SweepContext) : Builder := .ofFunction (c.adjointName c.function.name) c.function

/-- The types of the values of the function that is differentiated. -/
def types (c : SweepContext) : TypeMap := c.function.context.typeOf?

/-- **`Regular`** -- the sweep of a well-formed function without opaque operators, with its
index and the built-in rules. -/
structure Regular (c : SweepContext) : Prop where
  /-- The function is well-formed. -/
  wellFormed : c.function.WellFormed
  /-- No call is opaque. -/
  calls : ∀ b ∈ c.function.bindings, ∀ op xs, b.expr = .call op xs → op.isCustom = false
  /-- The index has the types of the function. -/
  index : c.index.typeOf? = c.types
  /-- Only built-in rules apply. -/
  rules : c.rules = .builtinOnly

/-- **`Grounded`** -- the sweep of a well-formed function with its index and the built-in
rules. Calls may be opaque. -/
structure Grounded (c : SweepContext) : Prop where
  /-- The function is well-formed. -/
  wellFormed : c.function.WellFormed
  /-- The index has the types of the function. -/
  index : c.index.typeOf? = c.types
  /-- Only built-in rules apply. -/
  rules : c.rules = .builtinOnly

theorem Regular.grounded {c : SweepContext} (h : c.Regular) : c.Grounded :=
  ⟨h.wellFormed, h.index, h.rules⟩

instance {c : SweepContext} : Coe c.Regular c.Grounded := ⟨Regular.grounded⟩

/-- **`Fits`** -- between two visits: the function in the making extends the one that is
differentiated, and a pending adjoint has the type of its value and is not known to be
zero. -/
structure Fits (c : SweepContext) (s : SweepState) : Prop where
  /-- Bindings were appended. -/
  advances : c.start.Advances s.builder
  /-- Pending adjoints have the types of their values and are not known to be zero. -/
  pending : ∀ id a, s.adjoint? id = some a →
    a.Typed s.builder.context.typeOf? ∧ c.types id = some a.type ∧ a.isZero = false

variable {c : SweepContext} {s s' : SweepState}

theorem context_start (c : SweepContext) : c.start.context = c.function.context :=
  Builder.context_ofFunction _ _

/-- A parameter has its type. -/
theorem Fits.types_param (hs : c.Fits s) {p : Param} (hp : p ∈ c.function.params) :
    c.types p.id = some p.ty := by
  obtain ⟨Γ, hΓ⟩ := hs.advances.grows.exists_context
  have hnodup := hs.advances.sound.nodup
  rw [hΓ, context_start, Context.ids_append] at hnodup
  exact (Context.typeOf?_eq_some_iff (List.nodup_append.mp hnodup).1).mpr
    (List.mem_append_left _ (List.mem_map_of_mem hp))

/-- A value has its type in the function in the making. -/
theorem Fits.typeOf?_of_eq_some (hs : c.Fits s) {id : ValueId} {ty : ValueType}
    (h : c.types id = some ty) : s.builder.context.typeOf? id = some ty := by
  refine hs.advances.grows.typeOf?_of_eq_some ?_
  rw [context_start]
  exact h

/-- An operand has its type in the function in the making. -/
theorem Fits.type? (hs : c.Fits s) {x : Operand} {ty : ValueType} (h : x.type? c.types = some ty) :
    x.type? s.builder.context.typeOf? = some ty :=
  Operand.type?_mono (fun _ _ hid => hs.typeOf?_of_eq_some hid) h

theorem Fits.current_spec (hs : c.Fits s) {id : ValueId} {ty : ValueType}
    (hid : c.types id = some ty) :
    (s.current id ty).Typed s.builder.context.typeOf? ∧ (s.current id ty).type = ty := by
  rw [SweepState.current]
  cases ha : s.adjoint? id with
  | none => exact ⟨Adjoint.typed_zerosOf _ ty, Adjoint.type_zerosOf ty⟩
  | some a =>
    obtain ⟨ht, hty, _⟩ := hs.pending id a ha
    exact ⟨ht, Option.some.inj (hty.symm.trans hid)⟩

theorem Fits.put (hs : c.Fits s) {id : ValueId} {a : Adjoint}
    (ht : a.Typed s.builder.context.typeOf?) (hid : c.types id = some a.type)
    (hz : a.isZero = false) : c.Fits (s.put id a) where
  advances := hs.advances
  pending := by
    intro other found hf
    rw [SweepState.adjoint?_put] at hf
    split at hf
    · next he =>
      cases hf
      subst he
      exact ⟨ht, hid, hz⟩
    · exact hs.pending other found hf

/-- A builder that advances keeps the state fitting, and so does dropping an adjoint. -/
theorem Fits.drop (hs : c.Fits s) (id : ValueId) {b : Builder} (hb : s.builder.Advances b) :
    c.Fits { s.drop id with builder := b } where
  advances := hs.advances.trans hb
  pending := by
    intro other found hf
    have hf' : (s.drop id).adjoint? other = some found := hf
    rw [SweepState.adjoint?_drop] at hf'
    split at hf'
    · simp at hf'
    · obtain ⟨ht, hrest⟩ := hs.pending other found hf'
      exact ⟨hb.typed ht, hrest⟩

/-! ## One contribution -/

/-- **`Adds`** -- what a contribution to an operand does: nothing, when the operand is a
constant or the adjoint a zero without anything to be added to; else the value that is read
gets the sum. -/
def Adds (c : SweepContext) (s : SweepState) (x : Operand) (a : Adjoint) (s' : SweepState) :
    Prop :=
  match x.place? with
  | none => s' = s
  | some (id, place) => ∃ ty, c.types id = some ty ∧
    ((a.isZero = true ∧ s' = s) ∨
      ∃ sum, (s.current id ty).addInto place a = .ok sum ∧ s' = s.put id sum)

/-- The cases of a contribution, as one. -/
theorem accumulate_eq (hc : c.Grounded) {x : Operand} {id : ValueId} {place : List Nat}
    {ty : ValueType} {a : Adjoint} (hplace : x.place? = some (id, place))
    (hid : c.types id = some ty) (hx : x.type? c.types = some a.type) :
    c.accumulate s x a =
      if (s.adjoint? id).isNone ∧ a.isZero = true then .ok s
      else (((s.current id ty).addInto place a).mapError fun e => c.misfit (.shape e)).map
        (s.put id) := by
  cases x with
  | literal constant => cases hplace
  | value id' =>
    cases hplace
    have hty : ty = a.type := Option.some.inj (hid.symm.trans hx)
    subst hty
    rw [accumulate, accumulateValue, SweepState.current]
    cases s.adjoint? id with
    | none =>
      rw [Option.getD_none]
      cases hz : a.isZero with
      | true => rfl
      | false =>
        rw [Adjoint.addInto, Adjoint.zerosOf_add]
        rfl
    | some existing =>
      have hpending : ¬((some existing).isNone = true ∧ a.isZero = true) := by simp
      rw [Option.getD_some, Adjoint.addInto, if_neg hpending]
      cases hsum : existing.add a with
      | ok sum => simp [hsum, Except.mapError, Except.map]
      | error e => simp [hsum, Except.mapError, Except.map]
  | tupleElement tuple index =>
    cases hplace
    have htype : c.index.typeOf? id = some ty := hc.index ▸ hid
    rw [accumulate, accumulateElement, SweepState.current]
    cases s.adjoint? id with
    | none =>
      rw [Option.getD_none]
      cases hz : a.isZero with
      | true => rfl
      | false =>
        rw [htype, Adjoint.addInto]
        cases hsum : (Adjoint.zerosOf ty).addAt index a with
        | ok sum => simp [hsum, Except.mapError, Except.map]
        | error e => simp [hsum, Except.mapError, Except.map]
    | some existing =>
      have hpending : ¬((some existing).isNone = true ∧ a.isZero = true) := by simp
      rw [Option.getD_some, Adjoint.addInto, if_neg hpending]
      cases hsum : existing.addAt index a with
      | ok sum => simp [hsum, Except.mapError, Except.map]
      | error e => simp [hsum, Except.mapError, Except.map]

/-- **A contribution** of the type of an operand is made, and the state goes on fitting. -/
theorem Fits.exists_accumulate (hc : c.Grounded) (hs : c.Fits s) {x : Operand} {a : Adjoint}
    (hx : x.type? c.types = some a.type) (ha : a.Typed s.builder.context.typeOf?) :
    ∃ s', c.accumulate s x a = .ok s' ∧ c.Fits s' ∧ s'.builder = s.builder ∧
      c.Adds s x a s' := by
  cases hplace : x.place? with
  | none =>
    cases x with
    | literal constant => exact ⟨s, rfl, hs, rfl, rfl⟩
    | value id => cases hplace
    | tupleElement tuple index => cases hplace
  | some read =>
    obtain ⟨id, place⟩ := read
    obtain ⟨ty, hid⟩ := Operand.exists_of_place? hplace hx
    rw [accumulate_eq hc hplace hid hx]
    unfold Adds
    rw [hplace]
    split
    · next h => exact ⟨s, rfl, hs, rfl, ty, hid, .inl ⟨h.2, rfl⟩⟩
    · next h =>
      obtain ⟨htc, hct⟩ := hs.current_spec hid
      obtain ⟨sum, hsum, hts, hst, hreach⟩ :=
        Adjoint.exists_addInto hplace (hct.symm ▸ hid) hx htc ha
      have hz : sum.isZero = false := by
        rw [Adjoint.isZero_eq_false_iff]
        by_cases hzero : a.isZero = true
        · -- something is pending, and it is not zero
          obtain ⟨existing, he⟩ : ∃ existing, s.adjoint? id = some existing := by
            cases hn : s.adjoint? id with
            | none => exact absurd ⟨by rw [hn]; rfl, hzero⟩ h
            | some existing => exact ⟨existing, rfl⟩
          obtain ⟨there, hr⟩ := Adjoint.isZero_eq_false_iff.mp (hs.pending id existing he).2.2
          have hcurrent := (SweepState.reaches_iff_current ty).mp ⟨existing, he, hr⟩
          exact ⟨there, (hreach there).mpr (.inl hcurrent)⟩
        · obtain ⟨rest, hr⟩ := Adjoint.isZero_eq_false_iff.mp (Bool.not_eq_true _ ▸ hzero)
          exact ⟨place ++ rest, (hreach _).mpr (.inr ⟨rest, rfl, hr⟩)⟩
      have htype : c.types id = some sum.type := by rw [hst, hct, hid]
      refine ⟨s.put id sum, ?_, hs.put hts htype hz, rfl, ty, hid, .inr ⟨sum, hsum, rfl⟩⟩
      rw [hsum]
      rfl

/-- **What is reached after a contribution**: what was reached before, and at the place that
the operand reads what the contributed adjoint reaches. -/
theorem Adds.reaches_iff (hs : c.Fits s) {x : Operand} {a : Adjoint} (h : c.Adds s x a s')
    (hx : x.type? c.types = some a.type) (ha : a.Typed s.builder.context.typeOf?) {id : ValueId}
    {there : List Nat} :
    s'.Reaches id there ↔ s.Reaches id there ∨
      ∃ place rest, x.place? = some (id, place) ∧ there = place ++ rest ∧ a.Reaches rest := by
  unfold Adds at h
  split at h
  · next hplace =>
    subst h
    rw [hplace]
    simp
  · next key place hplace =>
    obtain ⟨ty, hkey, ⟨hzero, rfl⟩ | ⟨sum, hsum, rfl⟩⟩ := h
    · refine ⟨.inl, fun h => h.resolve_right ?_⟩
      rintro ⟨_, rest, _, _, hr⟩
      exact (Adjoint.isZero_iff a).mp hzero rest hr
    · obtain ⟨htc, hct⟩ := hs.current_spec hkey
      obtain ⟨sum', hsum', _, _, hreach⟩ :=
        Adjoint.exists_addInto hplace (hct.symm ▸ hkey) hx htc ha
      rw [hsum] at hsum'
      cases hsum'
      rw [SweepState.reaches_put, hplace]
      by_cases he : id = key
      · subst he
        rw [hreach, SweepState.reaches_iff_current ty]
        constructor
        · rintro (⟨_, hr | ⟨rest, hp, hr⟩⟩ | ⟨hn, _⟩)
          · exact .inl hr
          · exact .inr ⟨place, rest, rfl, hp, hr⟩
          · exact absurd rfl hn
        · rintro (hr | ⟨_, rest, hp, hthere, hr⟩)
          · exact .inl ⟨rfl, .inl hr⟩
          · cases hp
            exact .inl ⟨rfl, .inr ⟨rest, hthere, hr⟩⟩
      · constructor
        · rintro (⟨h, _⟩ | ⟨_, hr⟩)
          · exact absurd h he
          · exact .inl hr
        · rintro (hr | ⟨_, _, hp, _⟩)
          · exact .inr ⟨he, hr⟩
          · cases hp
            exact absurd rfl he

/-! ## Contributions to a list of operands -/

/-- **`accumulateAll`** -- contributes to operands one after the other. -/
def accumulateAll (c : SweepContext) (s : SweepState) (cs : List (Operand × Adjoint)) :
    Except TransformError SweepState :=
  cs.foldlM (fun s entry => c.accumulate s entry.1 entry.2) s

theorem accumulateAll_append (c : SweepContext) (s : SweepState)
    (cs ds : List (Operand × Adjoint)) :
    c.accumulateAll s (cs ++ ds) = c.accumulateAll s cs >>= fun s => c.accumulateAll s ds :=
  List.foldlM_append

/-- **`Suitable`** -- contributions have the types of their operands. -/
def Suitable (c : SweepContext) (context : TypeMap) (cs : List (Operand × Adjoint)) : Prop :=
  ∀ entry ∈ cs, entry.1.type? c.types = some entry.2.type ∧ entry.2.Typed context

/-- **Suitable contributions** are made one after the other. -/
theorem Fits.exists_accumulateAll (hc : c.Grounded) (hs : c.Fits s)
    {cs : List (Operand × Adjoint)} (hcs : c.Suitable s.builder.context.typeOf? cs) :
    ∃ s', c.accumulateAll s cs = .ok s' ∧ c.Fits s' ∧ s'.builder = s.builder ∧
      ∀ id place, s'.Reaches id place ↔ s.Reaches id place ∨
        ∃ x a front rest, (x, a) ∈ cs ∧ x.place? = some (id, front) ∧ place = front ++ rest ∧
          a.Reaches rest := by
  induction cs generalizing s with
  | nil =>
    refine ⟨s, rfl, hs, rfl, fun id place => ⟨.inl, fun h => h.resolve_right ?_⟩⟩
    rintro ⟨_, _, _, _, hm, _⟩
    exact absurd hm List.not_mem_nil
  | cons entry cs ih =>
    obtain ⟨x, a⟩ := entry
    obtain ⟨hx, ha⟩ := hcs (x, a) List.mem_cons_self
    obtain ⟨mid, hmid, hfits, hbuilder, hadds⟩ := hs.exists_accumulate hc hx ha
    have hrest : c.Suitable mid.builder.context.typeOf? cs := by
      rw [hbuilder]
      exact fun entry hm => hcs entry (List.mem_cons_of_mem _ hm)
    obtain ⟨s', hs', hfits', hbuilder', hreach⟩ := ih hfits hrest
    refine ⟨s', foldlM_cons_eq_ok_iff.mpr ⟨mid, hmid, hs'⟩, hfits', hbuilder'.trans hbuilder,
      fun id place => ?_⟩
    rw [hreach, hadds.reaches_iff hs hx ha, or_assoc]
    refine or_congr_right ⟨?_, ?_⟩
    · rintro (⟨front, rest, hplace, he, hr⟩ | ⟨y, b, front, rest, hm, h⟩)
      · exact ⟨x, a, front, rest, List.mem_cons_self, hplace, he, hr⟩
      · exact ⟨y, b, front, rest, List.mem_cons_of_mem _ hm, h⟩
    · rintro ⟨y, b, front, rest, hm, hplace, he, hr⟩
      rcases List.mem_cons.mp hm with hm | hm
      · cases hm
        exact .inl ⟨front, rest, hplace, he, hr⟩
      · exact .inr ⟨y, b, front, rest, hm, hplace, he, hr⟩

/-! ## Tuple constructions -/

mutual

/-- **`routes`** -- what the operands of a field receive from the adjoint of the field. -/
def routes : TupleField → Adjoint → List (Operand × Adjoint)
  | .operand x, a => [(x, a)]
  | .tuple fields, .tuple components => routesAll fields components
  | .tuple _, _ => []

/-- What the operands of several fields receive. -/
def routesAll : List TupleField → List Adjoint → List (Operand × Adjoint)
  | field :: fields, a :: components => routes field a ++ routesAll fields components
  | _, _ => []

end

theorem routesAll_nil (as : List Adjoint) : routesAll [] as = [] := by
  cases as with
  | nil => rfl
  | cons a as => rfl

mutual

/-- Routing to a field is contributing to its operands. -/
theorem routeField_eq (field : TupleField) (a : Adjoint) (s : SweepState)
    (h : field.type? c.types = some a.type) :
    c.routeField s field a = c.accumulateAll s (routes field a) := by
  cases field with
  | operand x =>
    rw [routeField, routes]
    show _ = c.accumulate s x a >>= Except.ok
    cases c.accumulate s x a with
    | ok s' => rfl
    | error e => rfl
  | tuple fields =>
    obtain ⟨tys, htys, htype⟩ := TupleField.type?_tuple_eq_some_iff.mp h
    obtain ⟨components, rfl, rfl⟩ := Adjoint.exists_of_type_tuple htype
    have hlen : components.length = fields.length := by
      have hforall := (TupleField.types?_eq_some_iff.mp htys).length_eq
      rw [Adjoint.types_eq_map, List.length_map] at hforall
      omega
    rw [routeField, if_pos hlen, routes]
    exact routeFields_eq fields components s htys

theorem routeFields_eq (fields : List TupleField) (as : List Adjoint) (s : SweepState)
    (h : TupleField.types? c.types fields = some (Adjoint.types as)) :
    c.routeFields s fields as = c.accumulateAll s (routesAll fields as) := by
  cases fields with
  | nil =>
    cases as with
    | nil => rfl
    | cons a as => rfl
  | cons field fields =>
    obtain ⟨a, as, rfl, hf, hrest⟩ := Adjoint.exists_cons_of_types? h
    rw [routeFields, routesAll, accumulateAll_append, routeField_eq field a s hf]
    exact congrArg _ (funext fun s => routeFields_eq fields as s hrest)

end

section Routes

variable {context : TypeMap}

mutual

theorem suitable_routes (field : TupleField) (a : Adjoint)
    (h : field.type? c.types = some a.type) (ha : a.Typed context) :
    c.Suitable context (routes field a) := by
  cases field with
  | operand x =>
    intro entry hm
    rw [routes] at hm
    cases List.mem_singleton.mp hm
    exact ⟨h, ha⟩
  | tuple fields =>
    obtain ⟨tys, htys, htype⟩ := TupleField.type?_tuple_eq_some_iff.mp h
    obtain ⟨components, rfl, rfl⟩ := Adjoint.exists_of_type_tuple htype
    rw [routes]
    exact suitable_routesAll fields components htys ha

theorem suitable_routesAll (fields : List TupleField) (as : List Adjoint)
    (h : TupleField.types? c.types fields = some (Adjoint.types as))
    (ha : Adjoint.TypedAll context as) : c.Suitable context (routesAll fields as) := by
  intro entry hm
  cases fields with
  | nil =>
    rw [routesAll_nil] at hm
    exact absurd hm List.not_mem_nil
  | cons field fields =>
    obtain ⟨a, as, rfl, hf, hrest⟩ := Adjoint.exists_cons_of_types? h
    rw [routesAll] at hm
    rcases List.mem_append.mp hm with hm | hm
    · exact suitable_routes field a hf ha.1 entry hm
    · exact suitable_routesAll fields as hrest ha.2 entry hm

end

end Routes

mutual

/-- **What a route reaches** is what the field passes on of what the adjoint reaches. -/
theorem exists_routes_iff (field : TupleField) (a : Adjoint)
    (h : field.type? c.types = some a.type) (x : Operand) (rest : List Nat) :
    (∃ b, (x, b) ∈ routes field a ∧ b.Reaches rest) ↔
      ∃ place, a.Reaches place ∧ field.Passes place x rest := by
  cases field with
  | operand y =>
    rw [routes]
    constructor
    · rintro ⟨b, hm, hr⟩
      cases List.mem_singleton.mp hm
      exact ⟨rest, hr, rfl, rfl⟩
    · rintro ⟨place, hr, rfl, rfl⟩
      exact ⟨a, List.mem_singleton.mpr rfl, hr⟩
  | tuple fields =>
    obtain ⟨tys, htys, htype⟩ := TupleField.type?_tuple_eq_some_iff.mp h
    obtain ⟨components, rfl, rfl⟩ := Adjoint.exists_of_type_tuple htype
    rw [routes, exists_routesAll_iff fields components htys]
    constructor
    · rintro ⟨index, place, hr, hp⟩
      exact ⟨index :: place, hr, hp⟩
    · rintro ⟨place, hr, hp⟩
      cases place with
      | nil => exact hr.elim
      | cons index place => exact ⟨index, place, hr, hp⟩

theorem exists_routesAll_iff (fields : List TupleField) (as : List Adjoint)
    (h : TupleField.types? c.types fields = some (Adjoint.types as)) (x : Operand)
    (rest : List Nat) :
    (∃ b, (x, b) ∈ routesAll fields as ∧ b.Reaches rest) ↔
      ∃ index place, Adjoint.ReachesAt as index place ∧
        TupleField.PassesAt fields index place x rest := by
  cases fields with
  | nil =>
    rw [routesAll_nil]
    simp [TupleField.PassesAt]
  | cons field fields =>
    obtain ⟨a, as, rfl, hf, hrest⟩ := Adjoint.exists_cons_of_types? h
    have hfield := exists_routes_iff field a hf x rest
    have hfields := exists_routesAll_iff fields as hrest x rest
    rw [routesAll]
    constructor
    · rintro ⟨b, hm, hr⟩
      rcases List.mem_append.mp hm with hm | hm
      · obtain ⟨place, h⟩ := hfield.mp ⟨b, hm, hr⟩
        exact ⟨0, place, h⟩
      · obtain ⟨index, place, h⟩ := hfields.mp ⟨b, hm, hr⟩
        exact ⟨index + 1, place, h⟩
    · rintro ⟨index, place, h⟩
      cases index with
      | zero =>
        obtain ⟨b, hm, hr⟩ := hfield.mpr ⟨place, h⟩
        exact ⟨b, List.mem_append_left _ hm, hr⟩
      | succ index =>
        obtain ⟨b, hm, hr⟩ := hfields.mpr ⟨index, place, h⟩
        exact ⟨b, List.mem_append_right _ hm, hr⟩

end

/-! ## Calls -/

/-- The leaves that stand for the operands of a call. -/
theorem mapM_operandLeaf (hc : c.Grounded) {xs : List Operand} {specs : List TensorSpec}
    (h : Operand.HaveTypes c.types xs (specs.map .tensor)) :
    xs.mapM c.operandLeaf = .ok (List.zipWith .leaf xs specs) := by
  induction xs generalizing specs with
  | nil => rfl
  | cons x xs ih =>
    cases specs with
    | nil => simp at h
    | cons spec specs =>
      obtain ⟨hx, hxs⟩ := List.forall₂_cons.mp h
      have htype : c.index.operandType? x = some (.tensor spec) := by
        rw [← hc.index] at hx
        cases x with
        | value id => exact hx
        | tupleElement tuple index => exact hx
        | literal constant => exact hx
      have hleaf : c.operandLeaf x = .ok (.leaf x spec) := by
        rw [operandLeaf, htype]
      exact mapM_cons_eq_ok_iff.mpr ⟨_, _, hleaf, ih hxs, rfl⟩

theorem isTensor_leaves {context : TypeMap} {xs : List Operand} {specs : List TensorSpec}
    (h : Operand.HaveTypes context xs (specs.map .tensor)) :
    List.Forall₂ (Adjoint.IsTensor context) (List.zipWith .leaf xs specs) specs := by
  induction xs generalizing specs with
  | nil =>
    cases specs with
    | nil => exact .nil
    | cons spec specs => simp at h
  | cons x xs ih =>
    cases specs with
    | nil => simp at h
    | cons spec specs =>
      obtain ⟨hx, hxs⟩ := List.forall₂_cons.mp h
      exact .cons (Adjoint.isTensor_leaf hx) (ih hxs)

/-- **`received`** -- the operands that receive something, each with what it receives. -/
def received (xs : List Operand) (fits : List (Option Adjoint)) : List (Operand × Adjoint) :=
  (xs.zip fits).filterMap fun entry => entry.2.map (Prod.mk entry.1)

theorem received_cons_none (x : Operand) (xs : List Operand) (fits : List (Option Adjoint)) :
    received (x :: xs) (none :: fits) = received xs fits := rfl

theorem received_cons_some (x : Operand) (xs : List Operand) (a : Adjoint)
    (fits : List (Option Adjoint)) :
    received (x :: xs) (some a :: fits) = (x, a) :: received xs fits := rfl

section Received

variable {context : TypeMap} {op : Operation} {index : Nat} {args : List Adjoint}
  {specs : List TensorSpec} {ps fits : List (Option Adjoint)}

/-- **Spreading** partials is contributing them, fitted. -/
theorem spread_eq (h : c.SuitAll context op index args specs ps fits) (s : SweepState)
    (xs : List Operand) :
    c.spread op s (xs.zip (args.zip ps)) = c.accumulateAll s (received xs fits) := by
  induction h generalizing s xs with
  | nil =>
    cases xs with
    | nil => rfl
    | cons x xs => rfl
  | @cons index arg spec p fit args specs ps fits head tail ih =>
    cases xs with
    | nil => rfl
    | cons x xs =>
      rw [List.zip_cons_cons, List.zip_cons_cons]
      cases p with
      | none =>
        cases fit with
        | some fit => exact head.elim
        | none =>
          rw [spread, received_cons_none]
          exact ih s xs
      | some p =>
        cases fit with
        | none => exact head.elim
        | some fit =>
          rw [spread, head.2.1, ok_bind, received_cons_some]
          show c.accumulate s x fit >>= _ = c.accumulate s x fit >>= _
          exact congrArg _ (funext fun s => ih s xs)

theorem suitable_received (h : c.SuitAll context op index args specs ps fits)
    {xs : List Operand} (hx : Operand.HaveTypes c.types xs (specs.map .tensor)) :
    c.Suitable context (received xs fits) := by
  induction h generalizing xs with
  | nil =>
    cases hx
    exact fun entry hm => absurd hm List.not_mem_nil
  | @cons index arg spec p fit args specs ps fits head tail ih =>
    obtain ⟨x, xs, hhead, hxs, rfl⟩ := List.forall₂_cons_right_iff.mp hx
    cases fit with
    | none => exact ih hxs
    | some fit =>
      cases p with
      | none => exact head.elim
      | some p =>
        obtain ⟨_, _, hfit, _⟩ := head
        intro entry hm
        rw [received_cons_some] at hm
        rcases List.mem_cons.mp hm with rfl | hm
        · exact ⟨hfit.2 ▸ hhead, hfit.1⟩
        · exact ih hxs entry hm

/-- **What operands receive** are tensors that are not known zeros, for each operand to which
the operator passes something on. -/
theorem exists_received_iff (h : c.SuitAll context op index args specs ps fits)
    {xs : List Operand} (hx : Operand.HaveTypes c.types xs (specs.map .tensor)) (x : Operand)
    (rest : List Nat) :
    (∃ a, (x, a) ∈ received xs fits ∧ a.Reaches rest) ↔
      rest = [] ∧ ∃ i, xs[i]? = some x ∧ op.receives (index + i) = true := by
  induction h generalizing xs with
  | nil =>
    cases hx
    simp [received]
  | @cons index arg spec p fit args specs ps fits head tail ih =>
    obtain ⟨y, ys, hy, hys, rfl⟩ := List.forall₂_cons_right_iff.mp hx
    have hshift : ∀ i, index + (i + 1) = index + 1 + i := fun i => by omega
    cases fit with
    | none =>
      cases p with
      | some p => exact head.elim
      | none =>
        rw [received_cons_none, ih hys]
        refine and_congr_right fun _ => ?_
        constructor
        · rintro ⟨i, hi, hr⟩
          exact ⟨i + 1, hi, hshift i ▸ hr⟩
        · rintro ⟨i, hi, hr⟩
          cases i with
          | zero => cases hr.symm.trans head
          | succ i => exact ⟨i, hi, hshift i ▸ hr⟩
    | some fit =>
      cases p with
      | none => exact head.elim
      | some p =>
        obtain ⟨hreceives, _, hfit, hz⟩ := head
        rw [received_cons_some]
        constructor
        · rintro ⟨a, hm, hr⟩
          rcases List.mem_cons.mp hm with hm | hm
          · cases hm
            exact ⟨((Adjoint.reaches_of_type hfit.2).mp hr).1, 0, rfl, hreceives⟩
          · obtain ⟨hrest, i, hi, hri⟩ := (ih hys).mp ⟨a, hm, hr⟩
            exact ⟨hrest, i + 1, hi, hshift i ▸ hri⟩
        · rintro ⟨hrest, i, hi, hri⟩
          cases i with
          | zero =>
            cases hi
            exact ⟨fit, List.mem_cons_self, (Adjoint.reaches_of_type hfit.2).mpr ⟨hrest, hz⟩⟩
          | succ i =>
            obtain ⟨a, hm, hr⟩ := (ih hys).mpr ⟨hrest, i, hi, hshift i ▸ hri⟩
            exact ⟨a, List.mem_cons_of_mem _ hm, hr⟩

end Received

/-- What the operands of a call receive from the adjoint of its value. -/
def callContributions (op : Operation) (xs : List Operand) (specs : List TensorSpec)
    (id : ValueId) (out : TensorSpec) (a : Adjoint) : List (Operand × Adjoint) :=
  received xs (partials op specs out (List.zipWith .leaf xs specs) (.leaf (.value id) out) a)

/-- **Visiting a call** whose operator has a rule. -/
theorem Fits.visitCall_spec (hc : c.Regular) (hs : c.Fits s) {b : Binding} {op : Operation}
    {xs : List Operand} {specs : List TensorSpec} {out : TensorSpec} {a : Adjoint}
    (hop : op.isCustom = false) (hsoft : ∀ axis, op ≠ .softmax axis)
    (hty : b.ty = .tensor out) (hid : c.types b.id = some b.ty)
    (hx : Operand.HaveTypes c.types xs (specs.map .tensor))
    (ht : op.resultSpec specs (some (.tensor out)) = .ok out)
    (ha : a.IsTensor s.builder.context.typeOf? out) (hz : a.isZero = false) :
    c.visitCall s b op xs a = c.accumulateAll s (callContributions op xs specs b.id out a) ∧
      c.Suitable s.builder.context.typeOf? (callContributions op xs specs b.id out a) ∧
      ∀ x rest, (∃ p, (x, p) ∈ callContributions op xs specs b.id out a ∧ p.Reaches rest) ↔
        rest = [] ∧ ∃ i, xs[i]? = some x ∧ op.receives i = true := by
  have hcontext : Operand.HaveTypes s.builder.context.typeOf? xs (specs.map .tensor) :=
    hx.imp fun _ _ h => hs.type? h
  have hresult : (Adjoint.leaf (.value b.id) out).IsTensor s.builder.context.typeOf? out :=
    Adjoint.isTensor_leaf (hs.typeOf?_of_eq_some (hty ▸ hid))
  obtain ⟨rule, ps, hrule, hps, hall⟩ :=
    exists_partials c hop hsoft ht (isTensor_leaves hcontext) ha hz hresult
  refine ⟨?_, suitable_received hall hx, fun x rest => ?_⟩
  · have hlen : ps.length = xs.length := by
      rw [hall.length_eq, hx.length_eq, List.length_map]
    have hfind : c.rules.find? op.name = some rule := by
      rw [hc.rules]
      exact hrule
    rw [visitCall, hty, hfind, mapM_operandLeaf hc hx]
    show ((rule _ a).mapError _ >>= _) = _
    rw [hps]
    show (if ps.length = xs.length then _ else _) = _
    rw [if_pos hlen, spread_eq hall]
    rfl
  · have h := exists_received_iff hall hx x rest
    simp only [Nat.zero_add] at h
    exact h

end SweepContext

end TensorGraph
