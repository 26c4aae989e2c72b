/-
# TensorGraph.Proofs.Liveness -- where the returned value comes from

A place of a value is live when what stands there goes into the value that is returned.
Liveness runs against the order of the bindings: an expression passes what is demanded of a
place of its value on to places of its operands (`Expr.Passes`), a tuple construction only
to the field at that place. `Operation.receives` says which operands of a call it concerns;
the rules of the operators agree with it (`SweepContext.exists_partials`). In a well-formed
function the bindings that read a value stand behind it, so that a place is live exactly when
it is returned or passed on by a later binding (`Function.live_iff`).
-/
import TensorGraph.Proofs.Partials
import TensorGraph.Proofs.WellFormed

namespace TensorGraph

/-! ## Places that are read -/

/-- **`Operand.place?`** -- the value that an operand reads, and the place in it. -/
def Operand.place? : Operand → Option (ValueId × List Nat)
  | .value id => some (id, [])
  | .tupleElement tuple index => some (tuple, [index])
  | .literal _ => none

theorem Operand.value?_of_place? {x : Operand} {id : ValueId} {place : List Nat}
    (h : x.place? = some (id, place)) : x.value? = some id := by
  cases x with
  | value id' =>
    cases h
    rfl
  | tupleElement tuple index =>
    cases h
    rfl
  | literal constant => cases h

/-- An operand that reads a value has a type when the value has one. -/
theorem Operand.exists_of_place? {types : TypeMap} {x : Operand} {id : ValueId}
    {place : List Nat} {ty : ValueType} (h : x.place? = some (id, place))
    (hx : x.type? types = some ty) : ∃ whole, types id = some whole :=
  Option.isSome_iff_exists.mp (Operand.isSome_of_type? hx (Operand.value?_of_place? h))

mutual

/-- **`TupleField.Passes`** -- what is demanded of a place of a field is demanded of the
operand that stands there. -/
def TupleField.Passes : TupleField → List Nat → Operand → List Nat → Prop
  | .operand y, place, x, rest => x = y ∧ rest = place
  | .tuple _, [], _, _ => False
  | .tuple fields, index :: place, x, rest => TupleField.PassesAt fields index place x rest

/-- What is demanded of a place of one of several fields. -/
def TupleField.PassesAt : List TupleField → Nat → List Nat → Operand → List Nat → Prop
  | [], _, _, _, _ => False
  | field :: _, 0, place, x, rest => field.Passes place x rest
  | _ :: fields, index + 1, place, x, rest => TupleField.PassesAt fields index place x rest

end

/-- **`Expr.Passes`** -- what is demanded of a place of an expression's value is demanded of
a place of what an operand reads. A call passes on to the operands for which the rule of its
operator has a partial. -/
def Expr.Passes : Expr → List Nat → Operand → List Nat → Prop
  | .call op xs, place, x, rest =>
    place = [] ∧ rest = [] ∧ ∃ index, xs[index]? = some x ∧ op.receives index = true
  | .tuple fields, place, x, rest => (TupleField.tuple fields).Passes place x rest
  | .tupleGet source index, place, x, rest => x = .tupleElement source index ∧ rest = place
  | .alias y, place, x, rest => x = y ∧ rest = place

mutual

theorem TupleField.mem_values_of_passes (field : TupleField) {place rest : List Nat}
    {x : Operand} (h : field.Passes place x rest) {id : ValueId} (hid : x.value? = some id) :
    id ∈ field.values := by
  cases field with
  | operand y =>
    rw [TupleField.values, ← h.1, hid]
    exact List.mem_singleton.mpr rfl
  | tuple fields =>
    cases place with
    | nil => exact h.elim
    | cons index place => exact TupleField.mem_values_of_passesAt fields h hid

theorem TupleField.mem_values_of_passesAt (fields : List TupleField) {index : Nat}
    {place rest : List Nat} {x : Operand} (h : TupleField.PassesAt fields index place x rest)
    {id : ValueId} (hid : x.value? = some id) : id ∈ TupleField.valuesList fields := by
  cases fields with
  | nil => exact h.elim
  | cons field fields =>
    rw [TupleField.valuesList]
    cases index with
    | zero => exact List.mem_append_left _ (TupleField.mem_values_of_passes field h hid)
    | succ index => exact List.mem_append_right _ (TupleField.mem_values_of_passesAt fields h hid)

end

/-- An expression passes on to what it reads. -/
theorem Expr.mem_values_of_passes {e : Expr} {place rest : List Nat} {x : Operand}
    (h : e.Passes place x rest) {id : ValueId} (hid : x.value? = some id) : id ∈ e.values := by
  cases e with
  | call op xs =>
    obtain ⟨_, _, index, hx, _⟩ := h
    exact List.mem_filterMap.mpr ⟨x, List.mem_of_getElem? hx, hid⟩
  | tuple fields => exact TupleField.mem_values_of_passes (.tuple fields) h hid
  | tupleGet source index =>
    rw [h.1] at hid
    cases hid
    exact List.mem_singleton.mpr rfl
  | «alias» y =>
    rw [Expr.values, ← h.1, hid]
    exact List.mem_singleton.mpr rfl

/-! ## Live places -/

namespace Function

/-- **`Live`** -- the places of values that what is returned comes from: the value that is
returned, and what the expression of a live value passes on to. -/
inductive Live (f : Function) : ValueId → List Nat → Prop
  | returned {id : ValueId} (h : f.ret = .value id) : Live f id []
  | passed {b : Binding} {place rest front : List Nat} {x : Operand} {id : ValueId}
      (hb : b ∈ f.bindings) (hlive : Live f b.id place) (hpass : b.expr.Passes place x rest)
      (hx : x.place? = some (id, front)) : Live f id (front ++ rest)

/-- **`Demands`** -- a binding passes what is demanded of a live place of its value on to a
place of a value. -/
def Demands (f : Function) (b : Binding) (id : ValueId) (place : List Nat) : Prop :=
  ∃ there x rest front, f.Live b.id there ∧ b.expr.Passes there x rest ∧
    x.place? = some (id, front) ∧ place = front ++ rest

/-- A place that is returned, or that one of the given bindings demands. -/
def LiveFrom (f : Function) (bs : List Binding) (id : ValueId) (place : List Nat) : Prop :=
  (f.ret = .value id ∧ place = []) ∨ ∃ b ∈ bs, f.Demands b id place

theorem Demands.mem_values {f : Function} {b : Binding} {id : ValueId} {place : List Nat}
    (h : f.Demands b id place) : id ∈ b.expr.values := by
  obtain ⟨_, _, _, _, _, hpass, hx, _⟩ := h
  exact Expr.mem_values_of_passes hpass (Operand.value?_of_place? hx)

theorem liveFrom_cons {f : Function} {b : Binding} {bs : List Binding} {id : ValueId}
    {place : List Nat} :
    f.LiveFrom (b :: bs) id place ↔ f.LiveFrom bs id place ∨ f.Demands b id place := by
  unfold LiveFrom
  simp only [List.mem_cons, exists_eq_or_imp]
  exact (or_congr_right or_comm).trans or_assoc.symm

/-- What is live is returned or demanded by a binding. -/
theorem live_iff_liveFrom {f : Function} {id : ValueId} {place : List Nat} :
    f.Live id place ↔ f.LiveFrom f.bindings id place := by
  constructor
  · intro h
    cases h with
    | returned h => exact .inl ⟨h, rfl⟩
    | passed hb hlive hpass hx => exact .inr ⟨_, hb, _, _, _, _, hlive, hpass, hx, rfl⟩
  · rintro (⟨h, rfl⟩ | ⟨b, hb, _, _, _, _, hlive, hpass, hx, rfl⟩)
    · exact .returned h
    · exact .passed hb hlive hpass hx

/-- A binding reads what stands before it. -/
theorem WellFormed.mem_of_reads {f : Function} (h : f.WellFormed) {before after : List Binding}
    {b b' : Binding} (hf : f.bindings = before ++ b :: after) (hb' : b' ∈ f.bindings)
    (hreads : b.id ∈ b'.expr.values) : b' ∈ after := by
  rw [hf, List.mem_append, List.mem_cons, ← or_assoc] at hb'
  refine hb'.resolve_left fun hearly => ?_
  -- a binding up to `b` reads values that are there before `b`
  have hread : b.id ∈ Context.ids (f.paramContext ++ before.map Binding.entry) := by
    have hacc := h.accepts
    rw [hf, Context.accepts_append] at hacc
    rcases hearly with hm | rfl
    · obtain ⟨first, second, rfl⟩ := List.append_of_mem hm
      have hb := (Context.accepts_append.mp hacc.1).2.2.1
      have hmem := Context.isSome_typeOf?.mp (hb.isSome _ hreads)
      rw [List.map_append, ← List.append_assoc, Context.ids_append]
      exact List.mem_append_left _ hmem
    · exact Context.isSome_typeOf?.mp (hacc.2.2.1.isSome _ hreads)
  have hacc := h.accepts
  rw [hf, Context.accepts_append] at hacc
  exact hacc.2.1 hread

/-- A binding reads neither its own value nor those of later bindings. -/
theorem WellFormed.notMem_of_reads {f : Function} (h : f.WellFormed) {before after : List Binding}
    {b : Binding} (hf : f.bindings = before ++ b :: after) {id : ValueId}
    (hreads : id ∈ b.expr.values) : id ∉ (b :: after).map Binding.id := by
  have hacc := h.accepts
  rw [hf, Context.accepts_append] at hacc
  have hmem := Context.isSome_typeOf?.mp (hacc.2.2.1.isSome _ hreads)
  have hnodup := h.nodup
  rw [context, hf, List.map_append, ← List.append_assoc, Context.ids_append,
    Context.ids_map_entry] at hnodup
  exact fun hm => List.disjoint_of_nodup_append hnodup hmem hm

/-- **A place of a bound value is live** when it is returned or a later binding demands
it. -/
theorem WellFormed.live_iff {f : Function} (h : f.WellFormed) {before after : List Binding}
    {b : Binding} (hf : f.bindings = before ++ b :: after) {place : List Nat} :
    f.Live b.id place ↔ f.LiveFrom after b.id place := by
  rw [live_iff_liveFrom]
  refine or_congr_right ⟨?_, ?_⟩
  · rintro ⟨b', hb', hd⟩
    exact ⟨b', h.mem_of_reads hf hb' hd.mem_values, hd⟩
  · rintro ⟨b', hb', hd⟩
    refine ⟨b', ?_, hd⟩
    rw [hf]
    exact List.mem_append_right _ (List.mem_cons_of_mem b hb')

end Function

end TensorGraph
