/-
# TensorGraph.Proofs.Appending -- functions in the making only get longer

One relation says how a builder changes while adjoints are emitted: bindings are appended one
by one, each with an expression, a type and a hint for its name that a condition allows
(`Builder.Appends`). It is reflexive and transitive, and all that a later stage needs follows
from it by one induction: the parameters and the bindings that were there stay as they are, the
new identities are the next numbers in order, and the new names were not taken. What is emitted
applies transparent operators, reads the literals of the adjoint and is never a second name for
a component of a tuple (`Expr.IsEmitted`); its type is one that a part of the adjoint has. Nothing
here asks whether an expression is typed: the facts hold for whatever emission succeeds with.
-/
import TensorGraph.Adjoint.Emit
import TensorGraph.Proofs.Construction
import TensorGraph.Proofs.Soundness

namespace TensorGraph

/-! ## Appending bindings -/

namespace Builder

/-- **`Appends`** -- a later builder is reached by binding expressions that are allowed under
their hints and with their types. -/
inductive Appends (allowed : String → Expr → ValueType → Prop) (b : Builder) : Builder → Prop
  | refl : Appends allowed b b
  | bind {later : Builder} (h : Appends allowed b later) {hint : String} {e : Expr}
      {ty : ValueType} (he : allowed hint e ty) : Appends allowed b (later.bind hint e ty).2

variable {allowed : String → Expr → ValueType → Prop} {b mid later : Builder}

theorem Appends.trans (h : b.Appends allowed mid) (h' : mid.Appends allowed later) :
    b.Appends allowed later := by
  induction h' with
  | refl => exact h
  | bind _ he ih => exact ih.bind he

theorem appends_bind {hint : String} {e : Expr} {ty : ValueType} (he : allowed hint e ty) :
    b.Appends allowed (b.bind hint e ty).2 := Appends.refl.bind he

/-- **`New`** -- what the bindings that a builder has gained are like. -/
structure New (allowed : String → Expr → ValueType → Prop) (b later : Builder)
    (new : List Binding) : Prop where
  /-- They stand behind those that were there. -/
  bindings : later.bindings = b.bindings ++ new
  /-- Their identities are the next numbers, in order. -/
  ids : new.map Binding.id = (List.range' b.nextIndex new.length).map ValueId.mk
  /-- The next number comes behind them. -/
  nextIndex : later.nextIndex = b.nextIndex + new.length
  /-- Their names differ. -/
  names_nodup : (new.map Binding.name).Nodup
  /-- Their names were free and are taken now. -/
  fresh : ∀ x ∈ new, b.names.isTaken x.name = false ∧ later.names.isTaken x.name = true
  /-- What was taken stays taken. -/
  taken : ∀ name, b.names.isTaken name = true → later.names.isTaken name = true
  /-- Their names are chosen for hints under which their expressions and types are allowed. -/
  allowed : ∀ x ∈ new, ∃ hint, (∃ names : NameSupply, x.name = names.choose hint) ∧
    allowed hint x.expr x.ty

/-- One more binding is new in the same way. -/
theorem New.bind {new : List Binding} (h : New allowed b later new) {hint : String} {e : Expr}
    {ty : ValueType} (he : allowed hint e ty) :
    New allowed b (later.bind hint e ty).2
      (new ++ [⟨⟨later.nextIndex⟩, later.names.choose hint, e, ty⟩]) where
  bindings := by rw [bindings_bind, h.bindings, List.append_assoc]
  ids := by
    rw [List.map_append, h.ids, List.length_append, List.length_singleton, List.range'_1_concat,
      List.map_append, h.nextIndex]
    rfl
  nextIndex := by
    rw [nextIndex_bind, h.nextIndex, List.length_append, List.length_singleton, Nat.add_assoc]
  names_nodup := by
    rw [List.map_append]
    refine NameSupply.nodup_concat_choose h.names_nodup (fun name hn => ?_) hint
    obtain ⟨x, hx, rfl⟩ := List.mem_map.mp hn
    exact (h.fresh x hx).2
  fresh := by
    intro x hx
    rcases List.mem_append.mp hx with hx | hx
    · exact ⟨(h.fresh x hx).1, NameSupply.isTaken_take_of_isTaken _ (h.fresh x hx).2⟩
    · cases List.mem_singleton.mp hx
      constructor
      · -- had it been taken at first, it would still be taken and not be chosen
        by_contra hb
        exact NameSupply.ne_choose (h.taken _ (Bool.not_eq_false _ ▸ hb)) hint rfl
      · exact (NameSupply.isTaken_take _ _ _).trans (by rw [beq_self_eq_true, Bool.true_or])
  taken := fun name hn => NameSupply.isTaken_take_of_isTaken _ (h.taken name hn)
  allowed := by
    intro x hx
    rcases List.mem_append.mp hx with hx | hx
    · exact h.allowed x hx
    · cases List.mem_singleton.mp hx
      exact ⟨hint, ⟨later.names, rfl⟩, he⟩

/-- **What appending adds**: the function keeps its name and parameters and gets new bindings. -/
theorem Appends.exists_new (h : b.Appends allowed later) :
    later.name = b.name ∧ later.params = b.params ∧ ∃ new, New allowed b later new := by
  induction h with
  | refl =>
    refine ⟨rfl, rfl, [], (List.append_nil _).symm, rfl, rfl, List.nodup_nil, ?_, ?_, ?_⟩
    · exact fun x hx => absurd hx List.not_mem_nil
    · exact fun name hn => hn
    · exact fun x hx => absurd hx List.not_mem_nil
  | bind _ he ih =>
    obtain ⟨hname, hparams, new, hnew⟩ := ih
    exact ⟨hname, hparams, _, hnew.bind he⟩

end Builder

/-! ## Expressions that are emitted -/

/-- **`Expr.IsEmitted`** -- no opaque operator, literals of a given kind only, and no second
name for a component of a tuple. -/
structure Expr.IsEmitted (kind : Literal → Prop) (e : Expr) : Prop where
  /-- Operators are transparent. -/
  transparent : ∀ op, e.operation? = some op → op.isCustom = false
  /-- Literals are of the kind. -/
  constants : ∀ l ∈ e.constants, kind l
  /-- A component of a tuple is read by a projection. -/
  projects : ∀ tuple index, e ≠ .alias (.tupleElement tuple index)

namespace Adjoint

mutual

/-- **`IsPlain`** -- transparent operators over operands whose literals are of a given kind, with
tensors of given types only. -/
def IsPlain (kind : Literal → Prop) (sized : ValueType → Prop) : Adjoint → Prop
  | leaf x spec => (∀ l, x.constant? = some l → kind l) ∧ sized (.tensor spec)
  | call op args spec => op.isCustom = false ∧ AllPlain kind sized args ∧ sized (.tensor spec)
  | zeros spec => sized (.tensor spec)
  | tuple components => AllPlain kind sized components

/-- Several plain adjoints. -/
def AllPlain (kind : Literal → Prop) (sized : ValueType → Prop) : List Adjoint → Prop
  | [] => True
  | a :: rest => IsPlain kind sized a ∧ AllPlain kind sized rest

end

variable {kind : Literal → Prop} {sized : ValueType → Prop}

theorem allPlain_iff {as : List Adjoint} :
    AllPlain kind sized as ↔ ∀ a ∈ as, a.IsPlain kind sized := by
  induction as with
  | nil => exact ⟨fun _ _ hm => absurd hm List.not_mem_nil, fun _ => trivial⟩
  | cons a as ih => rw [AllPlain, ih, List.forall_mem_cons]

/-- A value that is read is plain where its type is one of the given types. -/
theorem isPlain_value {id : ValueId} {spec : TensorSpec} (h : sized (.tensor spec)) :
    (leaf (.value id) spec).IsPlain kind sized := by
  refine ⟨fun l hl => ?_, h⟩
  cases hl

/-- The type of a plain tensor is one of the given types. -/
theorem IsPlain.sized_of_spec? {a : Adjoint} (h : a.IsPlain kind sized) {spec : TensorSpec}
    (hspec : a.spec? = some spec) : sized (.tensor spec) := by
  cases a with
  | leaf x s =>
    cases hspec
    exact h.2
  | call op args s =>
    cases hspec
    exact h.2.2
  | zeros s =>
    cases hspec
    exact h
  | tuple components => cases hspec

end Adjoint

/-! ## Emission -/

namespace Emit

theorem run_bind_eq_some_iff {α β : Type} {x : Emit α} {f : α → Emit β} {b later : Builder}
    {y : β} :
    (x >>= f).run b = some (y, later) ↔
      ∃ z mid, x.run b = some (z, mid) ∧ (f z).run mid = some (y, later) := by
  rw [StateT.run_bind]
  show (x.run b).bind _ = _ ↔ _
  rw [Option.bind_eq_some_iff, Prod.exists]

theorem run_map_eq_some_iff {α β : Type} {x : Emit α} {f : α → β} {b later : Builder} {y : β} :
    (f <$> x).run b = some (y, later) ↔ ∃ z, x.run b = some (z, later) ∧ y = f z := by
  rw [StateT.run_map]
  show (x.run b).map _ = _ ↔ _
  rw [Option.map_eq_some_iff]
  constructor
  · rintro ⟨⟨z, later'⟩, hx, he⟩
    cases he
    exact ⟨z, hx, rfl⟩
  · rintro ⟨z, hx, rfl⟩
    exact ⟨_, hx, rfl⟩

variable {kind : Literal → Prop} {sized : ValueType → Prop}
  {allowed : String → Expr → ValueType → Prop} {temp hint : String}

/-- **`Admits`** -- a condition that allows tensors of given types under a hint, whatever they are
computed by. -/
def Admits (allowed : String → Expr → ValueType → Prop) (kind : Literal → Prop)
    (sized : ValueType → Prop) (hint : String) : Prop :=
  ∀ e spec, Expr.IsEmitted kind e → sized (.tensor spec) → allowed hint e (.tensor spec)

theorem isEmitted_call {op : Operation} {xs : List Operand} (hop : op.isCustom = false)
    (hxs : ∀ x ∈ xs, ∀ l, x.constant? = some l → kind l) : (Expr.call op xs).IsEmitted kind where
  transparent := by
    intro op' h
    cases h
    exact hop
  constants := by
    intro l hl
    obtain ⟨x, hx, hxl⟩ := List.mem_filterMap.mp hl
    exact hxs x hx l hxl
  projects := fun _ _ h => by cases h

theorem isEmitted_zeros : (Expr.call .zeros []).IsEmitted kind :=
  isEmitted_call rfl fun _ hx => absurd hx List.not_mem_nil

theorem isEmitted_reading {x : Operand} (hx : ∀ l, x.constant? = some l → kind l) :
    (reading x).IsEmitted kind := by
  cases x with
  | value id => refine ⟨fun _ h => ?_, fun _ h => ?_, fun _ _ h => ?_⟩ <;> cases h
  | tupleElement tuple index =>
    refine ⟨fun _ h => ?_, fun _ h => ?_, fun _ _ h => ?_⟩ <;> cases h
  | literal constant =>
    refine ⟨fun _ h => ?_, fun l h => ?_, fun _ _ h => ?_⟩
    · cases h
    · cases List.mem_singleton.mp h
      exact hx constant rfl
    · cases h

theorem isEmitted_tuple {fields : List TupleField}
    (hf : ∀ l ∈ TupleField.constantsList fields, kind l) : (Expr.tuple fields).IsEmitted kind := by
  refine ⟨fun _ h => ?_, hf, fun _ _ h => ?_⟩ <;> cases h

/-- One binding, with what it leaves. -/
theorem appends_of_bind {e : Expr} {ty : ValueType} {b later : Builder} {id : ValueId}
    (he : allowed hint e ty) (h : (bind hint e ty).run b = some (id, later)) :
    b.Appends allowed later := by
  cases h
  exact Builder.appends_bind he

mutual

/-- **Emitting an operand** appends bindings, and the operand is plain. -/
theorem appends_operand (htemp : Admits allowed kind sized temp) (a : Adjoint)
    (ha : a.IsPlain kind sized) {b later : Builder} {x : Operand}
    (h : (operand temp a).run b = some (x, later)) :
    b.Appends allowed later ∧ ∀ l, x.constant? = some l → kind l := by
  cases a with
  | leaf y spec =>
    cases h
    exact ⟨.refl, ha.1⟩
  | zeros spec =>
    rw [operand] at h
    obtain ⟨id, hbind, rfl⟩ := run_map_eq_some_iff.mp h
    exact ⟨appends_of_bind (htemp _ _ isEmitted_zeros ha) hbind, fun l hl => by cases hl⟩
  | call op args spec =>
    rw [operand] at h
    obtain ⟨xs, mid, hargs, h⟩ := run_bind_eq_some_iff.mp h
    obtain ⟨id, hbind, rfl⟩ := run_map_eq_some_iff.mp h
    obtain ⟨hmid, hxs⟩ := appends_operands htemp args ha.2.1 hargs
    exact ⟨hmid.trans (appends_of_bind (htemp _ _ (isEmitted_call ha.1 hxs) ha.2.2) hbind),
      fun l hl => by cases hl⟩
  | tuple components => cases h

/-- Emitting several operands. -/
theorem appends_operands (htemp : Admits allowed kind sized temp)
    (as : List Adjoint) (has : Adjoint.AllPlain kind sized as) {b later : Builder}
    {xs : List Operand} (h : (operands temp as).run b = some (xs, later)) :
    b.Appends allowed later ∧ ∀ x ∈ xs, ∀ l, x.constant? = some l → kind l := by
  cases as with
  | nil =>
    cases h
    exact ⟨.refl, fun x hx => absurd hx List.not_mem_nil⟩
  | cons a rest =>
    rw [operands] at h
    obtain ⟨x, mid, ha, h⟩ := run_bind_eq_some_iff.mp h
    obtain ⟨ys, end_, hrest, h⟩ := run_bind_eq_some_iff.mp h
    cases h
    obtain ⟨hmid, hx⟩ := appends_operand htemp a has.1 ha
    obtain ⟨hlater, hys⟩ := appends_operands htemp rest has.2 hrest
    exact ⟨hmid.trans hlater, List.forall_mem_cons.mpr ⟨hx, hys⟩⟩

end

mutual

/-- **Emitting a field** of a tuple construction. -/
theorem appends_field (htemp : Admits allowed kind sized temp) (a : Adjoint)
    (ha : a.IsPlain kind sized) {b later : Builder} {x : TupleField}
    (h : (field temp a).run b = some (x, later)) :
    b.Appends allowed later ∧ ∀ l ∈ x.constants, kind l := by
  have tensor : field temp a = TupleField.operand <$> operand temp a →
      b.Appends allowed later ∧ ∀ l ∈ x.constants, kind l := by
    intro hfield
    rw [hfield] at h
    obtain ⟨y, hy, rfl⟩ := run_map_eq_some_iff.mp h
    obtain ⟨hlater, hconst⟩ := appends_operand htemp a ha hy
    refine ⟨hlater, fun l hl => hconst l ?_⟩
    exact Option.mem_toList.mp hl
  cases a with
  | leaf y spec => exact tensor rfl
  | zeros spec => exact tensor rfl
  | call op args spec => exact tensor rfl
  | tuple components =>
    rw [field] at h
    obtain ⟨xs, hxs, rfl⟩ := run_map_eq_some_iff.mp h
    exact appends_fields htemp components ha hxs

/-- Emitting several fields. -/
theorem appends_fields (htemp : Admits allowed kind sized temp)
    (as : List Adjoint) (has : Adjoint.AllPlain kind sized as) {b later : Builder}
    {xs : List TupleField} (h : (fields temp as).run b = some (xs, later)) :
    b.Appends allowed later ∧ ∀ l ∈ TupleField.constantsList xs, kind l := by
  cases as with
  | nil =>
    cases h
    exact ⟨.refl, fun l hl => absurd hl List.not_mem_nil⟩
  | cons a rest =>
    rw [fields] at h
    obtain ⟨x, mid, ha, h⟩ := run_bind_eq_some_iff.mp h
    obtain ⟨ys, end_, hrest, h⟩ := run_bind_eq_some_iff.mp h
    cases h
    obtain ⟨hmid, hx⟩ := appends_field htemp a has.1 ha
    obtain ⟨hlater, hys⟩ := appends_fields htemp rest has.2 hrest
    refine ⟨hmid.trans hlater, fun l hl => ?_⟩
    rw [TupleField.constantsList] at hl
    exact (List.mem_append.mp hl).elim (hx l) (hys l)

end

/-- **Settling** appends bindings, and what is settled is plain. -/
theorem appends_settle (htemp : Admits allowed kind sized temp)
    (hhint : Admits allowed kind sized hint) (a : Adjoint) (ha : a.IsPlain kind sized)
    {b later : Builder} {a' : Adjoint} (h : (settle temp hint a).run b = some (a', later)) :
    b.Appends allowed later ∧ a'.IsPlain kind sized := by
  cases a with
  | leaf x spec =>
    cases h
    exact ⟨.refl, ha⟩
  | tuple components =>
    cases h
    exact ⟨.refl, ha⟩
  | zeros spec =>
    rw [settle] at h
    obtain ⟨id, mid, hbind, h⟩ := run_bind_eq_some_iff.mp h
    cases h
    exact ⟨appends_of_bind (hhint _ _ isEmitted_zeros ha) hbind,
      Adjoint.isPlain_value ha⟩
  | call op args spec =>
    rw [settle] at h
    obtain ⟨xs, mid, hargs, h⟩ := run_bind_eq_some_iff.mp h
    obtain ⟨id, end_, hbind, h⟩ := run_bind_eq_some_iff.mp h
    cases h
    obtain ⟨hmid, hxs⟩ := appends_operands htemp args ha.2.1 hargs
    exact ⟨hmid.trans (appends_of_bind (hhint _ _ (isEmitted_call ha.1 hxs) ha.2.2) hbind),
      Adjoint.isPlain_value ha.2.2⟩

/-- **Emitting a value** appends bindings. -/
theorem appends_value (htemp : Admits allowed kind sized temp)
    (hhint : Admits allowed kind sized hint) (a : Adjoint) (ha : a.IsPlain kind sized)
    {ty : ValueType} (hty : ∀ e, Expr.IsEmitted kind e → allowed hint e ty) {b later : Builder}
    {id : ValueId} (h : (value temp hint ty a).run b = some (id, later)) :
    b.Appends allowed later := by
  cases a with
  | leaf x spec =>
    rw [value] at h
    exact appends_of_bind (hhint _ _ (isEmitted_reading ha.1) ha.2) h
  | zeros spec =>
    rw [value] at h
    exact appends_of_bind (hhint _ _ isEmitted_zeros ha) h
  | call op args spec =>
    rw [value] at h
    obtain ⟨xs, mid, hargs, h⟩ := run_bind_eq_some_iff.mp h
    obtain ⟨hmid, hxs⟩ := appends_operands htemp args ha.2.1 hargs
    exact hmid.trans (appends_of_bind (hhint _ _ (isEmitted_call ha.1 hxs) ha.2.2) h)
  | tuple components =>
    rw [value] at h
    obtain ⟨xs, mid, hfields, h⟩ := run_bind_eq_some_iff.mp h
    obtain ⟨hmid, hxs⟩ := appends_fields htemp components ha hfields
    exact hmid.trans (appends_of_bind (hty _ (isEmitted_tuple hxs)) h)

end Emit

end TensorGraph
