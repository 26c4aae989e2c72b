/-
# TensorGraph.Proofs.Indexing -- what the index of a function says

The index of a function is built in one pass that checks and records at once. It is compared
here with the function read by positions: which binding stands at a position, which values an
expression reads at whatever depth, and where and with which type a value is defined.

The pass succeeds exactly on functions whose values are distinct and read after they are
defined (`Function.Assigned`). A use is recorded behind the uses of the same value; it is left
out only where the last of them is at the same position. Since the positions of bindings
increase along the pass, this leaves every position at most once, in increasing order, whatever
the reads of other values in between (`FunctionIndex.usersOf_ofFunction`).
-/
import TensorGraph.Proofs.Verdicts

namespace TensorGraph

/-! ## Functions by position -/

/-- **`Before`** -- regions are evaluated in order, and bindings in order within a region. -/
def BindingPos.Before (p q : BindingPos) : Prop :=
  p.region < q.region ∨ p.region = q.region ∧ p.index < q.index

theorem BindingPos.Before.asymm {p q : BindingPos} (h : p.Before q) : ¬q.Before p := by
  unfold Before at h ⊢
  omega

theorem BindingPos.Before.ne {p q : BindingPos} (h : p.Before q) : p ≠ q := by
  rintro rfl
  exact h.asymm h

/-- **`Reads`** -- an operand reads a value, as a whole or one component of it. -/
inductive Operand.Reads (id : ValueId) : Operand → Prop
  | value : Reads id (.value id)
  | element (index : Nat) : Reads id (.tupleElement id index)

/-- A field reads a value at some depth. -/
inductive TupleField.Reads (id : ValueId) : TupleField → Prop
  | operand {x : Operand} : x.Reads id → Reads id (.operand x)
  | nested {fields : List TupleField} {field : TupleField} :
    field ∈ fields → Reads id field → Reads id (.tuple fields)

/-- **`Expr.Reads`** -- an expression reads a value in a call, in a field at some depth, in a
projection or under a second name. -/
inductive Expr.Reads (id : ValueId) : Expr → Prop
  | call (op : Operation) {operands : List Operand} {x : Operand} :
    x ∈ operands → x.Reads id → Reads id (.call op operands)
  | tuple {fields : List TupleField} {field : TupleField} :
    field ∈ fields → field.Reads id → Reads id (.tuple fields)
  | tupleGet (index : Nat) : Reads id (.tupleGet id index)
  | alias {x : Operand} : x.Reads id → Reads id (.alias x)

theorem Operand.value?_eq_some_iff {x : Operand} {id : ValueId} :
    x.value? = some id ↔ x.Reads id := by
  constructor
  · intro h
    cases x with
    | value id' =>
      cases h
      exact .value
    | tupleElement tuple index =>
      cases h
      exact .element index
    | literal constant => cases h
  · rintro (_ | index) <;> rfl

mutual

theorem TupleField.mem_values_iff (field : TupleField) {id : ValueId} :
    id ∈ field.values ↔ field.Reads id := by
  cases field with
  | operand x =>
    rw [TupleField.values, Option.mem_toList, Operand.value?_eq_some_iff]
    exact ⟨.operand, fun h => by cases h; assumption⟩
  | tuple fields =>
    rw [TupleField.values, TupleField.mem_valuesList_iff fields]
    exact ⟨fun ⟨_, hf, hr⟩ => .nested hf hr, fun h => by cases h; exact ⟨_, ‹_›, ‹_›⟩⟩

theorem TupleField.mem_valuesList_iff (fields : List TupleField) {id : ValueId} :
    id ∈ TupleField.valuesList fields ↔ ∃ field ∈ fields, field.Reads id := by
  cases fields with
  | nil => simp [TupleField.valuesList]
  | cons field rest =>
    rw [TupleField.valuesList, List.mem_append, TupleField.mem_values_iff field,
      TupleField.mem_valuesList_iff rest, List.exists_mem_cons_iff]

end

/-- **The values of an expression** are those that it reads. -/
theorem Expr.mem_values_iff {e : Expr} {id : ValueId} : id ∈ e.values ↔ e.Reads id := by
  cases e with
  | call op operands =>
    rw [Expr.values, List.mem_filterMap]
    constructor
    · rintro ⟨x, hx, hv⟩
      exact .call op hx (Operand.value?_eq_some_iff.mp hv)
    · rintro (⟨_, hx, hr⟩)
      exact ⟨_, hx, Operand.value?_eq_some_iff.mpr hr⟩
  | tuple fields =>
    rw [Expr.values, TupleField.mem_valuesList_iff]
    constructor
    · rintro ⟨field, hf, hr⟩
      exact .tuple hf hr
    · rintro (_ | ⟨hf, hr⟩)
      exact ⟨_, hf, hr⟩
  | tupleGet source index =>
    rw [Expr.values, List.mem_singleton]
    constructor
    · rintro rfl
      exact .tupleGet index
    · rintro (_ | _ | _)
      rfl
  | «alias» x =>
    rw [Expr.values, Option.mem_toList, Operand.value?_eq_some_iff]
    exact ⟨.alias, fun h => by cases h; assumption⟩

namespace Function

/-- The binding that stands at a position. -/
def bindingAt? (f : Function) (pos : BindingPos) : Option Binding :=
  f.regions[pos.region]?.bind fun region => region.bindings[pos.index]?

/-- **`Defines`** -- a value is defined at a place, with the type that is declared there. -/
inductive Defines (f : Function) : Definition → ValueId → ValueType → Prop
  | param {index : Nat} {p : Param} : f.params[index]? = some p →
    Defines f (.param index) p.id p.ty
  | binding {pos : BindingPos} {b : Binding} : f.bindingAt? pos = some b →
    Defines f (.binding pos) b.id b.ty

/-- **`Assigned`** -- every value is defined once, and what a binding reads is a parameter or
bound before it. -/
structure Assigned (f : Function) : Prop where
  /-- Values are distinct. -/
  ids_nodup : (f.paramIds ++ f.bindings.map Binding.id).Nodup
  /-- What is read is defined earlier. -/
  reads : ∀ pos b, f.bindingAt? pos = some b → ∀ id, b.expr.Reads id →
    id ∈ f.paramIds ∨
      ∃ earlier b', f.bindingAt? earlier = some b' ∧ earlier.Before pos ∧ b'.id = id

end Function

namespace FunctionIndex

variable {f : Function} {ix ix' : FunctionIndex} {pos : BindingPos} {id v : ValueId}

/-! ## Positions increase -/

theorem mem_positions {b : Binding} : (pos, b) ∈ positions f ↔ f.bindingAt? pos = some b := by
  rw [mem_positions_iff, Function.bindingAt?, Option.bind_eq_some_iff]

theorem pairwise_zipIdx {β : Type} (xs : List β) (n : Nat) :
    (xs.zipIdx n).Pairwise fun x y => x.2 < y.2 := by
  have h : ((xs.zipIdx n).map Prod.snd).Pairwise (· < ·) := by
    rw [List.zipIdx_map_snd]
    exact List.pairwise_lt_range'
  exact List.pairwise_map.mp h

theorem pairwise_positions (f : Function) :
    (positions f).Pairwise fun x y => x.1.Before y.1 := by
  rw [positions, List.pairwise_flatMap]
  constructor
  · rintro ⟨r, region⟩ _
    rw [List.pairwise_map]
    exact (pairwise_zipIdx r.bindings 0).imp fun h => .inr ⟨rfl, h⟩
  · refine (pairwise_zipIdx f.regions 0).imp ?_
    rintro ⟨r, region⟩ ⟨r', region'⟩ h x hx y hy
    obtain ⟨_, _, rfl⟩ := List.mem_map.mp hx
    obtain ⟨_, _, rfl⟩ := List.mem_map.mp hy
    exact .inl h

/-- Where the positions are cut at a binding, what comes first are the bindings before it. -/
theorem mem_front_iff {front back : List (BindingPos × Binding)} {b : Binding}
    (h : positions f = front ++ (pos, b) :: back) {x : BindingPos × Binding} :
    x ∈ front ↔ x ∈ positions f ∧ x.1.Before pos := by
  have hp := pairwise_positions f
  rw [h, List.pairwise_append, List.pairwise_cons] at hp
  obtain ⟨-, ⟨hback, -⟩, hfront⟩ := hp
  rw [h]
  constructor
  · intro hx
    exact ⟨List.mem_append_left _ hx, hfront x hx (pos, b) List.mem_cons_self⟩
  · rintro ⟨hx, hlt⟩
    rcases List.mem_append.mp hx with hx | hx
    · exact hx
    · rcases List.mem_cons.mp hx with rfl | hx
      · exact absurd rfl hlt.ne
      · exact absurd hlt (hback x hx).asymm

/-! ## What the pass accepts -/

/-- Bindings in sequence, without recursion: values are distinct, and each binding reads what
is known or bound before it. -/
theorem sequenced_iff {known : List ValueId} {bs : List Binding} (hk : known.Nodup) :
    Sequenced known bs ↔ (known ++ bs.map Binding.id).Nodup ∧
      ∀ front b back, bs = front ++ b :: back →
        ∀ id ∈ b.expr.values, id ∈ known ++ front.map Binding.id := by
  constructor
  · intro h
    exact ⟨h.nodup hk, fun front b back hbs => (hbs ▸ h).reads⟩
  · rintro ⟨hn, hr⟩
    clear hk
    induction bs generalizing known with
    | nil => trivial
    | cons b bs ih =>
      refine ⟨?_, ?_, ih ?_ ?_⟩
      · simpa using hr [] b bs rfl
      · intro hm
        exact (List.disjoint_of_nodup_append hn) hm List.mem_cons_self
      · rwa [List.append_assoc, List.singleton_append]
      · intro front b' back hbs
        have := hr (b :: front) b' back (by rw [hbs, List.cons_append])
        rwa [List.append_assoc, List.singleton_append]

theorem assigned_iff :
    f.Assigned ↔ f.paramIds.Nodup ∧ Sequenced f.paramIds f.bindings := by
  constructor
  · rintro ⟨hn, hr⟩
    have hp := (List.nodup_append.mp hn).1
    refine ⟨hp, (sequenced_iff hp).mpr ⟨hn, fun front b back hbs id hid => ?_⟩⟩
    rw [← map_snd_positions, List.map_eq_append_iff] at hbs
    obtain ⟨front', rest, hpos, rfl, hrest⟩ := hbs
    obtain ⟨⟨pos, b'⟩, back', rfl, rfl, -⟩ := List.map_eq_cons_iff.mp hrest
    have hb : f.bindingAt? pos = some b' :=
      mem_positions.mp (hpos ▸ List.mem_append_right _ List.mem_cons_self)
    rw [List.mem_append]
    refine (hr pos b' hb id (Expr.mem_values_iff.mp hid)).imp_right ?_
    rintro ⟨earlier, b₀, hb₀, hlt, rfl⟩
    have hm : (earlier, b₀) ∈ front' := (mem_front_iff hpos).mpr ⟨mem_positions.mpr hb₀, hlt⟩
    exact List.mem_map_of_mem (List.mem_map_of_mem hm)
  · rintro ⟨hp, hs⟩
    obtain ⟨hn, hr⟩ := (sequenced_iff hp).mp hs
    refine ⟨hn, fun pos b hb id hid => ?_⟩
    obtain ⟨front, back, hpos⟩ := List.append_of_mem (mem_positions.mpr hb)
    have hbs : f.bindings = front.map Prod.snd ++ b :: back.map Prod.snd := by
      rw [← map_snd_positions, hpos, List.map_append, List.map_cons]
    have hid' := hr _ b _ hbs id (Expr.mem_values_iff.mpr hid)
    refine (List.mem_append.mp hid').imp_right fun hm => ?_
    obtain ⟨b', hb', rfl⟩ := List.mem_map.mp hm
    obtain ⟨⟨earlier, _⟩, hx, rfl⟩ := List.mem_map.mp hb'
    obtain ⟨hx, hlt⟩ := (mem_front_iff hpos).mp hx
    exact ⟨earlier, _, mem_positions.mp hx, hlt, rfl⟩

/-- **The pass succeeds** exactly on functions whose values are defined once and before they
are read. -/
theorem exists_ofFunction_iff : (∃ ix, ofFunction f = .ok ix) ↔ f.Assigned := by
  rw [assigned_iff]
  constructor
  · rintro ⟨ix, h⟩
    exact (outline_ofFunction h).2
  · rintro ⟨hp, hs⟩
    exact exists_ofFunction hp hs

/-! ## Places of definition -/

theorem mem_outlineOf_iff {d : Definition} {ty : ValueType} :
    (id, ty, d) ∈ outlineOf f ↔ f.Defines d id ty := by
  cases d with
  | param index =>
    rw [mem_outlineOf_param]
    constructor
    · rintro ⟨p, hp, rfl, rfl⟩
      exact .param hp
    · rintro ⟨hp⟩
      exact ⟨_, hp, rfl, rfl⟩
  | binding pos =>
    rw [mem_outlineOf_binding]
    constructor
    · rintro ⟨b, hb, rfl, rfl⟩
      exact .binding (mem_positions.mp hb)
    · rintro (_ | hb)
      exact ⟨_, mem_positions.mpr hb, rfl, rfl⟩

theorem nodup_ids (h : ofFunction f = .ok ix) : ix.ids.Nodup := by
  obtain ⟨-, hp, hs⟩ := outline_ofFunction h
  rw [Function.SingleAssignment.ids_index h]
  exact hs.nodup hp

theorem definitionOf?_eq_some_iff (h : ofFunction f = .ok ix) {d : Definition} :
    ix.definitionOf? id = some d ↔ ∃ ty, f.Defines d id ty := by
  rw [definitionOf?_eq_some_iff_mem (nodup_ids h), (outline_ofFunction h).1]
  exact exists_congr fun _ => mem_outlineOf_iff

theorem typeOf?_eq_some_iff (h : ofFunction f = .ok ix) {ty : ValueType} :
    ix.typeOf? id = some ty ↔ ∃ d, f.Defines d id ty := by
  rw [typeOf?_eq_some_iff_mem (nodup_ids h), (outline_ofFunction h).1]
  exact exists_congr fun _ => mem_outlineOf_iff

/-! ## Uses -/

/-- Uses with one more at `pos`, unless it is there already as the last. -/
def recorded (pos : BindingPos) (users : List BindingPos) : List BindingPos :=
  if users.getLast? = some pos then users else users ++ [pos]

theorem recorded_recorded (pos : BindingPos) (users : List BindingPos) :
    recorded pos (recorded pos users) = recorded pos users := by
  have hlast : (recorded pos users).getLast? = some pos := by
    unfold recorded
    split
    · assumption
    · exact List.getLast?_concat
  exact if_pos hlast

theorem recorded_of_notMem {users : List BindingPos} (h : pos ∉ users) :
    recorded pos users = users ++ [pos] :=
  if_neg fun hlast => h (List.mem_of_getLast? hlast)

theorem usersOf_define {ty : ValueType} {d : Definition} (h : ix.define id ty d = .ok ix')
    (v : ValueId) : ix'.usersOf v = ix.usersOf v := by
  obtain ⟨hnew, rfl⟩ := define_eq_ok_iff.mp h
  rw [usersOf, usersOf, entryOf?, List.find?_append, ← entryOf?]
  cases hv : ix.entryOf? v with
  | some e => rfl
  | none =>
    rw [Option.none_or, List.find?_singleton]
    split <;> rfl

theorem usersOf_use (h : ix.use pos id = .ok ix') (v : ValueId) :
    ix'.usersOf v = if v = id then recorded pos (ix.usersOf v) else ix.usersOf v := by
  have hid := (outline_use h).1
  rw [use, if_pos (isSome_entryOf?.mpr hid)] at h
  cases h
  have hkey : ((fun e : IndexEntry => e.id == v) ∘ fun e =>
      if e.id = id ∧ e.users.getLast? ≠ some pos then { e with users := e.users ++ [pos] } else e)
      = fun e => e.id == v := by
    funext e
    rw [Function.comp]
    split <;> rfl
  rw [usersOf, usersOf, entryOf?, List.find?_map, hkey, ← entryOf?]
  cases hv : ix.entryOf? v with
  | none =>
    have hne : v ≠ id := by
      rintro rfl
      rw [← Option.not_isSome_iff_eq_none] at hv
      exact hv (isSome_entryOf?.mpr hid)
    rw [if_neg hne]
    rfl
  | some e =>
    have he : e.id = v := by
      have := List.find?_some hv
      rwa [beq_iff_eq] at this
    simp only [Option.map_some, Option.getD_some, he, recorded]
    by_cases h1 : v = id
    · by_cases h2 : e.users.getLast? = some pos <;> simp [h1, h2]
    · simp [h1]

/-- The reads of one binding are recorded once, however often they are repeated. -/
theorem usersOf_uses {vs : List ValueId}
    (h : vs.foldlM (fun ix id => ix.use pos id) ix = .ok ix') (v : ValueId) :
    ix'.usersOf v = if v ∈ vs then recorded pos (ix.usersOf v) else ix.usersOf v := by
  induction vs generalizing ix with
  | nil =>
    cases h
    rw [if_neg List.not_mem_nil]
  | cons first vs ih =>
    obtain ⟨ix₁, h₁, h₂⟩ := foldlM_cons_eq_ok_iff.mp h
    rw [ih h₂, usersOf_use h₁]
    by_cases hf : v = first
    · rw [if_pos hf, if_pos (List.mem_cons.mpr (.inl hf)), recorded_recorded, ite_self]
    · rw [if_neg hf]
      simp only [List.mem_cons, hf, false_or]

theorem usersOf_params {ps : List (Param × Nat)}
    (h : ps.foldlM (fun ix (p, index) => ix.define p.id p.ty (.param index)) ix = .ok ix')
    (v : ValueId) : ix'.usersOf v = ix.usersOf v := by
  induction ps generalizing ix with
  | nil =>
    cases h
    rfl
  | cons p ps ih =>
    obtain ⟨ix₁, h₁, h₂⟩ := foldlM_cons_eq_ok_iff.mp h
    rw [ih h₂, usersOf_define h₁]

theorem usersOf_addBinding {b : Binding} (h : ix.addBinding pos b = .ok ix') (v : ValueId) :
    ix'.usersOf v = if v ∈ b.expr.values then recorded pos (ix.usersOf v) else ix.usersOf v := by
  obtain ⟨ix₁, h₁, h₂⟩ := bind_eq_ok_iff.mp h
  rw [usersOf_define h₂, usersOf_uses h₁]

/-- **Along the bindings**, the uses of a value are the positions that read it, as long as
positions do not come back. -/
theorem usersOf_bindings {ps : List (BindingPos × Binding)}
    (h : ps.foldlM (fun ix (pos, b) => ix.addBinding pos b) ix = .ok ix') {v : ValueId}
    (hn : (ix.usersOf v ++ ps.map Prod.fst).Nodup) :
    ix'.usersOf v = ix.usersOf v ++
      (ps.filter fun x => v ∈ x.2.expr.values).map Prod.fst := by
  induction ps generalizing ix with
  | nil =>
    cases h
    exact (List.append_nil _).symm
  | cons p ps ih =>
    obtain ⟨ix₁, h₁, h₂⟩ := foldlM_cons_eq_ok_iff.mp h
    have hstep := usersOf_addBinding h₁ v
    have hp : p.1 ∉ ix.usersOf v := fun hm =>
      (List.disjoint_of_nodup_append hn) hm List.mem_cons_self
    by_cases hv : v ∈ p.2.expr.values
    · rw [if_pos hv, recorded_of_notMem hp] at hstep
      rw [ih h₂ (by rwa [hstep, List.append_assoc]), hstep,
        List.filter_cons_of_pos (by simpa using hv), List.append_assoc]
      rfl
    · rw [if_neg hv] at hstep
      have hsub : (ps.map Prod.fst).Sublist (List.map Prod.fst (p :: ps)) :=
        List.sublist_cons_self _ _
      rw [ih h₂ (hstep ▸ hn.sublist ((List.Sublist.refl _).append hsub)), hstep,
        List.filter_cons_of_neg (by simpa using hv)]

/-- **The uses of a value** are the positions that read it, in the order of the function. -/
theorem usersOf_ofFunction (h : ofFunction f = .ok ix) (v : ValueId) :
    ix.usersOf v = ((positions f).filter fun x => v ∈ x.2.expr.values).map Prod.fst := by
  obtain ⟨ix₁, h₁, h₂⟩ := bind_eq_ok_iff.mp h
  have hempty : ix₁.usersOf v = [] := usersOf_params h₁ v
  have hn : ((positions f).map Prod.fst).Nodup := by
    rw [List.Nodup, List.pairwise_map]
    exact (pairwise_positions f).imp BindingPos.Before.ne
  rw [usersOf_bindings h₂ (by rwa [hempty]), hempty, List.nil_append]

/-! ## The index of a function -/

/-- **`Describes`** -- an index gives for each value where it is defined, its type, and the
positions that read it. -/
structure Describes (ix : FunctionIndex) (f : Function) : Prop where
  /-- Places of definition are given for the values of the function. -/
  definition : ∀ id d, ix.definitionOf? id = some d ↔ ∃ ty, f.Defines d id ty
  /-- So are their declared types. -/
  type : ∀ id ty, ix.typeOf? id = some ty ↔ ∃ d, f.Defines d id ty
  /-- Uses are listed in order, each once. -/
  users_sorted : ∀ id, (ix.usersOf id).Pairwise BindingPos.Before
  /-- Uses are the positions whose expression reads the value. -/
  users : ∀ id pos, pos ∈ ix.usersOf id ↔ ∃ b, f.bindingAt? pos = some b ∧ b.expr.Reads id

/-- **The index decides single assignment and is exact.** A function has an index if and only if
its values are distinct and every value that a binding reads, at whatever depth, is a parameter or
bound strictly earlier, in this region or in one before it. The index then knows exactly the
values of the function, with the places where they are defined and their declared types, and lists
for every identity the positions whose expressions read it, in strictly increasing order. -/
theorem ofFunction_describes (f : Function) :
    ((∃ ix, ofFunction f = .ok ix) ↔ f.Assigned) ∧
      ∀ ix, ofFunction f = .ok ix → ix.Describes f := by
  refine ⟨exists_ofFunction_iff, fun ix h => ?_⟩
  refine ⟨fun id d => definitionOf?_eq_some_iff h, fun id ty => typeOf?_eq_some_iff h,
    fun id => ?_, fun id pos => ?_⟩
  · rw [usersOf_ofFunction h, List.pairwise_map]
    exact (pairwise_positions f).filter _
  · rw [usersOf_ofFunction h, List.mem_map]
    constructor
    · rintro ⟨⟨pos, b⟩, hm, rfl⟩
      obtain ⟨hb, hr⟩ := List.mem_filter.mp hm
      exact ⟨b, mem_positions.mp hb, Expr.mem_values_iff.mp (of_decide_eq_true hr)⟩
    · rintro ⟨b, hb, hr⟩
      refine ⟨(pos, b), List.mem_filter.mpr ⟨mem_positions.mpr hb, ?_⟩, rfl⟩
      exact decide_eq_true (Expr.mem_values_iff.mpr hr)

end FunctionIndex

/-- Two regions; one expression reads a parameter twice with another read in between, and the
second region reads across the first. -/
def Function.crossedReads : Function :=
  let scalar : ValueType := .tensor (.scalar .f32)
  let pair : ValueType := .tuple [scalar, .tuple [scalar, scalar]]
  let x : Operand := .value ⟨7⟩
  let y : Operand := .value ⟨2⟩
  ⟨"crossed", [⟨⟨7⟩, "x", scalar⟩, ⟨⟨2⟩, "y", scalar⟩],
    [⟨[⟨⟨9⟩, "p", .tuple [.operand x, .tuple [.operand y, .operand x]], pair⟩], [⟨9⟩]⟩,
      ⟨[⟨⟨4⟩, "q", .tupleGet ⟨9⟩ 0, scalar⟩, ⟨⟨11⟩, "r", .alias x, scalar⟩], [⟨4⟩, ⟨11⟩]⟩],
    .tuple [.value ⟨4⟩, .value ⟨11⟩]⟩

theorem Function.crossedReads_describes :
    crossedReads.Assigned ∧ ∃ ix, FunctionIndex.ofFunction crossedReads = .ok ix ∧
      ix.Describes crossedReads ∧ ix.usersOf ⟨7⟩ = [⟨0, 0⟩, ⟨1, 1⟩] ∧
      ix.definitionOf? ⟨4⟩ = some (.binding ⟨1, 0⟩) := by
  obtain ⟨hiff, hall⟩ := FunctionIndex.ofFunction_describes crossedReads
  exact ⟨hiff.mp ⟨_, rfl⟩, _, rfl, hall _ rfl, rfl, rfl⟩

end TensorGraph
