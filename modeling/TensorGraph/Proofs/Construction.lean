/-
# TensorGraph.Proofs.Construction -- functions in the making

A name that a supply chooses is free: a hint and its first numbered forms are more names
than are taken. A builder is sound when its bindings are accepted in the context of its
parameters, its identities are below the next one, and its names are distinct and taken.
Binding an expression of the declared type keeps a builder sound and extends its context by
one value, so that a builder which starts from a well-formed function and binds typed
expressions only stays the body of a well-formed function.
-/
import Mathlib.Data.List.Perm.Subperm
import TensorGraph.Build.Builder
import TensorGraph.Proofs.WellFormed

namespace TensorGraph

/-! ## Free names -/

namespace NameSupply

theorem numbered_inj {hint : String} {j k : Nat} (h : numbered hint j = numbered hint k) :
    j = k := by
  have hlist := congrArg String.toList h
  unfold numbered at hlist
  rw [String.toList_append, String.toList_append] at hlist
  have hdigits := List.append_cancel_left hlist
  rw [Nat.toList_repr, Nat.toList_repr] at hdigits
  have hnumber := congrArg (fun ds => Nat.ofDigitChars 10 ds 0) hdigits
  simpa only [Nat.ofDigitChars_ten_toDigits] using hnumber

theorem numbered_ne (hint : String) (k : Nat) : numbered hint k ≠ hint := by
  intro h
  have hlist := congrArg String.toList h
  unfold numbered at hlist
  rw [String.toList_append, Nat.toList_repr] at hlist
  exact Nat.toDigits_ne_nil (List.append_cancel_left (hlist.trans (List.append_nil _).symm))

theorem isTaken_iff {s : NameSupply} {name : String} : s.isTaken name = true ↔ name ∈ s.taken :=
  List.contains_iff_mem

/-- **A chosen name is free.** -/
theorem isTaken_choose (s : NameSupply) (hint : String) : s.isTaken (s.choose hint) = false := by
  unfold choose
  split
  · next hhint =>
    split
    · next k hk =>
      have := List.find?_some hk
      rwa [Bool.not_eq_true'] at this
    · next hnone =>
      -- the hint and as many numbered forms as there are taken names would all be taken
      exfalso
      have hall : ∀ k ∈ List.range' 1 s.taken.length, numbered hint k ∈ s.taken := by
        intro k hk
        have := List.find?_eq_none.mp hnone k hk
        rw [Bool.not_eq_true', Bool.not_eq_false] at this
        exact isTaken_iff.mp this
      have hnodup : (hint :: (List.range' 1 s.taken.length).map (numbered hint)).Nodup := by
        refine List.nodup_cons.mpr ⟨fun hm => ?_, ?_⟩
        · obtain ⟨k, _, hk⟩ := List.mem_map.mp hm
          exact numbered_ne hint k hk
        · exact (List.nodup_range').map fun _ _ => numbered_inj
      have hsub : hint :: (List.range' 1 s.taken.length).map (numbered hint) ⊆ s.taken := by
        intro name hm
        rcases List.mem_cons.mp hm with rfl | hm
        · exact isTaken_iff.mp hhint
        · obtain ⟨k, hk, rfl⟩ := List.mem_map.mp hm
          exact hall k hk
      have hlen := (List.subperm_of_subset hnodup hsub).length_le
      rw [List.length_cons, List.length_map, List.length_range'] at hlen
      omega
  · next hfree => exact Bool.not_eq_true _ ▸ hfree

variable {s : NameSupply} {names : List String}

theorem ne_choose {name : String} (h : s.isTaken name = true) (hint : String) :
    name ≠ s.choose hint := by
  rintro rfl
  rw [isTaken_choose] at h
  cases h

/-- **One more name** differs from those that are taken. -/
theorem nodup_concat_choose (hn : names.Nodup) (ht : ∀ name ∈ names, s.isTaken name = true)
    (hint : String) : (names ++ [s.choose hint]).Nodup :=
  hn.append (List.nodup_singleton _)
    (List.disjoint_singleton.mpr fun hm => ne_choose (ht _ hm) hint rfl)

/-- The name that is chosen is taken with them. -/
theorem isTaken_take_choose (ht : ∀ name ∈ names, s.isTaken name = true) (hint : String) :
    ∀ name ∈ names ++ [s.choose hint], (s.take (s.choose hint)).isTaken name = true := by
  intro name hn
  rcases List.mem_append.mp hn with hn | hn
  · exact isTaken_take_of_isTaken _ (ht name hn)
  · rw [List.mem_singleton.mp hn, isTaken_take, beq_self_eq_true, Bool.true_or]

end NameSupply

/-! ## Sound builders -/

namespace Builder

/-- The values of a builder with their types. -/
def context (b : Builder) : Context := b.params.map Param.entry ++ b.bindings.map Binding.entry

/-- The names of the values of a builder. -/
def valueNames (b : Builder) : List String :=
  b.params.map Param.name ++ b.bindings.map Binding.name

/-- **`Sound`** -- what a builder holds is a well-formed body, and the next identity and the
names that are not taken are free. -/
structure Sound (b : Builder) : Prop where
  /-- Parameters are distinct. -/
  params_nodup : (b.params.map Param.id).Nodup
  /-- Every binding reads values before it and declares the type of its expression. -/
  accepts : Context.Accepts (b.params.map Param.entry) b.bindings
  /-- Identities are below the next one. -/
  bounded : ∀ id ∈ b.context.ids, id.index < b.nextIndex
  /-- Names are distinct. -/
  names_nodup : b.valueNames.Nodup
  /-- Names are taken. -/
  taken : ∀ name ∈ b.valueNames, b.names.isTaken name = true

/-- **`Grows`** -- a later builder has the parameters of an earlier one, and more bindings
behind its own. -/
structure Grows (b later : Builder) : Prop where
  /-- The function keeps its name. -/
  name : later.name = b.name
  /-- Parameters are the same. -/
  params : later.params = b.params
  /-- Bindings are appended. -/
  bindings : ∃ new, later.bindings = b.bindings ++ new

theorem Grows.refl (b : Builder) : b.Grows b := ⟨rfl, rfl, [], (List.append_nil _).symm⟩

theorem Grows.trans {a b c : Builder} (h : a.Grows b) (h' : b.Grows c) : a.Grows c := by
  obtain ⟨new, hn⟩ := h.bindings
  obtain ⟨new', hn'⟩ := h'.bindings
  refine ⟨h'.name.trans h.name, h'.params.trans h.params, new ++ new', ?_⟩
  rw [hn', hn, List.append_assoc]

/-- A later builder has a longer context. -/
theorem Grows.exists_context {b later : Builder} (h : b.Grows later) :
    ∃ Γ, later.context = b.context ++ Γ := by
  obtain ⟨new, hn⟩ := h.bindings
  refine ⟨new.map Binding.entry, ?_⟩
  rw [context, h.params, hn, List.map_append, ← List.append_assoc, context]

/-- What has a type in a builder keeps it in a later one. -/
theorem Grows.typeOf?_of_eq_some {b later : Builder} (h : b.Grows later) {id : ValueId}
    {ty : ValueType} (hid : b.context.typeOf? id = some ty) :
    later.context.typeOf? id = some ty := by
  obtain ⟨Γ, hΓ⟩ := h.exists_context
  rw [hΓ]
  exact Context.typeOf?_append_of_eq_some Γ hid

theorem Grows.mem_ids {b later : Builder} (h : b.Grows later) {id : ValueId}
    (hid : id ∈ b.context.ids) : id ∈ later.context.ids := by
  obtain ⟨Γ, hΓ⟩ := h.exists_context
  rw [hΓ, Context.ids_append]
  exact List.mem_append_left _ hid

theorem Sound.nodup {b : Builder} (h : b.Sound) : b.context.ids.Nodup := by
  refine h.accepts.nodup ?_
  rw [Context.ids, List.map_map]
  exact h.params_nodup

/-! ## Binding -/

theorem context_bind (b : Builder) (hint : String) (e : Expr) (ty : ValueType) :
    (b.bind hint e ty).2.context = b.context ++ [(⟨b.nextIndex⟩, ty)] := by
  rw [context, params_bind, bindings_bind, List.map_append, ← List.append_assoc]
  rfl

theorem valueNames_bind (b : Builder) (hint : String) (e : Expr) (ty : ValueType) :
    (b.bind hint e ty).2.valueNames = b.valueNames ++ [b.names.choose hint] := by
  rw [valueNames, params_bind, bindings_bind, List.map_append, ← List.append_assoc]
  rfl

theorem grows_bind (b : Builder) (hint : String) (e : Expr) (ty : ValueType) :
    b.Grows (b.bind hint e ty).2 := ⟨rfl, rfl, _, rfl⟩

theorem Sound.fresh {b : Builder} (h : b.Sound) : (⟨b.nextIndex⟩ : ValueId) ∉ b.context.ids :=
  fun hm => absurd (h.bounded _ hm) (Nat.lt_irrefl _)

theorem Sound.bounded_concat {b : Builder} (h : b.Sound) (ty : ValueType) :
    ∀ id ∈ Context.ids (b.context ++ [(⟨b.nextIndex⟩, ty)]), id.index < b.nextIndex + 1 := by
  intro id hid
  rw [Context.ids_append] at hid
  rcases List.mem_append.mp hid with hid | hid
  · exact Nat.lt_succ_of_lt (h.bounded id hid)
  · rw [List.mem_singleton.mp hid]
    exact Nat.lt_succ_self _

/-- **Binding** an expression of the declared type keeps a builder sound. -/
theorem Sound.bind {b : Builder} (h : b.Sound) (hint : String) {e : Expr} {ty : ValueType}
    (ht : e.HasType b.context.typeOf? ty) : (b.bind hint e ty).2.Sound where
  params_nodup := h.params_nodup
  accepts := by
    rw [params_bind, bindings_bind, Context.accepts_append]
    refine ⟨h.accepts, ?_⟩
    show (⟨b.nextIndex⟩ : ValueId) ∉ b.context.ids ∧ e.HasType b.context.typeOf? ty ∧ True
    exact ⟨h.fresh, ht, trivial⟩
  bounded := by
    rw [context_bind, nextIndex_bind]
    exact h.bounded_concat ty
  names_nodup := by
    rw [valueNames_bind]
    exact NameSupply.nodup_concat_choose h.names_nodup h.taken hint
  taken := by
    rw [valueNames_bind]
    exact NameSupply.isTaken_take_choose h.taken hint

theorem typeOf?_bind_self {b : Builder} (h : b.Sound) (hint : String) (e : Expr)
    (ty : ValueType) : (b.bind hint e ty).2.context.typeOf? ⟨b.nextIndex⟩ = some ty := by
  rw [context_bind, Context.typeOf?_append_singleton h.fresh, if_pos rfl]

/-! ## Starting and finishing -/

/-- Seeding takes in names and identities. -/
theorem bounds_foldl_seed {β : Type} (key : β → ValueId) (name : β → String)
    (seed : Builder → β → Builder)
    (hseed : ∀ b x, (seed b x).nextIndex = max b.nextIndex ((key x).index + 1) ∧
      (seed b x).names = b.names.take (name x)) (xs : List β) (b : Builder) :
    b.nextIndex ≤ (xs.foldl seed b).nextIndex ∧
      (∀ x ∈ xs, (key x).index < (xs.foldl seed b).nextIndex) ∧
      ∀ n, (b.names.isTaken n = true ∨ n ∈ xs.map name) →
        (xs.foldl seed b).names.isTaken n = true := by
  induction xs generalizing b with
  | nil =>
    refine ⟨Nat.le_refl _, fun x hx => absurd hx List.not_mem_nil, fun n hn => ?_⟩
    exact hn.resolve_right List.not_mem_nil
  | cons x xs ih =>
    obtain ⟨hle, hlt, htaken⟩ := ih (seed b x)
    obtain ⟨hnext, hnames⟩ := hseed b x
    rw [List.foldl_cons]
    refine ⟨by omega, fun y hy => ?_, fun n hn => htaken n ?_⟩
    · rcases List.mem_cons.mp hy with rfl | hy
      · omega
      · exact hlt y hy
    · rw [hnames, NameSupply.isTaken_take, Bool.or_eq_true, beq_iff_eq]
      rcases hn with hn | hn
      · exact .inl (.inr hn)
      · rcases List.mem_cons.mp hn with hn | hn
        · exact .inl (.inl hn)
        · exact .inr hn

/-- **A builder that starts from a well-formed function** is sound. -/
theorem sound_ofFunction (name : String) {f : Function} (h : f.WellFormed) :
    (ofFunction name f).Sound := by
  obtain ⟨_, hparams, hparamNames⟩ := bounds_foldl_seed Param.id Param.name seedParam
    (fun _ _ => ⟨rfl, rfl⟩) f.params (empty name)
  obtain ⟨hle, hbindings, hnames⟩ := bounds_foldl_seed Binding.id Binding.name seedBinding
    (fun _ _ => ⟨rfl, rfl⟩) f.bindings (f.params.foldl seedParam (empty name))
  refine ⟨?_, ?_, ?_, ?_, ?_⟩
  · rw [params_ofFunction]
    exact h.params_nodup
  · rw [params_ofFunction, bindings_ofFunction]
    exact h.accepts
  · intro id hid
    rw [context, params_ofFunction, bindings_ofFunction] at hid
    obtain ⟨⟨_, ty⟩, hm, rfl⟩ := List.mem_map.mp hid
    rcases List.mem_append.mp hm with hm | hm
    · obtain ⟨p, hp, he⟩ := List.mem_map.mp hm
      cases he
      exact Nat.lt_of_lt_of_le (hparams p hp) hle
    · obtain ⟨b, hb, he⟩ := List.mem_map.mp hm
      cases he
      exact hbindings b hb
  · rw [valueNames, params_ofFunction, bindings_ofFunction]
    exact h.names_nodup
  · intro n hn
    rw [valueNames, params_ofFunction, bindings_ofFunction] at hn
    refine hnames n ?_
    rcases List.mem_append.mp hn with hn | hn
    · exact .inl (hparamNames n (.inr hn))
    · exact .inr hn

theorem context_ofFunction (name : String) (f : Function) :
    (ofFunction name f).context = f.context := by
  rw [context, params_ofFunction, bindings_ofFunction]
  rfl

theorem bindings_finish (b : Builder) (outputs : List ValueId) (ret : ReturnExpr) :
    (b.finish outputs ret).bindings = b.bindings := List.append_nil b.bindings

/-- **A sound builder** finishes as a well-formed function, when it exposes values of its
own and returns what it exposes or takes. -/
theorem Sound.finish {b : Builder} (h : b.Sound) {outputs : List ValueId} {ret : ReturnExpr}
    (hout : ∀ id ∈ outputs, id ∈ b.context.ids)
    (hret : ∀ id ∈ ret.values, id ∈ b.params.map Param.id ++ outputs) :
    (b.finish outputs ret).WellFormed where
  params_nodup := h.params_nodup
  accepts := by
    rw [bindings_finish]
    exact h.accepts
  names_nodup := by
    have hnames : (b.finish outputs ret).valueNames = b.valueNames := by
      rw [Function.valueNames, bindings_finish]
      rfl
    rw [hnames]
    exact h.names_nodup
  outputs := by
    intro r hr id hid
    cases List.mem_singleton.mp hr
    have := hout id hid
    rw [context, Context.ids_append, Context.ids_map_entry, Context.ids, List.map_map] at this
    exact List.mem_append.mp this
  returns := by
    intro id hid
    have hexposed : (b.finish outputs ret).exposed = b.params.map Param.id ++ outputs :=
      congrArg (b.params.map Param.id ++ ·) (List.append_nil outputs)
    rw [hexposed]
    exact hret id hid

end Builder

end TensorGraph
