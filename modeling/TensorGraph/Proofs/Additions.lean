/-
# TensorGraph.Proofs.Additions -- any run of a builder

A builder may be asked for parameters and bindings in any order, for expressions of any types,
under any hints. What it holds then need not be well-formed, but it is tidy: identities and names
are distinct, identities are below the next one, names are taken, and every binding reads
parameters or earlier bindings (`Builder.Tidy`).

An addition takes the next identity and a name that was free, whichever of the two it is, so one
step lemma serves both; they differ only in what stands before what. A parameter that comes late
still stands in front of every binding, which reads what it read before.

All this is shown of identities without bound (`Builder.addAll_distinct`) and carries over to
words as long as the numbers do not reach the last one (`Builder.addAll_words`). Beyond it an
identity is given out again (`Builder.addAll_lastWords`).
-/
import TensorGraph.Proofs.Copies
import TensorGraph.Proofs.Indexing

namespace TensorGraph

open scoped CoreInstances

/-! ## Additions -/

/-- **`Addition`** -- what a builder is asked for: a parameter or a binding, under a hint. -/
inductive Addition where
  | param (hint : String) (ty : ValueType)
  | binding (hint : String) (expr : Expr) (ty : ValueType)

namespace Addition

/-- The hint for the name. -/
def hint : Addition → String
  | param hint _ => hint
  | binding hint _ _ => hint

/-- A value is read by the expression of a new binding. -/
inductive Reads (id : ValueId) : Addition → Prop
  | binding (hint : String) {expr : Expr} (ty : ValueType) :
    expr.Reads id → Reads id (.binding hint expr ty)

/-- What was asked for stands in a function under an identity. -/
def StandsIn (f : Function) (id : ValueId) : Addition → Prop
  | param _ ty => ∃ name, ⟨id, name, ty⟩ ∈ f.params
  | binding _ expr ty => ∃ name, ⟨id, name, expr, ty⟩ ∈ f.bindings

end Addition

namespace Builder

variable {b : Builder} {a : Addition} {adds : List Addition}

/-- One addition: the identity that is returned, and the builder afterwards. -/
def add (b : Builder) (a : Addition) (next : Nat → Nat := Nat.succ) : ValueId × Builder :=
  match a with
  | .param hint ty => b.addParam hint ty next
  | .binding hint expr ty => b.bind hint expr ty next

/-- **`addAll`** -- additions one after the other: the identities that are returned, and the
builder in the end. -/
def addAll (b : Builder) :
    List Addition → (next : Nat → Nat := Nat.succ) → List ValueId × Builder
  | [], _ => ([], b)
  | a :: adds, next =>
    let (id, b) := b.add a next
    let (ids, b) := b.addAll adds next
    (id :: ids, b)

/-- **`ReadsKnown`** -- each new expression reads known values and values that were returned
before it. -/
def ReadsKnown (b : Builder) (known : List ValueId) :
    List Addition → (next : Nat → Nat := Nat.succ) → Prop
  | [], _ => True
  | a :: adds, next => (∀ id, a.Reads id → id ∈ known) ∧
    (b.add a next).2.ReadsKnown (known ++ [(b.add a next).1]) adds next

/-- The identities of the values of a builder. -/
def ids (b : Builder) : List ValueId := b.params.map Param.id ++ b.bindings.map Binding.id

/-! ## One addition -/

theorem fst_add (b : Builder) (a : Addition) : (b.add a).1 = ⟨b.nextIndex⟩ := by
  cases a <;> rfl

theorem nextIndex_add (b : Builder) (a : Addition) : (b.add a).2.nextIndex = b.nextIndex + 1 := by
  cases a <;> rfl

theorem names_add (b : Builder) (a : Addition) :
    (b.add a).2.names = b.names.take (b.names.choose a.hint) := by
  cases a <;> rfl

theorem ids_add (b : Builder) (a : Addition) :
    (b.add a).2.ids.Perm (⟨b.nextIndex⟩ :: b.ids) := by
  cases a with
  | param hint ty =>
    rw [ids, add, params_addParam, bindings_addParam, List.map_append, List.append_assoc]
    exact List.perm_middle
  | binding hint expr ty =>
    rw [ids, add, params_bind, bindings_bind, List.map_append, ← List.append_assoc]
    exact List.perm_append_singleton _ _

theorem valueNames_add (b : Builder) (a : Addition) :
    (b.add a).2.valueNames.Perm (b.names.choose a.hint :: b.valueNames) := by
  cases a with
  | param hint ty =>
    rw [valueNames, add, params_addParam, bindings_addParam, List.map_append, List.append_assoc]
    exact List.perm_middle
  | binding hint expr ty =>
    rw [add, valueNames_bind]
    exact List.perm_append_singleton _ _

/-- What a builder holds stays, in front of what is added. -/
theorem prefix_add (b : Builder) (a : Addition) :
    b.params <+: (b.add a).2.params ∧ b.bindings <+: (b.add a).2.bindings := by
  cases a with
  | param hint ty => exact ⟨List.prefix_append _ _, List.prefix_rfl⟩
  | binding hint expr ty => exact ⟨List.prefix_rfl, List.prefix_append _ _⟩

/-! ## Tidy builders -/

/-- **`Tidy`** -- values are distinct and read after they are defined; the next identity, and the
names that are not taken, are free. -/
structure Tidy (b : Builder) : Prop where
  /-- Identities are distinct. -/
  ids_nodup : b.ids.Nodup
  /-- Bindings read parameters and earlier bindings. -/
  sequenced : FunctionIndex.Sequenced (b.params.map Param.id) b.bindings
  /-- Identities are below the next one. -/
  bounded : ∀ id ∈ b.ids, id.index < b.nextIndex
  /-- Names are distinct. -/
  names_nodup : b.valueNames.Nodup
  /-- Names are taken. -/
  taken : ∀ name ∈ b.valueNames, b.names.isTaken name = true

theorem ids_context (b : Builder) : b.context.ids = b.ids := by
  rw [context, Context.ids_append, Context.ids_map_entry, Context.ids, List.map_map]
  rfl

/-- A sound builder is tidy: its bindings are typed besides. -/
theorem Sound.tidy (h : b.Sound) : b.Tidy where
  ids_nodup := b.ids_context ▸ h.nodup
  sequenced := by
    have hs := (Context.accepts_iff.mp h.accepts).1
    rwa [Context.ids, List.map_map] at hs
  bounded := b.ids_context ▸ h.bounded
  names_nodup := h.names_nodup
  taken := h.taken

theorem Tidy.fresh (h : b.Tidy) : (⟨b.nextIndex⟩ : ValueId) ∉ b.ids :=
  fun hm => absurd (h.bounded _ hm) (Nat.lt_irrefl _)

/-- One more parameter, which no binding defines, leaves bindings in sequence. -/
theorem Tidy.sequenced_concat (h : b.Tidy) :
    FunctionIndex.Sequenced (b.params.map Param.id ++ [⟨b.nextIndex⟩]) b.bindings := by
  have hp : (b.params.map Param.id).Nodup := (List.nodup_append.mp h.ids_nodup).1
  obtain ⟨-, hr⟩ := (FunctionIndex.sequenced_iff hp).mp h.sequenced
  have hn : (b.params.map Param.id ++ [(⟨b.nextIndex⟩ : ValueId)] ++
      b.bindings.map Binding.id).Nodup := by
    rw [List.append_assoc, List.singleton_append, List.perm_middle.nodup_iff]
    exact List.nodup_cons.mpr ⟨h.fresh, h.ids_nodup⟩
  refine (FunctionIndex.sequenced_iff (List.nodup_append.mp hn).1).mpr ⟨hn, ?_⟩
  intro front x back hx id hid
  rcases List.mem_append.mp (hr front x back hx id hid) with hm | hm
  · exact List.mem_append_left _ (List.mem_append_left _ hm)
  · exact List.mem_append_right _ hm

/-- **An addition** that reads what is there keeps a builder tidy. -/
theorem Tidy.add (h : b.Tidy) (hreads : ∀ id, a.Reads id → id ∈ b.ids) : (b.add a).2.Tidy where
  ids_nodup := by
    rw [(b.ids_add a).nodup_iff]
    exact List.nodup_cons.mpr ⟨h.fresh, h.ids_nodup⟩
  sequenced := by
    cases a with
    | param hint ty =>
      rw [Builder.add, params_addParam, bindings_addParam, List.map_append]
      exact h.sequenced_concat
    | binding hint expr ty =>
      rw [Builder.add, params_bind, bindings_bind]
      refine h.sequenced.concat (fun id hid => ?_) h.fresh
      exact hreads id (.binding hint ty (Expr.mem_values_iff.mp hid))
  bounded := by
    intro id hid
    rw [nextIndex_add]
    rcases List.mem_cons.mp ((b.ids_add a).mem_iff.mp hid) with rfl | hid
    · exact Nat.lt_succ_self _
    · exact Nat.lt_succ_of_lt (h.bounded id hid)
  names_nodup := by
    rw [(b.valueNames_add a).nodup_iff]
    exact List.nodup_cons.mpr
      ⟨fun hm => NameSupply.ne_choose (h.taken _ hm) a.hint rfl, h.names_nodup⟩
  taken := by
    intro name hname
    rw [names_add, NameSupply.isTaken_take, Bool.or_eq_true, beq_iff_eq]
    exact (List.mem_cons.mp ((b.valueNames_add a).mem_iff.mp hname)).imp_right (h.taken name)

/-! ## Runs -/

theorem addAll_cons (b : Builder) (a : Addition) (adds : List Addition) (next : Nat → Nat) :
    b.addAll (a :: adds) next =
      ((b.add a next).1 :: ((b.add a next).2.addAll adds next).1,
        ((b.add a next).2.addAll adds next).2) := rfl

/-- The identities that are returned are the next numbers, in order. -/
theorem ids_addAll (b : Builder) (adds : List Addition) :
    (b.addAll adds).1 = (List.range' b.nextIndex adds.length).map ValueId.mk := by
  induction adds generalizing b with
  | nil => rfl
  | cons a adds ih =>
    rw [addAll_cons, ih, fst_add, nextIndex_add, List.length_cons, List.range'_succ, List.map_cons]

/-- **A run** keeps a builder tidy, when it reads what is there. -/
theorem Tidy.addAll (h : b.Tidy) {known : List ValueId} (hk : ∀ id ∈ known, id ∈ b.ids)
    (hreads : b.ReadsKnown known adds) : (b.addAll adds).2.Tidy := by
  induction adds generalizing b known with
  | nil => exact h
  | cons a adds ih =>
    obtain ⟨ha, hrest⟩ := hreads
    have hk' : ∀ id ∈ known ++ [(b.add a).1], id ∈ (b.add a).2.ids := by
      intro id hid
      rw [(b.ids_add a).mem_iff, List.mem_cons]
      rcases List.mem_append.mp hid with hid | hid
      · exact .inr (hk id hid)
      · rw [List.mem_singleton.mp hid, fst_add]
        exact .inl rfl
    exact ih (h.add fun id hid => hk id (ha id hid)) hk' hrest

theorem prefix_addAll (b : Builder) (adds : List Addition) :
    b.params <+: (b.addAll adds).2.params ∧ b.bindings <+: (b.addAll adds).2.bindings := by
  induction adds generalizing b with
  | nil => exact ⟨List.prefix_rfl, List.prefix_rfl⟩
  | cons a adds ih =>
    obtain ⟨hp, hb⟩ := b.prefix_add a
    obtain ⟨hp', hb'⟩ := ih (b.add a).2
    exact ⟨hp.trans hp', hb.trans hb'⟩

/-- What is asked for is added under the identity that is returned. -/
theorem standsIn_add (b : Builder) (a : Addition) {f : Function}
    (hp : (b.add a).2.params <+: f.params) (hb : (b.add a).2.bindings <+: f.bindings) :
    a.StandsIn f (b.add a).1 := by
  cases a with
  | param hint ty =>
    refine ⟨b.names.choose hint, hp.subset ?_⟩
    exact List.mem_append_right _ (List.mem_singleton.mpr rfl)
  | binding hint expr ty =>
    refine ⟨b.names.choose hint, hb.subset ?_⟩
    exact List.mem_append_right _ (List.mem_singleton.mpr rfl)

theorem standsIn_addAll (b : Builder) (adds : List Addition) {f : Function}
    (hp : (b.addAll adds).2.params <+: f.params)
    (hb : (b.addAll adds).2.bindings <+: f.bindings) :
    List.Forall₂ (fun id a => a.StandsIn f id) (b.addAll adds).1 adds := by
  induction adds generalizing b with
  | nil => exact .nil
  | cons a adds ih =>
    obtain ⟨hp', hb'⟩ := (b.add a).2.prefix_addAll adds
    exact .cons (b.standsIn_add a (hp'.trans hp) (hb'.trans hb)) (ih (b.add a).2 hp hb)

/-! ## From the start to the finished function -/

/-- **`StartsFrom`** -- a builder with the parameters and bindings that it is seeded with: none,
or those of a verified function. -/
inductive StartsFrom :
    Builder → List Param → List Binding → (next : Nat → Nat := Nat.succ) → Prop
  | nothing (name : String) {next : Nat → Nat} : StartsFrom (.empty name) [] [] next
  | function (name : String) {f : Function} {next : Nat → Nat} : f.verify = .ok () →
    StartsFrom (.ofFunction name f next) f.params f.bindings next

variable {start : Builder} {params : List Param} {bindings : List Binding}

theorem StartsFrom.params_eq (h : start.StartsFrom params bindings) : start.params = params := by
  cases h with
  | nothing name => rfl
  | function name hf => exact params_ofFunction name _

theorem StartsFrom.bindings_eq (h : start.StartsFrom params bindings) :
    start.bindings = bindings := by
  cases h with
  | nothing name => rfl
  | function name hf => exact bindings_ofFunction name _

theorem StartsFrom.tidy (h : start.StartsFrom params bindings) : start.Tidy := by
  cases h with
  | nothing name => exact (sound_empty name).tidy
  | function name hf => exact (sound_ofFunction name (Function.verify_eq_ok_iff.mp hf)).tidy

theorem Tidy.exists_index (h : b.Tidy) (outputs : List ValueId) (ret : ReturnExpr) :
    ∃ ix, FunctionIndex.ofFunction (b.finish outputs ret) = .ok ix := by
  refine FunctionIndex.exists_ofFunction (List.nodup_append.mp h.ids_nodup).1 ?_
  rw [bindings_finish]
  exact h.sequenced

/-- A run whose identities are numbered without bound: those that are returned are the numbers
that follow the next one of the start, and what was seeded and what was asked for stand in the
finished function as they were. -/
theorem addAll_distinct (h : start.StartsFrom params bindings)
    (hreads : start.ReadsKnown (params.map Param.id ++ bindings.map Binding.id) adds)
    (outputs : List ValueId) (ret : ReturnExpr) :
    let ids := (start.addAll adds).1
    let f := (start.addAll adds).2.finish outputs ret
    ids.Pairwise (fun earlier later => earlier.index < later.index) ∧
      (∀ id ∈ ids, (∀ seed ∈ params.map Param.id ++ bindings.map Binding.id,
        seed.index < id.index) ∧ id.index < start.nextIndex + adds.length) ∧
      f.regions.length = 1 ∧
      (f.paramIds ++ f.bindings.map Binding.id).Nodup ∧
      f.valueNames.Nodup ∧
      params <+: f.params ∧ bindings <+: f.bindings ∧
      List.Forall₂ (fun id a => a.StandsIn f id) ids adds ∧
      ∃ ix, FunctionIndex.ofFunction f = .ok ix := by
  intro ids f
  have hseeded : start.ids = params.map Param.id ++ bindings.map Binding.id := by
    rw [Builder.ids, h.params_eq, h.bindings_eq]
  have htidy : (start.addAll adds).2.Tidy :=
    h.tidy.addAll (fun id hid => hseeded ▸ hid) hreads
  have hbindings : f.bindings = (start.addAll adds).2.bindings := bindings_finish _ outputs ret
  obtain ⟨hp, hb⟩ := start.prefix_addAll adds
  have hids : ids = (List.range' start.nextIndex adds.length).map ValueId.mk :=
    start.ids_addAll adds
  refine ⟨?_, ?_, rfl, ?_, ?_, ?_, ?_, ?_, htidy.exists_index outputs ret⟩
  · rw [hids, List.pairwise_map]
    exact List.pairwise_lt_range'
  · intro id hid
    rw [hids] at hid
    obtain ⟨n, hn, rfl⟩ := List.mem_map.mp hid
    obtain ⟨hle, hlt⟩ := List.mem_range'_1.mp hn
    refine ⟨fun seed hseed => ?_, hlt⟩
    exact Nat.lt_of_lt_of_le (h.tidy.bounded seed (hseeded ▸ hseed)) hle
  · rw [hbindings]
    exact htidy.ids_nodup
  · rw [Function.valueNames, hbindings]
    exact htidy.names_nodup
  · exact h.params_eq ▸ hp
  · rw [hbindings]
    exact h.bindings_eq ▸ hb
  · exact start.standsIn_addAll adds List.prefix_rfl (hbindings ▸ List.prefix_rfl)

/-! ## Identities in words -/

theorem nextWord_eq {n : Nat} (h : n + 1 < 2 ^ (32 : Nat)) : nextWord n = n + 1 :=
  Nat.mod_eq_of_lt h

/-- Where there is room for a run, its first addition is numbered as without bound, and it leaves
room for the others. -/
theorem add_words (h : b.nextIndex + (a :: adds).length < 2 ^ (32 : Nat)) :
    b.add a nextWord = b.add a ∧ (b.add a).2.nextIndex + adds.length < 2 ^ (32 : Nat) := by
  rw [List.length_cons] at h
  have hnext : b.nextIndex + 1 < 2 ^ (32 : Nat) := by omega
  constructor
  · cases a with
    | param hint ty => simp only [Builder.add, addParam, nextWord_eq hnext, Nat.succ_eq_add_one]
    | binding hint expr ty =>
      simp only [Builder.add, bind, nextWord_eq hnext, Nat.succ_eq_add_one]
  · rw [nextIndex_add]
    omega

/-- **A run** that ends below the last word is numbered in words as it is without bound. -/
theorem addAll_words (h : b.nextIndex + adds.length < 2 ^ (32 : Nat)) :
    b.addAll adds nextWord = b.addAll adds := by
  induction adds generalizing b with
  | nil => rfl
  | cons a adds ih =>
    obtain ⟨hadd, hrest⟩ := add_words h
    rw [addAll_cons, addAll_cons, hadd, ih hrest]

theorem readsKnown_words (h : b.nextIndex + adds.length < 2 ^ (32 : Nat)) {known : List ValueId} :
    b.ReadsKnown known adds nextWord ↔ b.ReadsKnown known adds := by
  induction adds generalizing b known with
  | nil => rfl
  | cons a adds ih =>
    obtain ⟨hadd, hrest⟩ := add_words h
    rw [Builder.ReadsKnown, Builder.ReadsKnown, hadd, ih hrest]

/-- Seeding keeps clear of every value below the last word as it does without bound. -/
theorem ofFunction_words (name : String) {f : Function}
    (hp : ∀ p ∈ f.params, p.id.index + 1 < 2 ^ (32 : Nat))
    (hb : ∀ x ∈ f.bindings, x.id.index + 1 < 2 ^ (32 : Nat)) :
    ofFunction name f nextWord = ofFunction name f := by
  have hparam : ∀ (b : Builder), ∀ p ∈ f.params, b.seedParam p nextWord = b.seedParam p := by
    intro b p hm
    simp only [seedParam, track, nextWord_eq (hp p hm), Nat.succ_eq_add_one]
  have hbinding : ∀ (b : Builder), ∀ x ∈ f.bindings,
      b.seedBinding x nextWord = b.seedBinding x := by
    intro b x hm
    simp only [seedBinding, track, nextWord_eq (hb x hm), Nat.succ_eq_add_one]
  rw [ofFunction, ofFunction, List.foldl_ext _ _ _ hparam, List.foldl_ext _ _ _ hbinding]

/-- The next identity is below any bound that all identities it was seeded with are below. -/
theorem nextIndex_foldl_le {β : Type} (key : β → ValueId) (seed : Builder → β → Builder)
    (hseed : ∀ b x, (seed b x).nextIndex = max b.nextIndex ((key x).index + 1)) {m : Nat}
    {xs : List β} (h : ∀ x ∈ xs, (key x).index + 1 ≤ m) (hb : b.nextIndex ≤ m) :
    (xs.foldl seed b).nextIndex ≤ m := by
  induction xs generalizing b with
  | nil => exact hb
  | cons x xs ih =>
    rw [List.forall_mem_cons] at h
    refine ih h.2 ?_
    rw [hseed]
    exact Nat.max_le.mpr ⟨hb, h.1⟩

/-- A start in words, below the last one, is a start without bound. -/
theorem StartsFrom.of_words (h : start.StartsFrom params bindings nextWord)
    (hp : ∀ p ∈ params, p.id.index + 1 < 2 ^ (32 : Nat))
    (hb : ∀ x ∈ bindings, x.id.index + 1 < 2 ^ (32 : Nat)) : start.StartsFrom params bindings := by
  cases h with
  | nothing name => exact .nothing name
  | function name hf =>
    rw [ofFunction_words name hp hb]
    exact .function name hf

theorem StartsFrom.nextIndex_le (h : start.StartsFrom params bindings) {m : Nat}
    (hp : ∀ p ∈ params, p.id.index + 1 ≤ m) (hb : ∀ x ∈ bindings, x.id.index + 1 ≤ m) :
    start.nextIndex ≤ m := by
  cases h with
  | nothing name => exact Nat.zero_le m
  | function name hf =>
    refine nextIndex_foldl_le Binding.id _ (fun _ _ => rfl) hb ?_
    exact nextIndex_foldl_le Param.id _ (fun _ _ => rfl) hp (Nat.zero_le m)

/-- **Any run of a builder that has room keeps single assignment and distinct names.** Start from
nothing or from a verified function, and add parameters and bindings in any order, under any
hints, where each expression reads only values that were seeded or returned before. Identities are
words of 32 bits, and there is room when no word is reached by counting on, from any identity
that was seeded or from 0, as often as something is added. Then every identity returned is larger
than those seeded and those returned earlier, and it is not the last word, so that a build that
checks its arithmetic does not stop. The finished function has one region; its identities are
distinct, and so are its names; the seeded parameters and bindings come first, as they were; what
was asked for stands under the identity that was returned for it; and the function has an
index. -/
theorem addAll_singleAssignment (h : start.StartsFrom params bindings nextWord)
    (hroom : ∀ seed ∈ params.map Param.id ++ bindings.map Binding.id,
      seed.index + 1 + adds.length < 2 ^ (32 : Nat))
    (hcount : adds.length < 2 ^ (32 : Nat))
    (hreads : start.ReadsKnown (params.map Param.id ++ bindings.map Binding.id) adds nextWord)
    (outputs : List ValueId) (ret : ReturnExpr) :
    let ids := (start.addAll adds nextWord).1
    let f := (start.addAll adds nextWord).2.finish outputs ret
    ids.Pairwise (fun earlier later => earlier.index < later.index) ∧
      (∀ id ∈ ids, (∀ seed ∈ params.map Param.id ++ bindings.map Binding.id,
        seed.index < id.index) ∧ id.index + 1 < 2 ^ (32 : Nat)) ∧
      f.regions.length = 1 ∧
      (f.paramIds ++ f.bindings.map Binding.id).Nodup ∧
      f.valueNames.Nodup ∧
      params <+: f.params ∧ bindings <+: f.bindings ∧
      List.Forall₂ (fun id a => a.StandsIn f id) ids adds ∧
      ∃ ix, FunctionIndex.ofFunction f = .ok ix := by
  intro ids f
  have hp : ∀ p ∈ params, p.id.index + 1 + adds.length < 2 ^ (32 : Nat) := fun p hm =>
    hroom p.id (List.mem_append_left _ (List.mem_map_of_mem hm))
  have hb : ∀ x ∈ bindings, x.id.index + 1 + adds.length < 2 ^ (32 : Nat) := fun x hm =>
    hroom x.id (List.mem_append_right _ (List.mem_map_of_mem hm))
  have hstart : start.StartsFrom params bindings :=
    h.of_words (fun p hm => by have := hp p hm; omega) (fun x hm => by have := hb x hm; omega)
  -- the room behind every seed is room behind the next identity
  have hnext : start.nextIndex + adds.length < 2 ^ (32 : Nat) := by
    have hle : start.nextIndex ≤ 2 ^ (32 : Nat) - 1 - adds.length :=
      hstart.nextIndex_le (fun p hm => by have := hp p hm; omega)
        (fun x hm => by have := hb x hm; omega)
    omega
  have hwords : start.addAll adds nextWord = start.addAll adds := addAll_words hnext
  rw [readsKnown_words hnext] at hreads
  obtain ⟨horder, habove, hrest⟩ := addAll_distinct hstart hreads outputs ret
  rw [← hwords] at horder habove hrest
  refine ⟨horder, fun id hid => ?_, hrest⟩
  obtain ⟨hseeds, hlt⟩ := habove id hid
  exact ⟨hseeds, by omega⟩

/-- Hints that collide with names of the function and with one another, a parameter that comes
late, and a sum that has no type. -/
def lateAdditions : List Addition :=
  [.binding "q" (.alias (.value ⟨9⟩)) (.tuple []), .param "q1" (.tensor (.scalar .f32)),
    .binding "x" (.call .add [.value ⟨13⟩, .value ⟨12⟩]) (.tensor (.scalar .f32))]

theorem addAll_lateAdditions :
    let start := ofFunction "longer" Function.crossedReads nextWord
    let f := (start.addAll lateAdditions nextWord).2.finish [⟨14⟩] (.value ⟨14⟩)
    start.ReadsKnown [⟨7⟩, ⟨2⟩, ⟨9⟩, ⟨4⟩, ⟨11⟩] lateAdditions nextWord ∧
      (f.paramIds ++ f.bindings.map Binding.id).Nodup ∧
      f.valueNames = ["x", "y", "q11", "p", "q", "r", "q1", "x1"] ∧ f.valueNames.Nodup ∧
      ∃ ix, FunctionIndex.ofFunction f = .ok ix := by
  intro start f
  have hverify : Function.crossedReads.verify = .ok () := by decide
  have hreads : start.ReadsKnown [⟨7⟩, ⟨2⟩, ⟨9⟩, ⟨4⟩, ⟨11⟩] lateAdditions nextWord := by
    refine ⟨?_, ?_, ?_, trivial⟩
    · rintro id ⟨_, _, _ | _ | _ | hr⟩
      cases hr
      decide
    · rintro id ⟨⟩
    · rintro id ⟨_, _, ⟨_, hx, hr⟩⟩
      rcases List.mem_pair.mp hx with rfl | rfl <;> cases hr <;> decide
  obtain ⟨-, -, -, hids, hnames, -, -, -, hix⟩ := addAll_singleAssignment
    (.function "longer" hverify) (by decide) (by decide) hreads [⟨14⟩] (.value ⟨14⟩)
  exact ⟨hreads, hids, by decide, hnames, hix⟩

/-- Two parameters with the last words for identities. -/
def lastWords : Function where
  name := "last_words"
  params := [⟨⟨4294967295⟩, "x", .tensor (.scalar .f32)⟩,
    ⟨⟨4294967294⟩, "y", .tensor (.scalar .f32)⟩]
  regions := [⟨[], [⟨4294967295⟩]⟩]
  ret := .value ⟨4294967295⟩

/-- **Without room an identity is given out twice**, though there are three in all: the last word
is followed by 0, the one before it by the last. -/
theorem addAll_lastWords :
    let start := ofFunction "longer" lastWords nextWord
    let adds : List Addition :=
      [.binding "z" (.alias (.value ⟨4294967294⟩)) (.tensor (.scalar .f32))]
    let f := (start.addAll adds nextWord).2.finish [⟨4294967295⟩] (.value ⟨4294967295⟩)
    lastWords.verify = .ok () ∧
      start.ReadsKnown [⟨4294967295⟩, ⟨4294967294⟩] adds nextWord ∧
      (start.addAll adds nextWord).1 = [⟨4294967295⟩] ∧
      ¬(f.paramIds ++ f.bindings.map Binding.id).Nodup ∧
      ∀ ix, FunctionIndex.ofFunction f ≠ .ok ix := by
  intro start adds f
  have hreads : start.ReadsKnown [⟨4294967295⟩, ⟨4294967294⟩] adds nextWord := by
    refine ⟨?_, trivial⟩
    rintro id ⟨_, _, _ | _ | _ | hr⟩
    cases hr
    decide
  refine ⟨by decide, hreads, by decide, by decide, ?_⟩
  intro ix h
  cases h

end Builder

end TensorGraph
