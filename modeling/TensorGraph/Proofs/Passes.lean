/-
# TensorGraph.Proofs.Passes -- what a sequence of passes leaves behind

A pass that succeeds puts one verified function into the module (`Pass.Adds`), either where a
function of its name stood or behind all others (`Module.Updates`). A sequence of passes is a
chain of such steps up to the first pass that fails, and the failing pass changes nothing; the
module is verified after each step, so a later pass may read what an earlier one wrote, also in
the place of what that one read (`Pass.runAll_verified`).
-/
import Mathlib.Algebra.BigOperators.Group.List.Basic
import TensorGraph.Proofs.Composition
import TensorGraph.Proofs.Conservation
import TensorGraph.Transform.Pass

namespace TensorGraph

namespace Module

variable {m : Module} {g : Function}

/-- **`Updates`** -- a module that differs from another in one function: it stands in the place of
a function of its name, or behind all others if there was none. -/
inductive Updates (m : Module) (g : Function) : Module → Prop where
  | replaced {before after : List Function} {old : Function}
      (functions : m.functions = before ++ old :: after) (name : old.name = g.name) :
      Updates m g ⟨m.version, before ++ g :: after⟩
  | appended (name : g.name ∉ m.names) : Updates m g ⟨m.version, m.functions ++ [g]⟩

theorem place_of_mem {fs : List Function} (h : g.name ∈ fs.map Function.name) :
    ∃ before old after, fs = before ++ old :: after ∧ old.name = g.name ∧
      place g fs = before ++ g :: after := by
  induction fs with
  | nil => exact absurd h List.not_mem_nil
  | cons f rest ih =>
    rw [place]
    by_cases hf : f.name = g.name
    · rw [if_pos hf]
      exact ⟨[], f, rest, rfl, hf, rfl⟩
    · rw [List.map_cons, List.mem_cons] at h
      obtain ⟨before, old, after, rfl, hname, hplace⟩ := ih (h.resolve_left fun he => hf he.symm)
      rw [if_neg hf, hplace]
      exact ⟨f :: before, old, after, rfl, hname, rfl⟩

theorem place_of_notMem {fs : List Function} (h : g.name ∉ fs.map Function.name) :
    place g fs = fs ++ [g] := by
  induction fs with
  | nil => rfl
  | cons f rest ih =>
    rw [List.map_cons, List.mem_cons, not_or] at h
    rw [place, if_neg fun he => h.1 he.symm, ih h.2, List.cons_append]

/-- **Insertion** updates one function. -/
theorem updates_insert (m : Module) (g : Function) : m.Updates g (m.insert g) := by
  rw [insert]
  by_cases h : g.name ∈ m.names
  · obtain ⟨before, old, after, hfs, hname, hplace⟩ := place_of_mem h
    rw [hplace]
    exact .replaced hfs hname
  · rw [place_of_notMem h]
    exact .appended h

theorem mem_functions_insert {f : Function} (h : f ∈ (m.insert g).functions) :
    f = g ∨ f ∈ m.functions := by
  generalize hm : m.insert g = m' at h
  have hupdates := hm ▸ updates_insert m g
  cases hupdates with
  | replaced hfs _ =>
    rw [hfs]
    rcases List.mem_append.mp h with hb | ha
    · exact .inr (List.mem_append_left _ hb)
    · rcases List.mem_cons.mp ha with rfl | ha
      · exact .inl rfl
      · exact .inr (List.mem_append_right _ (List.mem_cons_of_mem _ ha))
  | appended _ =>
    rcases List.mem_append.mp h with hm | hg
    · exact .inr hm
    · exact .inl (List.mem_singleton.mp hg)

theorem name_of_get? {name : String} {f : Function} (h : m.get? name = some f) :
    f.name = name := by
  have hname := List.find?_some h
  exact beq_iff_eq.mp hname

theorem contains_eq_true_iff {name : String} : m.contains name = true ↔ name ∈ m.names := by
  rw [contains, get?, List.find?_isSome, names, List.mem_map]
  exact exists_congr fun f => and_congr_right fun _ => beq_iff_eq

/-- A module grows by the functions that replace no other. -/
theorem size_insert (m : Module) (g : Function) :
    (m.insert g).size = m.size + if m.contains g.name then 0 else 1 := by
  have hsize : ∀ m : Module, m.size = m.names.length := fun m => (List.length_map _).symm
  rw [hsize, hsize, names_insert]
  by_cases h : g.name ∈ m.names
  · rw [if_pos h, if_pos (contains_eq_true_iff.mpr h), Nat.add_zero]
  · rw [if_neg h, if_neg fun hc => h (contains_eq_true_iff.mp hc), List.length_append,
      List.length_singleton]

/-- **A verified function** may be inserted into a verified module. -/
theorem verify_insert (hm : m.verify = .ok ()) (hg : g.verify = .ok ()) :
    (m.insert g).verify = .ok () := by
  obtain ⟨hnames, hfs⟩ := verify_eq_ok_iff.mp hm
  refine verify_eq_ok_iff.mpr ⟨?_, fun f hf => ?_⟩
  · rw [names_insert]
    split
    · exact hnames
    · next hnew => exact hnames.append (List.nodup_singleton _) (List.disjoint_singleton.mpr hnew)
  · rcases mem_functions_insert hf with rfl | hf
    · exact hg
    · exact hfs f hf

end Module

/-! ## One pass -/

/-- **A gradient that was made** is verified, has the name of its function with the suffix, and
has the bindings of its function. -/
theorem Function.outcome_of_differentiate {f g : Function} {config : GradientConfig}
    {request : Option (List ValueId)}
    (h : f.differentiate .builtinOnly config request = .ok g) :
    g.verify = .ok () ∧ g.name = f.name ++ config.suffix ∧
      f.bindings.length ≤ g.bindings.length := by
  obtain ⟨c, target, spec, s, hsuffix, ⟨grads, later, hyields, rfl⟩, _⟩ :=
    exists_of_differentiate h
  have hret : c.function.ret = .value target := hyields.function ▸ hyields.ret
  refine ⟨?_, ?_, ?_⟩
  · have hverify := hyields.swept.fits.verify_gradient hyields.grounded hret hyields.advances
      hyields.holds
    rwa [hyields.function] at hverify
  · show later.name = _
    rw [hyields.advances_start.grows.name, SweepContext.start, Builder.name_ofFunction,
      SweepContext.adjointName, hyields.function, hsuffix.1]
  · obtain ⟨new, _, hbindings, _⟩ := hyields.exists_new
    rw [gradient, Builder.bindings_finish, hbindings, List.length_append]
    exact Nat.le_add_right _ _

namespace Pass

/-- The function that a pass reads. -/
def source : Pass → String
  | gradient function _ _ => function
  | appendLoss backbone _ _ _ => backbone

/-- The name of the function that a pass adds. -/
def target : Pass → String
  | gradient function _ config => function ++ config.suffix
  | appendLoss backbone _ _ newName => newName.getD (defaultLossName backbone)

variable {p : Pass} {m m' : Module} {f g : Function} {stats : PassStats} {emitted : Nat}

/-- **What a pass adds** is verified, has the name the pass gives it, and has the bindings that
are counted beyond those of the function that the pass reads. -/
theorem output_spec (h : p.output .builtinOnly m = .ok (g, emitted)) :
    ∃ f, m.get? p.source = some f ∧ g.name = p.target ∧ g.verify = .ok () ∧
      g.bindings.length = f.bindings.length + emitted := by
  cases p with
  | gradient name request config =>
    rw [output] at h
    cases hf : m.get? name with
    | none =>
      rw [hf] at h
      cases h
    | some f =>
      rw [hf] at h
      obtain ⟨ids, _, h⟩ := bind_eq_ok_iff.mp h
      obtain ⟨g', hg, h⟩ := bind_eq_ok_iff.mp h
      cases h
      obtain ⟨hverify, hname, hlen⟩ := Function.outcome_of_differentiate hg
      refine ⟨f, hf, ?_, hverify, (Nat.add_sub_cancel' hlen).symm⟩
      rw [hname, Module.name_of_get? hf]
      rfl
  | appendLoss backboneName loss outputs newName =>
    obtain ⟨g', hg, h⟩ := bind_eq_ok_iff.mp h
    cases h
    obtain ⟨backbone, values, target, hget, _, hverify, rfl⟩ :=
      Composition.spec_of_appendLoss hg
    refine ⟨backbone, hget, ?_, hverify, ?_⟩
    · exact Composition.name_spliceLoss _ _ _ _ _ _
    · exact Composition.length_bindings_spliceLoss _ _ _ _ _ _

/-- **`Adds`** -- a pass that succeeds: it reads a function, and puts another under its own name
into the module. -/
structure Adds (p : Pass) (m : Module) (stats : PassStats) (f g : Function) (m' : Module) :
    Prop where
  /-- The pass runs. -/
  run : p.run .builtinOnly m = .ok (stats, m')
  /-- It reads a function of the module. -/
  source : m.get? p.source = some f
  /-- What it adds has the name it gives. -/
  name : g.name = p.target
  /-- Nothing else changes. -/
  updates : m.Updates g m'
  /-- It counts what it adds. -/
  added : m'.size = m.size + stats.functionsAdded
  /-- It counts the bindings beyond those it read. -/
  emitted : g.bindings.length = f.bindings.length + stats.bindingsEmitted

/-- **A pass that succeeds** adds a function, and the module stays verified. -/
theorem exists_adds (hm : m.verify = .ok ()) (h : p.run .builtinOnly m = .ok (stats, m')) :
    ∃ f g, p.Adds m stats f g m' ∧ m'.verify = .ok () := by
  obtain ⟨⟨g, emitted⟩, houtput, hrun⟩ := bind_eq_ok_iff.mp h
  obtain ⟨f, hsource, hname, hverify, hlen⟩ := output_spec houtput
  cases hrun
  exact ⟨f, g, ⟨h, hsource, hname, m.updates_insert g, m.size_insert g, hlen⟩,
    Module.verify_insert hm hverify⟩

end Pass

/-! ## Sequences of passes -/

namespace PassStats

theorem none_merge (a : PassStats) : none.merge a = a := by
  simp [merge, none]

theorem merge_none (a : PassStats) : a.merge none = a := by
  simp [merge, none]

theorem merge_assoc (a b c : PassStats) : (a.merge b).merge c = a.merge (b.merge c) := by
  simp [merge, Bool.or_assoc, Nat.add_assoc]

end PassStats

namespace Pass

/-- **`Built`** -- the function that a pass read, and the one that it added. -/
structure Built where
  /-- What was read, as it was then. -/
  source : Function
  /-- What was added. -/
  result : Function

/-- The bindings of what was added beyond those of what was read. -/
def Built.gain (b : Built) : ℤ := b.result.bindings.length - b.source.bindings.length

/-- **`Chain`** -- passes that succeed one after the other, with what they did together and, for
each, the function that it read and the one that it added. -/
inductive Chain : Module → List Pass → PassStats → List Built → Module → Prop where
  | nil (m : Module) : Chain m [] .none [] m
  | cons {p : Pass} {m mid m' : Module} {stats total : PassStats} {f g : Function}
      {passes : List Pass} {built : List Built}
      (adds : p.Adds m stats f g mid) (rest : Chain mid passes total built m') :
      Chain m (p :: passes) (stats.merge total) (⟨f, g⟩ :: built) m'

variable {m m' : Module} {passes : List Pass} {total : PassStats}
  {built : List Built}

/-- The module grows by the functions that are counted. -/
theorem Chain.size_eq (h : Chain m passes total built m') :
    m'.size = m.size + total.functionsAdded := by
  induction h with
  | nil => rfl
  | cons adds _ ih => rw [ih, adds.added, Nat.add_assoc, PassStats.merge]

/-- The bindings that are counted are those of new functions beyond those of their sources. -/
theorem Chain.emitted_eq (h : Chain m passes total built m') :
    (total.bindingsEmitted : ℤ) = (built.map Built.gain).sum := by
  induction h with
  | nil => rfl
  | cons adds _ ih =>
    rw [PassStats.merge, List.map_cons, List.sum_cons, ← ih, Built.gain, adds.emitted]
    push_cast
    omega

/-- **Passes run in a chain** up to the first that fails. -/
theorem exists_chain (hm : m.verify = .ok ()) (before : PassStats) (passes : List Pass) :
    ∃ done rest stats built m', passes = done ++ rest ∧ Chain m done stats built m' ∧
      m'.verify = .ok () ∧
      ((rest = [] ∧ runFrom .builtinOnly before m passes = (.ok (before.merge stats), m')) ∨
        ∃ p later e, rest = p :: later ∧ p.run .builtinOnly m' = .error e ∧
          runFrom .builtinOnly before m passes = (.error e, m')) := by
  induction passes generalizing before m with
  | nil =>
    refine ⟨[], [], .none, [], m, rfl, .nil m, hm, .inl ⟨rfl, ?_⟩⟩
    rw [PassStats.merge_none]
    rfl
  | cons p passes ih =>
    rw [runFrom]
    cases hp : p.run .builtinOnly m with
    | error e =>
      exact ⟨[], p :: passes, .none, [], m, rfl, .nil m, hm, .inr ⟨p, passes, e, rfl, hp, rfl⟩⟩
    | ok result =>
      obtain ⟨stats, mid⟩ := result
      obtain ⟨f, g, hadds, hmid⟩ := exists_adds hm hp
      obtain ⟨done, rest, total, built, m', rfl, hchain, hm', hend⟩ := ih hmid (before.merge stats)
      rw [PassStats.merge_assoc] at hend
      exact ⟨p :: done, rest, stats.merge total, ⟨f, g⟩ :: built, m', rfl, .cons hadds hchain, hm',
        hend⟩

/-- **Passes are atomic and keep a module verified.** A sequence of passes over a verified module
leaves what the passes before the first failing one make of it. Each of these succeeds and updates
one function, under the name of the pass; the module that is left is verified. It has grown by the
functions that were counted, and the bindings that were counted are those of the new functions
beyond those of the functions that were read. -/
theorem runAll_verified {m : Module} (h : m.verify = .ok ()) (passes : List Pass) :
    ∃ done rest stats built m', passes = done ++ rest ∧ Chain m done stats built m' ∧
      m'.verify = .ok () ∧ m'.size = m.size + stats.functionsAdded ∧
      (stats.bindingsEmitted : ℤ) = (built.map Built.gain).sum ∧
      ((rest = [] ∧ runAll .builtinOnly passes m = (.ok stats, m')) ∨
        ∃ p later e, rest = p :: later ∧ p.run .builtinOnly m' = .error e ∧
          runAll .builtinOnly passes m = (.error e, m')) := by
  obtain ⟨done, rest, stats, built, m', hpasses, hchain, hm', hend⟩ :=
    exists_chain h .none passes
  rw [PassStats.none_merge] at hend
  exact ⟨done, rest, stats, built, m', hpasses, hchain, hm', hchain.size_eq, hchain.emitted_eq,
    hend⟩

/-- A loss behind a backbone whose values it takes, its gradient twice, the backbone in its own
place, and a gradient of what is now there. -/
def rebuilding : List Pass :=
  [.appendLoss "doubling" Module.offset 2 none,
    .gradient "doubling_loss" none .standard,
    .gradient "doubling_loss" (some ["x"]) .standard,
    .appendLoss "doubling" Module.offset 1 (some "doubling"),
    .gradient "doubling" none .standard]

theorem runAll_rebuilding :
    ∃ done rest stats built m', rebuilding = done ++ rest ∧
      Chain ⟨currentVersion, [Module.doubling]⟩ done stats built m' ∧ m'.verify = .ok () ∧
      ∃ e, runAll .builtinOnly rebuilding ⟨currentVersion, [Module.doubling]⟩ = (.error e, m') := by
  obtain ⟨done, rest, stats, built, m', hpasses, hchain, hm', _, _, hend⟩ :=
    runAll_verified (m := ⟨currentVersion, [Module.doubling]⟩) (by decide +kernel) rebuilding
  refine ⟨done, rest, stats, built, m', hpasses, hchain, hm', ?_⟩
  rcases hend with ⟨_, hok⟩ | ⟨p, later, e, _, _, herror⟩
  · have hfails : (runAll .builtinOnly rebuilding ⟨currentVersion, [Module.doubling]⟩).1.isOk
        = false := by decide +kernel
    rw [hok] at hfails
    cases hfails
  · exact ⟨e, herror⟩

end Pass

end TensorGraph
