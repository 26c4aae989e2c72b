/-
# TensorGraph.Proofs.Economy -- gradients are cheap

The sweep keeps books. An adjoint costs the bindings that hold it in operands
(`Adjoint.cost`), and while it is pending it weighs one more for each tensor that is not a known
zero, which pays for adding it to another (`Adjoint.weight`). Sums and the routing through tuples
neither create nor copy what is weighed, settling pays for the bindings it makes, and what the
rule of a call contributes weighs at most five for each operand, because a rule is given leaves
and copies nothing else (`GradientRule.frugal_of_find?`). So the bindings that were made together
with the weight of what is pending grow in a visit by five for each operand of a call
(`SweepContext.Fits.ledger_visit_le`), and a gradient is longer than its function by an amount
that is linear in the function and in the types of the requested parameters
(`Function.differentiate_economy`).
-/
import Mathlib.Algebra.Order.BigOperators.Group.List
import Mathlib.Algebra.Order.Ring.Nat
import TensorGraph.Proofs.Swept

namespace TensorGraph

/-! ## What adjoints cost -/

mutual

/-- **`ValueType.leaves`** -- how many tensors a type has. -/
def ValueType.leaves : ValueType → Nat
  | .tensor _ => 1
  | .tuple elements => ValueType.leavesAll elements

/-- How many tensors several types have. -/
def ValueType.leavesAll : List ValueType → Nat
  | [] => 0
  | ty :: rest => ty.leaves + ValueType.leavesAll rest

end

namespace Adjoint

mutual

/-- **`cost`** -- how many bindings hold an adjoint in operands: one for each operator and each
known zero. -/
def cost : Adjoint → Nat
  | leaf _ _ => 0
  | zeros _ => 1
  | call _ args _ => costs args + 1
  | tuple components => costs components

/-- How many bindings hold several adjoints. -/
def costs : List Adjoint → Nat
  | [] => 0
  | a :: rest => cost a + costs rest

end

mutual

/-- **`weight`** -- what is set aside for a pending adjoint: nothing for a known zero, and for
any other tensor its cost and one more. -/
def weight : Adjoint → Nat
  | leaf _ _ => 1
  | zeros _ => 0
  | call _ args _ => costs args + 2
  | tuple components => weights components

/-- What is set aside for several adjoints. -/
def weights : List Adjoint → Nat
  | [] => 0
  | a :: rest => weight a + weights rest

end

theorem weight_le_of_spec? {a : Adjoint} {spec : TensorSpec} (h : a.spec? = some spec) :
    a.weight ≤ a.cost + 1 := by
  cases a with
  | leaf x s => exact Nat.le_refl 1
  | call op args s => exact Nat.le_refl _
  | zeros s => exact Nat.zero_le 2
  | tuple components => cases h

theorem weight_eq_of_spec? {a : Adjoint} {spec : TensorSpec} (h : a.spec? = some spec)
    (hz : ∀ s, a ≠ zeros s) : a.weight = a.cost + 1 := by
  cases a with
  | leaf x s => rfl
  | call op args s => rfl
  | zeros s => exact absurd rfl (hz s)
  | tuple components => cases h

mutual

/-- **The cost of an adjoint** is covered by its weight and one for each tensor of its type. -/
theorem cost_le (a : Adjoint) : a.cost ≤ a.weight + a.type.leaves := by
  cases a with
  | leaf x spec => exact Nat.zero_le 2
  | zeros spec => exact Nat.le_refl 1
  | call op args spec =>
    show costs args + 1 ≤ costs args + 2 + 1
    omega
  | tuple components => exact costs_le components

theorem costs_le (as : List Adjoint) :
    costs as ≤ weights as + ValueType.leavesAll (types as) := by
  cases as with
  | nil => exact Nat.le_refl 0
  | cons a rest =>
    have ha := cost_le a
    have hrest := costs_le rest
    simp only [costs, weights, types, ValueType.leavesAll]
    omega

end

mutual

theorem weight_zerosOf (ty : ValueType) : (zerosOf ty).weight = 0 := by
  cases ty with
  | tensor spec => rfl
  | tuple elements => exact weights_zerosOfAll elements

theorem weights_zerosOfAll (tys : List ValueType) : weights (zerosOfAll tys) = 0 := by
  cases tys with
  | nil => rfl
  | cons ty rest => rw [zerosOfAll, weights, weight_zerosOf, weights_zerosOfAll]

end

/-! ## What building adjoints costs -/

theorem cost_of_apply {op : Operation} {args : List Adjoint} {a : Adjoint}
    (h : apply op args = .ok a) : a.cost = costs args + 1 := by
  obtain ⟨spec, specs, rfl, _⟩ := exists_of_apply h
  rfl

/-- Adjoints with types of tensors have specs. -/
theorem exists_spec_of_types {as : List Adjoint} {specs : List TensorSpec}
    (h : types as = specs.map .tensor) : ∀ a ∈ as, ∃ spec, a.spec? = some spec := by
  intro a ha
  have htype : a.type ∈ types as := by
    rw [types_eq_map]
    exact List.mem_map_of_mem ha
  obtain ⟨spec, _, hspec⟩ := List.mem_map.mp (h ▸ htype)
  exact ⟨spec, spec?_of_type hspec.symm⟩

mutual

/-- **A sum** weighs no more than what is added. -/
theorem weight_add_le (a b : Adjoint) {c : Adjoint} (h : a.add b = .ok c) :
    c.weight ≤ a.weight + b.weight := by
  obtain ⟨spec, rfl, rfl⟩ | ⟨spec, rfl, rfl⟩ | ⟨as, bs, cs, rfl, rfl, hcs, rfl⟩ |
    ⟨ha, hb, happly⟩ := add_forms h
  · exact Nat.le_add_left _ _
  · exact Nat.le_add_right _ _
  · exact weights_addAll_le as bs hcs
  · -- the operator is applied to tensors, each of which pays one for its addition
    obtain ⟨spec, specs, rfl, hspecs, _⟩ := exists_of_apply happly
    obtain ⟨sa, hsa⟩ := exists_spec_of_types hspecs a (List.mem_pair.mpr (.inl rfl))
    obtain ⟨sb, hsb⟩ := exists_spec_of_types hspecs b (List.mem_pair.mpr (.inr rfl))
    rw [weight_eq_of_spec? hsa ha, weight_eq_of_spec? hsb hb]
    simp only [weight, costs]
    omega

theorem weights_addAll_le (as bs : List Adjoint) {cs : List Adjoint} (h : addAll as bs = .ok cs) :
    weights cs ≤ weights as + weights bs := by
  cases as with
  | nil =>
    cases h
    exact Nat.zero_le _
  | cons a as =>
    cases bs with
    | nil =>
      cases h
      exact Nat.zero_le _
    | cons b bs =>
      rw [addAll] at h
      obtain ⟨c, hc, h⟩ := bind_eq_ok_iff.mp h
      obtain ⟨cs', hcs, h⟩ := bind_eq_ok_iff.mp h
      cases h
      have hhead := weight_add_le a b hc
      have hrest := weights_addAll_le as bs hcs
      simp only [weights]
      omega

end

theorem weights_set {as : List Adjoint} {index : Nat} {a : Adjoint} (h : as[index]? = some a)
    (b : Adjoint) : weights (as.set index b) + a.weight = weights as + b.weight := by
  induction as generalizing index with
  | nil => simp at h
  | cons x as ih =>
    cases index with
    | zero =>
      cases h
      simp only [List.set_cons_zero, weights]
      omega
    | succ index =>
      have hrest := ih h
      simp only [List.set_cons_succ, weights]
      omega

theorem weight_addAt_le {a b c : Adjoint} {index : Nat} (h : a.addAt index b = .ok c) :
    c.weight ≤ a.weight + b.weight := by
  obtain ⟨as, current, sum, rfl, hcurrent, hsum, rfl⟩ := addAt_eq_ok_iff.mp h
  have hadd := weight_add_le current b hsum
  have hset := weights_set hcurrent sum
  simp only [weight]
  omega

end Adjoint

/-! ## Rules copy leaves only -/

namespace GradientRule

/-- **`Frugal`** -- applied to leaves, a rule gives partials of at most three operators. -/
def Frugal (rule : GradientRule) : Prop :=
  ∀ site adjoint ps, rule site adjoint = .ok ps → adjoint.cost = 0 → site.result.cost = 0 →
    (∀ x ∈ site.args, x.cost = 0) → ∀ p, some p ∈ ps → p.cost ≤ 3

/-- **What is built of leaves** costs one binding for each operator. -/
theorem cost_of_built {site : CallSite} {adjoint p : Adjoint} {n : Nat}
    (h : site.Built adjoint n p) (ha : adjoint.cost = 0) (hresult : site.result.cost = 0)
    (hargs : ∀ x ∈ site.args, x.cost = 0) : p.cost = n := by
  induction h with
  | adjoint => exact ha
  | result => exact hresult
  | operand hx => exact hargs _ hx
  | one happly _ _ ih =>
    have hcost := Adjoint.cost_of_apply happly
    simp only [Adjoint.costs] at hcost
    omega
  | two happly _ _ _ ihx ihy =>
    have hcost := Adjoint.cost_of_apply happly
    simp only [Adjoint.costs] at hcost
    omega

/-- **Every built-in rule** is frugal, whatever call it is applied to. -/
theorem frugal_of_find? {name : String} {rule : GradientRule}
    (h : RuleTable.builtinOnly.find? name = some rule) : Frugal rule := by
  intro site adjoint ps hps ha hresult hargs p hp
  obtain ⟨n, hn, hbuilt⟩ := builds_of_find? h site adjoint ps hps p hp
  exact (cost_of_built hbuilt ha hresult hargs).trans_le hn

end GradientRule

/-! ## What emission makes -/

namespace Emit

variable {temp hint : String} {b later : Builder}

theorem length_of_bind {e : Expr} {ty : ValueType} {id : ValueId}
    (h : (bind hint e ty).run b = some (id, later)) :
    later.bindings.length = b.bindings.length + 1 := by
  cases h
  exact List.length_append

mutual

/-- **Emitting an operand** makes as many bindings as the adjoint costs. -/
theorem length_of_operand (a : Adjoint) {b later : Builder} {x : Operand}
    (h : (operand temp a).run b = some (x, later)) :
    later.bindings.length = b.bindings.length + a.cost := by
  cases a with
  | leaf y spec =>
    cases h
    rfl
  | zeros spec =>
    rw [operand] at h
    obtain ⟨id, hbind, rfl⟩ := run_map_eq_some_iff.mp h
    exact length_of_bind hbind
  | call op args spec =>
    rw [operand] at h
    obtain ⟨xs, mid, hargs, h⟩ := run_bind_eq_some_iff.mp h
    obtain ⟨id, hbind, rfl⟩ := run_map_eq_some_iff.mp h
    have hmid := length_of_operands args hargs
    have hlater := length_of_bind hbind
    rw [Adjoint.cost]
    omega
  | tuple components => cases h

theorem length_of_operands (as : List Adjoint) {b later : Builder} {xs : List Operand}
    (h : (operands temp as).run b = some (xs, later)) :
    later.bindings.length = b.bindings.length + Adjoint.costs as := by
  cases as with
  | nil =>
    cases h
    rfl
  | cons a rest =>
    rw [operands] at h
    obtain ⟨x, mid, ha, h⟩ := run_bind_eq_some_iff.mp h
    obtain ⟨ys, last, hrest, h⟩ := run_bind_eq_some_iff.mp h
    cases h
    have hmid := length_of_operand a ha
    have hlater := length_of_operands rest hrest
    rw [Adjoint.costs]
    omega

end

mutual

/-- **Emitting a field** makes as many bindings as the adjoint costs. -/
theorem length_of_field (a : Adjoint) {b later : Builder} {x : TupleField}
    (h : (field temp a).run b = some (x, later)) :
    later.bindings.length = b.bindings.length + a.cost := by
  have tensor : field temp a = TupleField.operand <$> operand temp a →
      later.bindings.length = b.bindings.length + a.cost := by
    intro hfield
    rw [hfield] at h
    obtain ⟨y, hy, rfl⟩ := run_map_eq_some_iff.mp h
    exact length_of_operand a hy
  cases a with
  | leaf y spec => exact tensor rfl
  | zeros spec => exact tensor rfl
  | call op args spec => exact tensor rfl
  | tuple components =>
    rw [field] at h
    obtain ⟨xs, hxs, rfl⟩ := run_map_eq_some_iff.mp h
    exact length_of_fields components hxs

theorem length_of_fields (as : List Adjoint) {b later : Builder} {xs : List TupleField}
    (h : (fields temp as).run b = some (xs, later)) :
    later.bindings.length = b.bindings.length + Adjoint.costs as := by
  cases as with
  | nil =>
    cases h
    rfl
  | cons a rest =>
    rw [fields] at h
    obtain ⟨x, mid, ha, h⟩ := run_bind_eq_some_iff.mp h
    obtain ⟨ys, last, hrest, h⟩ := run_bind_eq_some_iff.mp h
    cases h
    have hmid := length_of_field a ha
    have hlater := length_of_fields rest hrest
    rw [Adjoint.costs]
    omega

end

/-- **Settling a tensor** that is not a known zero makes the bindings that were set aside for it
and leaves a leaf, for which one is set aside again. -/
theorem length_of_settle {a a' : Adjoint} {spec : TensorSpec} (hspec : a.spec? = some spec)
    (hz : a.isZero = false) (h : (settle temp hint a).run b = some (a', later)) :
    (∃ x, a' = .leaf x spec) ∧ later.bindings.length + 1 = b.bindings.length + a.weight := by
  cases a with
  | leaf x s =>
    cases h
    cases hspec
    exact ⟨⟨x, rfl⟩, rfl⟩
  | zeros s => cases hz
  | call op args s =>
    rw [settle] at h
    obtain ⟨xs, mid, hargs, h⟩ := run_bind_eq_some_iff.mp h
    obtain ⟨id, last, hbind, h⟩ := run_bind_eq_some_iff.mp h
    cases h
    cases hspec
    have hmid := length_of_operands args hargs
    have hlater := length_of_bind hbind
    refine ⟨⟨.value id, rfl⟩, ?_⟩
    rw [Adjoint.weight]
    omega
  | tuple components => cases hspec

/-- **Emitting a value** makes one binding more than the adjoint costs, or fewer. -/
theorem length_of_value (a : Adjoint) {ty : ValueType} {id : ValueId}
    (h : (value temp hint ty a).run b = some (id, later)) :
    later.bindings.length ≤ b.bindings.length + (a.cost + 1) := by
  cases a with
  | leaf x spec =>
    rw [value] at h
    exact (length_of_bind h).le
  | zeros spec =>
    rw [value] at h
    have hlater := length_of_bind h
    omega
  | call op args spec =>
    rw [value] at h
    obtain ⟨xs, mid, hargs, h⟩ := run_bind_eq_some_iff.mp h
    have hmid := length_of_operands args hargs
    have hlater := length_of_bind h
    rw [Adjoint.cost]
    omega
  | tuple components =>
    rw [value] at h
    obtain ⟨xs, mid, hfields, h⟩ := run_bind_eq_some_iff.mp h
    have hmid := length_of_fields components hfields
    have hlater := length_of_bind h
    rw [Adjoint.cost]
    omega

end Emit

/-! ## The books of the sweep -/

/-- How many operands an expression has as a call. -/
def Expr.operandCount : Expr → Nat
  | .call _ operands => operands.length
  | _ => 0

namespace SweepState

/-- What is set aside for the pending adjoints. -/
def load (s : SweepState) : Nat := (s.pending.map fun entry => entry.2.weight).sum

/-- **`ledger`** -- the bindings that were made and those that are set aside. -/
def ledger (s : SweepState) : Nat := s.builder.bindings.length + s.load

/-- What is set aside for a value. -/
def weightAt (s : SweepState) (id : ValueId) : Nat := ((s.adjoint? id).map Adjoint.weight).getD 0

theorem load_put (s : SweepState) (id : ValueId) (a : Adjoint) :
    (s.put id a).load = a.weight + (s.drop id).load := rfl

/-- **Dropping** a pending adjoint frees what is set aside for it. -/
theorem load_drop_le (s : SweepState) (id : ValueId) :
    (s.drop id).load + s.weightAt id ≤ s.load := by
  obtain ⟨builder, pending⟩ := s
  -- only the first entry of a value counts for it
  induction pending with
  | nil => exact Nat.le_refl 0
  | cons entry rest ih =>
    obtain ⟨key, a⟩ := entry
    simp only [load, drop, weightAt, adjoint?, List.filter_cons, List.lookup_cons, List.map_cons,
      List.sum_cons] at ih ⊢
    by_cases hk : key = id
    · simp [hk]
      omega
    · have hne : (id == key) = false := beq_false_of_ne (Ne.symm hk)
      simp [hk, hne]
      omega

/-- **`Takes`** -- a step that makes no binding and sets a bounded amount aside. -/
structure Takes (s : SweepState) (amount : Nat) (s' : SweepState) : Prop where
  /-- No binding is made. -/
  builder : s'.builder = s.builder
  /-- What is set aside is bounded. -/
  load_le : s'.load ≤ s.load + amount

theorem takes_refl (s : SweepState) (amount : Nat) : s.Takes amount s :=
  ⟨rfl, Nat.le_add_right _ _⟩

theorem Takes.trans {s mid s' : SweepState} {m n k : Nat} (h : s.Takes m mid)
    (h' : mid.Takes n s') (hk : m + n ≤ k) : s.Takes k s' := by
  refine ⟨h'.builder.trans h.builder, ?_⟩
  have := h.load_le
  have := h'.load_le
  omega

theorem Takes.mono {s s' : SweepState} {m n : Nat} (h : s.Takes m s') (hmn : m ≤ n) :
    s.Takes n s' := ⟨h.builder, h.load_le.trans (Nat.add_le_add_left hmn _)⟩

/-- What is put in place of a pending adjoint takes what it weighs more. -/
theorem takes_put {s : SweepState} {id : ValueId} {a : Adjoint} {amount : Nat}
    (h : a.weight ≤ s.weightAt id + amount) : s.Takes amount (s.put id a) := by
  refine ⟨rfl, ?_⟩
  have hdrop := s.load_drop_le id
  rw [load_put]
  omega

end SweepState

namespace SweepContext

variable {c : SweepContext} {s s' : SweepState}

/-- **A contribution** takes no more than it weighs. -/
theorem takes_accumulate {x : Operand} {a : Adjoint} (h : c.accumulate s x a = .ok s') :
    s.Takes a.weight s' := by
  cases x with
  | literal constant =>
    cases h
    exact SweepState.takes_refl _ _
  | value id =>
    rw [accumulate, accumulateValue] at h
    split at h
    · cases h
      split
      · exact SweepState.takes_refl _ _
      · exact SweepState.takes_put (Nat.le_add_left _ _)
    · next existing hsome =>
      split at h
      · next sum hsum =>
        cases h
        have hadd := Adjoint.weight_add_le existing a hsum
        exact SweepState.takes_put (by simpa [SweepState.weightAt, hsome] using hadd)
      · cases h
  | tupleElement tuple index =>
    have put : ∀ {existing sum : Adjoint}, existing.weight ≤ s.weightAt tuple →
        existing.addAt index a = .ok sum → s.Takes a.weight (s.put tuple sum) := by
      intro existing sum hexisting hsum
      have hadd := Adjoint.weight_addAt_le hsum
      exact SweepState.takes_put (by omega)
    rw [accumulate, accumulateElement] at h
    simp only [pure_eq_ok, ok_bind] at h
    split at h
    · next existing hsome =>
      split at h
      · next sum hsum =>
        cases h
        exact put (by simp [SweepState.weightAt, hsome]) hsum
      · cases h
    · split at h
      · cases h
        exact SweepState.takes_refl _ _
      · split at h
        · next ty htype =>
          split at h
          · next sum hsum =>
            cases h
            exact put ((Adjoint.weight_zerosOf ty).trans_le (Nat.zero_le _)) hsum
          · cases h
        · cases h

mutual

/-- **Routing** to fields takes no more than the adjoint weighs: each component goes to one
field. -/
theorem takes_routeField (field : TupleField) (a : Adjoint) {s s' : SweepState}
    (h : c.routeField s field a = .ok s') : s.Takes a.weight s' := by
  cases field with
  | operand x =>
    rw [routeField] at h
    exact takes_accumulate h
  | tuple fields =>
    cases a with
    | tuple components =>
      rw [routeField] at h
      split at h
      · exact takes_routeFields fields components h
      · cases h
    | leaf x spec => cases h
    | call op args spec => cases h
    | zeros spec => cases h

theorem takes_routeFields (fields : List TupleField) (as : List Adjoint) {s s' : SweepState}
    (h : c.routeFields s fields as = .ok s') : s.Takes (Adjoint.weights as) s' := by
  cases as with
  | nil =>
    cases fields with
    | nil =>
      cases h
      exact SweepState.takes_refl _ _
    | cons field fields =>
      cases h
      exact SweepState.takes_refl _ _
  | cons a as =>
    cases fields with
    | nil =>
      cases h
      exact SweepState.takes_refl _ _
    | cons field fields =>
      rw [routeFields] at h
      obtain ⟨mid, hmid, hrest⟩ := bind_eq_ok_iff.mp h
      have htakes := takes_routeFields fields as hrest
      exact (takes_routeField field a hmid).trans htakes (Nat.le_refl _)

end

/-- A fitted partial of at most three operators weighs at most five. -/
theorem weight_fitPartial_le {op : Operation} {arg a fitted : Adjoint} {spec : TensorSpec}
    (harg : arg.spec? = some spec) (hleaf : arg.cost = 0) (ha : a.cost ≤ 3)
    (h : c.fitPartial op arg a = .ok fitted) : fitted.weight ≤ 5 := by
  obtain ⟨hspec, hmade⟩ := spec?_of_fitPartial h
  have hweight := Adjoint.weight_le_of_spec? (hspec.trans harg)
  rcases hmade with rfl | hcollapse
  · omega
  · have hcost := Adjoint.cost_of_apply hcollapse
    simp only [Adjoint.costs] at hcost
    omega

/-- Spreading partials takes at most five for each operand. -/
theorem takes_spread {op : Operation} {entries : List (Operand × Adjoint × Option Adjoint)}
    (hentries : ∀ x arg p, (x, arg, some p) ∈ entries →
      (∃ spec, arg = .leaf x spec) ∧ p.cost ≤ 3) (h : c.spread op s entries = .ok s') :
    s.Takes (5 * entries.length) s' := by
  induction entries generalizing s with
  | nil =>
    cases h
    exact SweepState.takes_refl _ _
  | cons entry entries ih =>
    obtain ⟨x, arg, partial?⟩ := entry
    have hrest := fun y arg p hm => hentries y arg p (List.mem_cons_of_mem _ hm)
    cases partial? with
    | none => exact (ih hrest h).mono (Nat.mul_le_mul_left 5 (Nat.le_succ _))
    | some p =>
      obtain ⟨⟨spec, rfl⟩, hp⟩ := hentries x arg p List.mem_cons_self
      obtain ⟨fitted, hfit, h⟩ := bind_eq_ok_iff.mp h
      obtain ⟨mid, hmid, h⟩ := bind_eq_ok_iff.mp h
      have hweight := weight_fitPartial_le rfl rfl hp hfit
      refine (takes_accumulate hmid).trans (ih hrest h) ?_
      rw [List.length_cons]
      omega

/-- **Visiting a call** with a settled adjoint takes at most five for each operand. -/
theorem takes_visitCall (hc : c.Grounded) {b : Binding} {op : Operation}
    {xs : List Operand} {a : Adjoint} (ha : a.cost = 0) (h : c.visitCall s b op xs a = .ok s') :
    s.Takes (5 * xs.length) s' := by
  obtain ⟨out, rule, args, ps, _, hrule, hleaves, hps, h⟩ := exists_rule_of_visitCall h
  rw [hc.rules] at hrule
  have hsite : ∀ arg ∈ args, arg.cost = 0 := by
    intro arg harg
    obtain ⟨x, _, hx⟩ := forall₂_exists_of_mem hleaves.flip harg
    obtain ⟨spec, rfl, _⟩ := exists_of_operandLeaf hc hx
    rfl
  have hpartials := GradientRule.frugal_of_find? hrule _ _ _ hps ha rfl hsite
  have hentries : ∀ x arg p, (x, arg, some p) ∈ xs.zip (args.zip ps) →
      (∃ spec, arg = .leaf x spec) ∧ p.cost ≤ 3 := by
    intro x arg p hm
    have hxa := (List.forall₂_iff_zip.mp hleaves).2 (mem_zip_of_mem_zip_zip hm)
    obtain ⟨spec, harg, _⟩ := exists_of_operandLeaf hc hxa
    exact ⟨⟨spec, harg⟩, hpartials p (List.of_mem_zip (List.of_mem_zip hm).2).2⟩
  refine (takes_spread hentries h).mono (Nat.mul_le_mul_left 5 ?_)
  rw [List.length_zip]
  exact Nat.min_le_left _ _

/-- **Passing on** takes what the adjoint weighs and at most five for each operand of a call. -/
theorem takes_pass (hc : c.Grounded) {b : Binding} {a : Adjoint}
    (ha : (∃ spec, b.ty = .tensor spec) → a.cost = 0) (h : c.pass s b a = .ok s') :
    s.Takes (a.weight + 5 * b.expr.operandCount) s' := by
  rw [pass] at h
  split at h
  · next op xs he =>
    obtain ⟨out, _, _, _, hty, _⟩ := exists_rule_of_visitCall h
    have hcost : a.cost = 0 := ha ⟨out, hty⟩
    rw [he, Expr.operandCount]
    exact (takes_visitCall hc hcost h).mono (Nat.le_add_left _ _)
  · exact (takes_routeField _ a h).mono (Nat.le_add_right _ _)
  · exact (takes_accumulate h).mono (Nat.le_add_right _ _)
  · exact (takes_accumulate h).mono (Nat.le_add_right _ _)

/-- **Settling** pays with what was set aside for the value: the bindings that are made and what
the settled adjoint weighs. A tensor becomes a leaf. -/
theorem Fits.length_settle_le (hs : c.Fits s) {b : Binding} (hid : c.types b.id = some b.ty)
    {pending a : Adjoint} (hp : s.adjoint? b.id = some pending)
    (h : c.settle (s.drop b.id) b pending = .ok (a, s')) :
    s'.builder.bindings.length + a.weight ≤ s.builder.bindings.length + s.weightAt b.id ∧
      s'.load = (s.drop b.id).load ∧ ((∃ spec, b.ty = .tensor spec) → a.cost = 0) := by
  obtain ⟨_, hpending, hz⟩ := hs.pending b.id pending hp
  have htype : b.ty = pending.type := Option.some.inj (hid.symm.trans hpending)
  rw [SweepState.weightAt, hp]
  rw [settle] at h
  split at h
  · next spec hty =>
    obtain ⟨x, later, hrun, he⟩ := emit_eq_ok_iff.mp h
    cases he
    obtain ⟨⟨y, rfl⟩, hlength⟩ := Emit.length_of_settle
      (Adjoint.spec?_of_type (htype.symm.trans hty)) hz hrun
    exact ⟨hlength.le, rfl, fun _ => rfl⟩
  · next tys hty =>
    cases h
    exact ⟨Nat.le_refl _, rfl, fun ⟨spec, hspec⟩ => by rw [hty] at hspec; cases hspec⟩

/-- **A visit** makes no more bindings than were set aside for the value, and adds at most five to
the books for each operand of a call. -/
theorem Fits.ledger_visit_le (hc : c.Grounded) (hs : c.Fits s) {b : Binding}
    (hb : b ∈ c.function.bindings) (h : c.visit s b = .ok s') :
    s'.builder.bindings.length ≤ s.builder.bindings.length + s.weightAt b.id ∧
      s'.ledger ≤ s.ledger + 5 * b.expr.operandCount := by
  cases hp : s.adjoint? b.id with
  | none =>
    rw [visit, hp] at h
    cases h
    exact ⟨Nat.le_add_right _ _, Nat.le_add_right _ _⟩
  | some pending =>
    rw [visit_eq hp] at h
    obtain ⟨⟨a, mid⟩, hsettle, hpass⟩ := bind_eq_ok_iff.mp h
    obtain ⟨hlength, hload, hleaf⟩ :=
      hs.length_settle_le (hc.wellFormed.binding_spec hb).1 hp hsettle
    obtain ⟨hbuilder, hpassed⟩ := takes_pass hc hleaf hpass
    have hdrop := s.load_drop_le b.id
    rw [SweepState.ledger, SweepState.ledger]
    rw [hbuilder]
    dsimp only at hpassed ⊢
    omega

/-- **Visits** add at most five to the books for each operand of a call. -/
theorem Swept.ledger_visits_le (hc : c.Grounded) (hs : c.Swept s) {bs : List Binding}
    (hbs : ∀ b ∈ bs, b ∈ c.function.bindings) (h : bs.foldlM c.visit s = .ok s') :
    s'.ledger ≤ s.ledger + 5 * (bs.map fun b => b.expr.operandCount).sum := by
  induction bs generalizing s with
  | nil =>
    cases h
    exact Nat.le_refl _
  | cons b bs ih =>
    obtain ⟨mid, hvisit, hrest⟩ := foldlM_cons_eq_ok_iff.mp h
    obtain ⟨hb, hbs⟩ := List.forall_mem_cons.mp hbs
    have hfirst := (hs.fits.ledger_visit_le hc hb hvisit).2
    have hothers := ih (hs.of_visit hc hb hvisit) hbs hrest
    rw [List.map_cons, List.sum_cons]
    omega

/-! ## Gradients of parameters -/

theorem weight_current (s : SweepState) (id : ValueId) (ty : ValueType) :
    (s.current id ty).weight = s.weightAt id := by
  rw [SweepState.current, SweepState.weightAt]
  cases s.adjoint? id with
  | none => exact Adjoint.weight_zerosOf ty
  | some a => rfl

theorem Fits.cost_current_le (hs : c.Fits s) {id : ValueId} {ty : ValueType}
    (hid : c.types id = some ty) : (s.current id ty).cost ≤ s.weightAt id + ty.leaves := by
  have hcost := (s.current id ty).cost_le
  rwa [weight_current, (hs.current_spec hid).2] at hcost

/-- Before the sweep ones are set aside for, and they cost no more than the tensor they are for. -/
theorem cost_current_seed_le {target : ValueId} {spec : TensorSpec}
    (htarget : c.types target = some (.tensor spec)) {id : ValueId} {ty : ValueType}
    (hid : c.types id = some ty) : ((c.seed target spec).current id ty).cost ≤ ty.leaves := by
  rw [SweepState.current, adjoint?_seed]
  split
  · next he =>
    cases (he ▸ hid).symm.trans htarget
    exact Nat.le_refl 1
  · have hcost := (Adjoint.zerosOf ty).cost_le
    rwa [Adjoint.weight_zerosOf, Adjoint.type_zerosOf, Nat.zero_add] at hcost

theorem bindings_seed (c : SweepContext) (target : ValueId) (spec : TensorSpec) :
    (c.seed target spec).builder.bindings = c.function.bindings := Builder.bindings_ofFunction _ _

theorem ledger_seed (c : SweepContext) (target : ValueId) (spec : TensorSpec) :
    (c.seed target spec).ledger = c.function.bindings.length + 2 := by
  rw [SweepState.ledger, bindings_seed]
  rfl

/-- **What is set aside** for different values is part of the load. -/
theorem sum_weightAt_le {ids : List ValueId} (hids : ids.Nodup) (s : SweepState) :
    (ids.map s.weightAt).sum ≤ s.load := by
  induction ids generalizing s with
  | nil => exact Nat.zero_le _
  | cons id ids ih =>
    obtain ⟨hid, hids⟩ := List.nodup_cons.mp hids
    have hrest : ids.map (s.drop id).weightAt = ids.map s.weightAt := by
      refine List.map_congr_left fun other hother => ?_
      have hne : other ≠ id := fun he => hid (he ▸ hother)
      rw [SweepState.weightAt, SweepState.adjoint?_drop, if_neg hne, SweepState.weightAt]
    have hload := ih hids (s.drop id)
    have hdrop := s.load_drop_le id
    rw [hrest] at hload
    rw [List.map_cons, List.sum_cons]
    omega

/-- **Binding gradients** makes, for each requested parameter that is not bound yet, one binding
more than its adjoint costs, or fewer. -/
theorem length_bindGradients_le {bound : List (ValueId × ValueId)} {ids grads : List ValueId}
    {b : Builder} (h : c.bindGradients bound { s with builder := b } ids = .ok (grads, s')) :
    s'.builder.bindings.length ≤ b.bindings.length +
      (c.function.params.map fun p => if p.id ∈ ids ∧ bound.lookup p.id = none then
        (s.current p.id p.ty).cost + 1 else 0).sum := by
  induction ids generalizing bound b grads with
  | nil =>
    cases h
    exact Nat.le_add_right _ _
  | cons id ids ih =>
    obtain ⟨_, rest, _, hrest⟩ | ⟨p, grad, later, rest, hnone, hp, hrun, hrest⟩ :=
      exists_of_bindGradients h
    · refine (ih hrest).trans (Nat.add_le_add_left (List.sum_le_sum fun p _ => ?_) _)
      split
      · next hp => rw [if_pos ⟨List.mem_cons_of_mem _ hp.1, hp.2⟩]
      · exact Nat.zero_le _
    · have hpid := Function.id_of_param? hp
      have hlater : later.bindings.length ≤
          b.bindings.length + ((s.current p.id p.ty).cost + 1) := Emit.length_of_value _ hrun
      have hothers := ih hrest
      -- the parameter is bound from here on, so it does not count again
      have hpaid : (s.current p.id p.ty).cost + 1 ≤ (c.function.params.map fun q =>
          if q.id = id then (s.current q.id q.ty).cost + 1 else 0).sum := by
        refine List.le_sum_of_mem (List.mem_map.mpr ⟨p, List.mem_of_find?_eq_some hp, ?_⟩)
        exact if_pos hpid
      have hsplit : (c.function.params.map fun q => (if q.id = id then
            (s.current q.id q.ty).cost + 1 else 0) +
          if q.id ∈ ids ∧ List.lookup q.id ((id, grad) :: bound) = none then
            (s.current q.id q.ty).cost + 1 else 0).sum ≤
          (c.function.params.map fun q => if q.id ∈ id :: ids ∧ bound.lookup q.id = none then
            (s.current q.id q.ty).cost + 1 else 0).sum := by
        refine List.sum_le_sum fun q _ => ?_
        by_cases hq : q.id = id
        · simp [hq, hnone]
        · rw [List.lookup_cons, beq_false_of_ne hq]
          rw [if_neg hq, Nat.zero_add]
          exact (if_congr (and_congr_left fun _ =>
            ⟨List.mem_cons_of_mem _, List.mem_of_ne_of_mem hq⟩) rfl rfl).le
      rw [List.sum_map_add] at hsplit
      show s'.builder.bindings.length ≤ _
      omega

end SweepContext

/-! ## The size of a gradient -/

namespace Function

variable {f g : Function} {config : GradientConfig} {request : Option (List ValueId)}

/-- How many operands the calls of a function have. -/
def operandCount (f : Function) : Nat := (f.bindings.map fun b => b.expr.operandCount).sum

/-- The parameters that are requested, each once. -/
def requestedOnce (f : Function) (request : Option (List ValueId)) : List Param :=
  f.params.filter fun p => p.id ∈ request.getD f.paramIds

theorem sum_map_filter_eq {α : Type} (p : α → Prop) [DecidablePred p] (w : α → Nat) (l : List α) :
    ((l.filter p).map w).sum = (l.map fun x => if p x then w x else 0).sum := by
  induction l with
  | nil => rfl
  | cons x l ih =>
    by_cases hx : p x
    · simp [hx, ih]
    · simp [hx, ih]

/-- **The gradients** of requested parameters take one binding more than their adjoints cost, or
fewer, each once. -/
theorem length_gradient_le {c : SweepContext} (hc : c.function = f) {s s' : SweepState}
    {grads : List ValueId}
    (h : c.bindGradients [] s (request.getD f.paramIds) = .ok (grads, s')) :
    s'.builder.bindings.length ≤ s.builder.bindings.length +
      ((f.requestedOnce request).map fun p => (s.current p.id p.ty).cost + 1).sum := by
  subst hc
  have hle := SweepContext.length_bindGradients_le (b := s.builder) h
  simp only [List.lookup_nil, and_true] at hle
  rwa [requestedOnce, sum_map_filter_eq]

/-- **What is set aside** for the requested parameters is part of the load. -/
theorem WellFormed.sum_weightAt_le (hf : f.WellFormed) (request : Option (List ValueId))
    (s : SweepState) :
    ((f.requestedOnce request).map fun p => s.weightAt p.id).sum ≤ s.load := by
  have hnodup : ((f.requestedOnce request).map Param.id).Nodup :=
    hf.params_nodup.sublist (List.filter_sublist.map _)
  have hload := SweepContext.sum_weightAt_le hnodup s
  rwa [List.map_map] at hload

/-- **The books of a sweep**: two are set aside for the ones that are pending at first, and each
operand of a visited call adds at most five. -/
theorem SweepsTo.ledger_le {c : SweepContext} {after : List Binding} {s : SweepState}
    (hv : f.verify = .ok ()) (hafter : ∀ b ∈ after, b ∈ f.bindings)
    (h : f.SweepsTo .builtinOnly config c after s) :
    s.ledger ≤ f.bindings.length + 2 + 5 * (after.map fun b => b.expr.operandCount).sum := by
  obtain ⟨target, spec, index, hret, htype, hindex, rfl, hrun⟩ := h
  have hstart : f.SweepsTo .builtinOnly config (f.sweep index .builtinOnly config) []
      ((f.sweep index .builtinOnly config).seed target spec) :=
    ⟨target, spec, index, hret, htype, hindex, rfl, rfl⟩
  obtain ⟨_, hc, hs⟩ := hstart.swept hv fun _ hb => absurd hb List.not_mem_nil
  have hvisits := hs.ledger_visits_le hc (fun b hb => hafter b (List.mem_reverse.mp hb)) hrun
  rwa [List.map_reverse, List.sum_reverse, SweepContext.ledger_seed] at hvisits

/-- **Gradients are cheap.** A gradient has at most one binding beyond its function, five more for
each operand of a call, one for each binding, and for each requested parameter one and one for
each tensor of its type. The books are why: a visit of the sweep makes no more bindings than were
set aside for the value that is visited, and the bindings that were made together with those that
are still set aside, each counted as often as it is pending, grow by five for each operand of a
visited call. An adjoint that is passed on adds nothing, so nothing pending is emitted twice. -/
theorem differentiate_economy (h : f.differentiate .builtinOnly config request = .ok g) :
    g.bindings.length ≤ f.bindings.length + (1 + 5 * f.operandCount + f.bindings.length +
      ((f.requestedOnce request).map fun p => 1 + p.ty.leaves).sum) ∧
    ∀ c before b after s s', f.bindings = before ++ b :: after →
      f.SweepsTo .builtinOnly config c after s → c.visit s b = .ok s' →
        s'.builder.bindings.length ≤ s.builder.bindings.length + s.weightAt b.id ∧
          s'.ledger ≤ s.ledger + 5 * b.expr.operandCount := by
  obtain ⟨hv, _, _, _⟩ := spec_of_differentiate h
  constructor
  · obtain ⟨c, target, s, grads, s', hret, hsweep, hbind, rfl⟩ := sweepsTo_of_differentiate h
    obtain ⟨hfunction, hc, hs⟩ := hsweep.swept hv fun _ hb => hb
    have hgrads := length_gradient_le hfunction hbind
    have hlength : (f.gradient target grads s'.builder).bindings.length =
        s'.builder.bindings.length := by
      rw [gradient, Builder.bindings_finish]
    have hsum : ∀ {w : Param → Nat},
        (∀ p ∈ f.requestedOnce request, (s.current p.id p.ty).cost ≤ w p + p.ty.leaves) →
        s'.builder.bindings.length ≤ s.builder.bindings.length +
          (((f.requestedOnce request).map w).sum +
            ((f.requestedOnce request).map fun p => 1 + p.ty.leaves).sum) := by
      intro w hw
      rw [← List.sum_map_add]
      refine hgrads.trans (Nat.add_le_add_left (List.sum_le_sum fun p hp => ?_) _)
      have := hw p hp
      omega
    have htypes : ∀ p ∈ f.requestedOnce request, c.types p.id = some p.ty := fun p hp =>
      hs.fits.types_param (hfunction ▸ List.mem_of_mem_filter hp)
    rw [hlength]
    by_cases hbindings : f.bindings = []
    · -- nothing is visited, so the ones that are pending are bound at most
      have hseed : s.builder.bindings.length = f.bindings.length ∧
          ∀ p ∈ f.requestedOnce request, (s.current p.id p.ty).cost ≤ 0 + p.ty.leaves := by
        obtain ⟨_, spec, _, _, htype, _, rfl, hrun⟩ := hsweep
        rw [hbindings] at hrun
        cases hrun
        refine ⟨congrArg _ (SweepContext.bindings_seed _ _ _), fun p hp => ?_⟩
        rw [Nat.zero_add]
        refine SweepContext.cost_current_seed_le ?_ (htypes p hp)
        rw [← htype, typeOf?_eq_context]
        rfl
      have hall := hsum hseed.2
      rw [hseed.1, List.map_const', List.sum_replicate_nat, Nat.mul_zero] at hall
      omega
    · have hpos := List.length_pos_iff.mpr hbindings
      have hledger := hsweep.ledger_le hv fun _ hb => hb
      have hload := (verify_eq_ok_iff.mp hv).sum_weightAt_le request s
      have hall := hsum fun p hp => hs.fits.cost_current_le (htypes p hp)
      rw [SweepState.ledger] at hledger
      rw [operandCount]
      omega
  · intro c before b after s s' hf hsweep hvisit
    have hmem : ∀ b' ∈ b :: after, b' ∈ f.bindings := fun b' hb' =>
      hf ▸ List.mem_append_right before hb'
    obtain ⟨hfunction, hc, hs⟩ := hsweep.swept hv fun b' hb' => hmem b' (List.mem_cons_of_mem b hb')
    exact hs.fits.ledger_visit_le hc (hfunction ▸ hmem b List.mem_cons_self) hvisit

/-- A square whose factor reaches the product twice, through a tuple and second names. -/
def pairedSquare : Function where
  name := "paired_square"
  params := [⟨⟨0⟩, "x", .tensor ⟨.f32, ⟨[]⟩⟩⟩]
  regions :=
    [⟨[⟨⟨1⟩, "pair", .tuple [.operand (.value ⟨0⟩), .operand (.value ⟨0⟩)],
          .tuple [.tensor ⟨.f32, ⟨[]⟩⟩, .tensor ⟨.f32, ⟨[]⟩⟩]⟩,
        ⟨⟨2⟩, "left", .tupleGet ⟨1⟩ 0, .tensor ⟨.f32, ⟨[]⟩⟩⟩,
        ⟨⟨3⟩, "square", .call .multiply [.value ⟨2⟩, .tupleElement ⟨1⟩ 1], .tensor ⟨.f32, ⟨[]⟩⟩⟩],
      [⟨3⟩]⟩]
  ret := .value ⟨3⟩

theorem pairedSquare_economy :
    ∃ g, pairedSquare.differentiate .builtinOnly .standard (some [⟨0⟩, ⟨0⟩]) = .ok g ∧
      g.bindings.length ≤ 3 + (1 + 5 * 2 + 3 + 2) := by
  obtain ⟨g, hg⟩ : ∃ g, pairedSquare.differentiate .builtinOnly .standard
      (some [⟨0⟩, ⟨0⟩]) = .ok g := exists_eq_ok_of_isOk (by decide +kernel)
  exact ⟨g, hg, (differentiate_economy hg).1⟩

end Function

end TensorGraph
