/-
# TensorGraph.Proofs.AdjointSums -- sums of adjoints, leaf by leaf

Adjoints of one type can be added, whatever their tensors are made of: the sum has that type, and
each of its parts is the sum of the parts of the summands at the same place (`Adjoint.part?_add`).
A leaf of the sum is one of the two summands, where the other is a known zero, or an operator; in
all three cases it is known to be zero exactly if both are, and reads as their sum
(`Adjoint.IsLeafSum`). What is added at one component of a tuple stays there.
-/
import TensorGraph.Proofs.Pairing

namespace TensorGraph

/-! ## Sums of tensors -/

section Plus

variable {K : Type} [Field K] {s t : Tensor K} {spec : TensorSpec}

theorem Tensor.getD_filled {α : Type} (c z : α) {i : Nat} (hi : i < spec.elementCount) :
    (Tensor.filled spec c).data.getD i z = c := by
  rw [Tensor.filled_eq, getD_tabulate _ hi]

theorem Tensor.Fits.filled_plus (ht : t.Fits spec) : (Tensor.filled spec 0).plus t = t := by
  have hzero := Tensor.fits_filled spec (0 : K)
  refine Tensor.Fits.ext (hzero.plus ht) ht fun i hi => ?_
  rw [Tensor.getElem?_plus hzero ht hi, Tensor.getD_filled 0 0 hi, zero_add,
    getElem?_eq_some_getD (ht.2.symm ▸ hi) 0]

theorem Tensor.Fits.plus_filled (hs : s.Fits spec) : s.plus (Tensor.filled spec 0) = s := by
  have hzero := Tensor.fits_filled spec (0 : K)
  refine Tensor.Fits.ext (hs.plus hzero) hs fun i hi => ?_
  rw [Tensor.getElem?_plus hs hzero hi, Tensor.getD_filled 0 0 hi, add_zero,
    getElem?_eq_some_getD (hs.2.symm ▸ hi) 0]

end Plus

namespace Adjoint

/-! ## Parts -/

/-- **`part?`** -- the part of an adjoint at a place. Only tuples have parts. -/
def part? : Adjoint → List Nat → Option Adjoint
  | a, [] => some a
  | tuple components, index :: place =>
    match components[index]? with
    | some component => component.part? place
    | none => none
  | _, _ :: _ => none

theorem part?_tuple (components : List Adjoint) (index : Nat) (place : List Nat) :
    (tuple components).part? (index :: place) =
      components[index]?.bind fun component => component.part? place := by
  rw [part?]
  cases components[index]? <;> rfl

/-- An adjoint with parts below it is a tuple. -/
theorem exists_of_part? {a x : Adjoint} {index : Nat} {place : List Nat}
    (h : a.part? (index :: place) = some x) :
    ∃ components component, a = tuple components ∧ components[index]? = some component ∧
      component.part? place = some x := by
  cases a with
  | leaf x spec => cases h
  | call op args spec => cases h
  | zeros spec => cases h
  | tuple components =>
    rw [part?_tuple, Option.bind_eq_some_iff] at h
    obtain ⟨component, hc, hx⟩ := h
    exact ⟨components, component, rfl, hc, hx⟩

/-! ## Sums of parts -/

/-- A component of a sum is the sum of the components. -/
theorem getElem?_addAll {as bs cs : List Adjoint} (hty : types bs = types as)
    (h : addAll as bs = .ok cs) {index : Nat} {a : Adjoint} (ha : as[index]? = some a) :
    ∃ b c, bs[index]? = some b ∧ cs[index]? = some c ∧ b.type = a.type ∧ a.add b = .ok c := by
  induction as generalizing bs cs index with
  | nil => cases ha
  | cons a' as ih =>
    cases bs with
    | nil => cases hty
    | cons b' bs =>
      obtain ⟨hb, hbs⟩ := List.cons.inj hty
      rw [addAll] at h
      obtain ⟨c', hc, h⟩ := bind_eq_ok_iff.mp h
      obtain ⟨cs', hcs, h⟩ := bind_eq_ok_iff.mp h
      cases h
      cases index with
      | zero =>
        cases ha
        exact ⟨b', c', rfl, rfl, hb, hc⟩
      | succ index => exact ih hbs hcs ha

/-- **The parts of a sum** are the sums of the parts at the same place. -/
theorem part?_add {a b c : Adjoint} (hty : b.type = a.type) (h : a.add b = .ok c)
    {place : List Nat} {x : Adjoint} (hx : a.part? place = some x) :
    ∃ y z, b.part? place = some y ∧ c.part? place = some z ∧ y.type = x.type ∧
      x.add y = .ok z := by
  induction place generalizing a b c with
  | nil =>
    rw [part?] at hx
    cases hx
    exact ⟨b, c, by rw [part?], by rw [part?], hty, h⟩
  | cons index place ih =>
    -- below the root of a tuple, and so of two tuples
    obtain ⟨as, a', rfl, ha, hx⟩ := exists_of_part? hx
    obtain ⟨bs, rfl, htys⟩ := exists_of_type_tuple hty
    rw [add] at h
    split at h
    · obtain ⟨cs, hcs, rfl⟩ := map_eq_ok_iff.mp h
      obtain ⟨b', c', hb, hc, hty', hsum⟩ := getElem?_addAll htys hcs ha
      obtain ⟨y, z, hy, hz, hyx, hxy⟩ := ih hty' hsum hx
      refine ⟨y, z, ?_, ?_, hyx, hxy⟩
      · rw [part?_tuple, hb, Option.bind_some, hy]
      · rw [part?_tuple, hc, Option.bind_some, hz]
    · cases h

/-! ## Leaves -/

/-- **`IsLeafSum`** -- a tensor that stands where two tensors have been added. -/
structure IsLeafSum (spec : TensorSpec) (x y z : Adjoint) : Prop where
  /-- The spec is that of the summands. -/
  type_eq : z.type = .tensor spec
  /-- It is known to be zero exactly if both are. -/
  isZero_iff : z.isZero = true ↔ x.isZero = true ∧ y.isZero = true
  /-- What is known to be zero reads as 0. -/
  reads_zero : ∀ {K : Type} [Field K] (r : Reading K) (custom : CustomKernels K) (env : Env K),
    ∀ w ∈ [x, y, z], w.isZero = true → w.Denotes r custom env (.tensor (.filled spec 0))
  /-- The elements are the sums of the elements of the summands. -/
  reads_sum : ∀ {K : Type} [Field K] (r : Reading K) (custom : CustomKernels K) (env : Env K)
    (s t : Tensor K), x.Denotes r custom env (.tensor s) → y.Denotes r custom env (.tensor t) →
      z.Denotes r custom env (.tensor (s.plus t))

section Leaves

variable {K : Type} [Field K] {r : Reading K} {custom : CustomKernels K} {env : Env K}
  {x y z : Adjoint} {spec : TensorSpec}

/-- A tensor that is known to be zero is the zero of its spec. -/
theorem eq_zeros (hx : x.type = .tensor spec) (hz : x.isZero = true) : x = zeros spec := by
  rw [eq_zerosOf x hz, hx, zerosOf]

/-- A known zero reads as 0. -/
theorem denotes_zeros (spec : TensorSpec) :
    (zeros spec).Denotes r custom env (.tensor (.filled spec 0)) :=
  ⟨by rw [eval]; rfl, Tensor.fits_filled spec 0⟩

/-- The tensor that a tensor denotes. -/
theorem Denotes.fits {s : Tensor K} (h : x.Denotes r custom env (.tensor s))
    (hx : x.type = .tensor spec) : s.Fits spec := by
  obtain ⟨t, ht, hfits⟩ := h.exists_tensor hx
  cases ht
  exact hfits

/-- **The sum of two tensors of one spec** is a leaf of the sum of which they are leaves. -/
theorem isLeafSum_of_add (hx : x.type = .tensor spec) (hy : y.type = .tensor spec)
    (h : x.add y = .ok z) : IsLeafSum spec x y z := by
  obtain ⟨z', hz', hsum⟩ := exists_addsTo x y (hy.trans hx.symm)
  obtain rfl : z = z' := Except.ok.inj (h.symm.trans hz')
  have hty : z.type = .tensor spec := hsum.type_eq.trans hx
  refine ⟨hty, by rw [hsum.isZero, Bool.and_eq_true], fun r custom env w hw hwz => ?_,
    fun r custom env s t hs ht => ?_⟩
  · have hwty : w.type = .tensor spec := by
      simp only [List.mem_cons, List.not_mem_nil, or_false] at hw
      rcases hw with rfl | rfl | rfl <;> assumption
    rw [eq_zeros hwty hwz]
    exact denotes_zeros spec
  · rcases add_cases hx hy h with ⟨rfl, rfl⟩ | ⟨rfl, rfl⟩ | rfl
    · obtain rfl : s = .filled spec 0 := Value.tensor.inj (hs.eq (denotes_zeros spec))
      rwa [(ht.fits hy).filled_plus]
    · obtain rfl : t = .filled spec 0 := Value.tensor.inj (ht.eq (denotes_zeros spec))
      rwa [(hs.fits hx).plus_filled]
    · exact hs.call_add ht (hs.fits hx) (ht.fits hy)

end Leaves

/-! ## Adding at a component -/

/-- **Adjoints are added leaf by leaf.** The sum of two adjoints of one type exists and has that
type; it is typed where both are; at each leaf it is the sum of the two leaves there, known to be
zero exactly if both are. What is added at a component of a tuple changes that component, which
becomes the sum, and no other; behind the last component, and in a tensor, nothing can be added. -/
theorem add_componentwise (a : Adjoint) :
    (∀ b : Adjoint, b.type = a.type → ∃ c, a.add b = .ok c ∧ c.type = a.type ∧
      c.isZero = (a.isZero && b.isZero) ∧
      (∀ context, a.Typed context → b.Typed context → c.Typed context) ∧
      ∀ place x spec, a.part? place = some x → x.type = .tensor spec →
        ∃ y z, b.part? place = some y ∧ c.part? place = some z ∧ IsLeafSum spec x y z) ∧
    (∀ tys, a.type = .tuple tys → ∀ (index : Nat) (p : Adjoint),
      (tys[index]? = some p.type → ∃ components current sum, a = .tuple components ∧
        components[index]? = some current ∧ current.add p = .ok sum ∧
        a.addAt index p = .ok (.tuple (components.set index sum))) ∧
      (tys.length ≤ index → a.addAt index p =
        .error (.invalid "tuple_get" (.componentRange index tys.length)))) ∧
    ((∀ tys, a.type ≠ .tuple tys) → ∀ index p,
      a.addAt index p = .error (.invalid "tuple_get" .notTuple)) := by
  refine ⟨fun b hb => ?_, fun tys ha index p => ⟨fun hp => ?_, fun hlen => ?_⟩,
    fun ha index p => ?_⟩
  · obtain ⟨c, hc, hsum⟩ := exists_addsTo a b hb
    refine ⟨c, hc, hsum.type_eq, hsum.isZero, fun context => hsum.typed,
      fun place x spec hx hspec => ?_⟩
    obtain ⟨y, z, hy, hz, hyx, hxy⟩ := part?_add hb hc hx
    exact ⟨y, z, hy, hz, isLeafSum_of_add hspec (hyx.trans hspec) hxy⟩
  · obtain ⟨components, rfl, rfl⟩ := exists_of_type_tuple ha
    rw [types_eq_map, List.getElem?_map, Option.map_eq_some_iff] at hp
    obtain ⟨current, hcurrent, hty⟩ := hp
    obtain ⟨sum, hsum, -⟩ := exists_addsTo current p hty.symm
    exact ⟨components, current, sum, rfl, hcurrent, hsum,
      addAt_eq_ok_iff.mpr ⟨components, current, sum, rfl, hcurrent, hsum, rfl⟩⟩
  · obtain ⟨components, rfl, rfl⟩ := exists_of_type_tuple ha
    rw [types_eq_map, List.length_map] at hlen ⊢
    rw [addAt, List.getElem?_eq_none hlen]
  · cases a with
    | leaf x spec => rfl
    | call op args spec => rfl
    | zeros spec => rfl
    | tuple components => exact absurd rfl (ha _)

/-- A pair of a known zero and of a tuple with one tensor: two of them are added, and the sum is
completed at its first component. -/
theorem add_componentwise_nested :
    (tuple [zeros ⟨.f32, ⟨[2]⟩⟩, tuple [leaf (.value ⟨0⟩) ⟨.f32, ⟨[3]⟩⟩]]).add
        (tuple [zeros ⟨.f32, ⟨[2]⟩⟩, tuple [leaf (.value ⟨1⟩) ⟨.f32, ⟨[3]⟩⟩]]) =
        .ok (tuple [zeros ⟨.f32, ⟨[2]⟩⟩, tuple [.call .add [leaf (.value ⟨0⟩) ⟨.f32, ⟨[3]⟩⟩,
          leaf (.value ⟨1⟩) ⟨.f32, ⟨[3]⟩⟩] ⟨.f32, ⟨[3]⟩⟩]]) ∧
      IsLeafSum ⟨.f32, ⟨[3]⟩⟩ (leaf (.value ⟨0⟩) ⟨.f32, ⟨[3]⟩⟩) (leaf (.value ⟨1⟩) ⟨.f32, ⟨[3]⟩⟩)
        (.call .add [leaf (.value ⟨0⟩) ⟨.f32, ⟨[3]⟩⟩, leaf (.value ⟨1⟩) ⟨.f32, ⟨[3]⟩⟩]
          ⟨.f32, ⟨[3]⟩⟩) ∧
      (tuple [zeros ⟨.f32, ⟨[2]⟩⟩, tuple [leaf (.value ⟨0⟩) ⟨.f32, ⟨[3]⟩⟩]]).addAt 0
        (leaf (.value ⟨1⟩) ⟨.f32, ⟨[2]⟩⟩) =
        .ok (tuple [leaf (.value ⟨1⟩) ⟨.f32, ⟨[2]⟩⟩, tuple [leaf (.value ⟨0⟩) ⟨.f32, ⟨[3]⟩⟩]]) := by
  obtain ⟨hadd, hat, -⟩ :=
    add_componentwise (tuple [zeros ⟨.f32, ⟨[2]⟩⟩, tuple [leaf (.value ⟨0⟩) ⟨.f32, ⟨[3]⟩⟩]])
  obtain ⟨c, hc, -, -, -, hleaf⟩ :=
    hadd (tuple [zeros ⟨.f32, ⟨[2]⟩⟩, tuple [leaf (.value ⟨1⟩) ⟨.f32, ⟨[3]⟩⟩]]) rfl
  obtain ⟨y, z, hy, hz, hsum⟩ := hleaf [1, 0] _ _ rfl rfl
  obtain ⟨components, current, sum, htuple, hcurrent, hfirst, hset⟩ :=
    (hat _ rfl 0 (leaf (.value ⟨1⟩) ⟨.f32, ⟨[2]⟩⟩)).1 rfl
  cases hc
  cases hy
  cases hz
  cases htuple
  cases hcurrent
  cases hfirst
  exact ⟨rfl, hsum, hset⟩

end Adjoint

end TensorGraph
