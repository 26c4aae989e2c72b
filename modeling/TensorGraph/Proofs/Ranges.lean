/-
# TensorGraph.Proofs.Ranges -- operators stay in the range of their operands

A family of types is stable when operators do not leave it: whatever the types of the operands
are, the type of the result is in the family if theirs are. Only a reshape names a shape that its
operand does not have. The types that a machine holds are stable (`stable_storable`), because each
extent of a result is an extent of an operand or 1, and no result has more axes than the larger of
its operands or than the two of a matrix.
-/
import TensorGraph.Proofs.CallTyping
import TensorGraph.Proofs.Storable

namespace TensorGraph

/-! ## Stable families -/

/-- The shape that a reshape names is in a family of types, whatever the element type. -/
def Operation.Within (sized : ValueType → Prop) : Operation → Prop
  | .reshape dims => ∀ dtype, sized (.tensor ⟨dtype, ⟨dims⟩⟩)
  | _ => True

/-- **`Stable`** -- a family of types that operators do not leave. -/
structure ValueType.Stable (sized : ValueType → Prop) : Prop where
  /-- With a tuple it has the components. -/
  component : ∀ {tys}, sized (.tuple tys) → ∀ ty ∈ tys, sized ty
  /-- The element type does not matter. -/
  dtype : ∀ {spec} dtype, sized (.tensor spec) → sized (.tensor ⟨dtype, spec.shape⟩)
  /-- Extents may be set to 1. -/
  kept : ∀ {spec} axes, sized (.tensor spec) →
    sized (.tensor ⟨spec.dtype, ⟨keptDims axes spec.shape.dims⟩⟩)
  /-- With the operands of an operator it has the result. -/
  result : ∀ {op : Operation} {specs out}, op.resultSpec specs none = .ok out → op.Within sized →
    (∀ spec ∈ specs, sized (.tensor spec)) → sized (.tensor out)

/-- A stable family is stable where it is asked for only under a condition. -/
theorem ValueType.Stable.imp {sized : ValueType → Prop} (h : Stable sized) (p : Prop) :
    Stable fun ty => p → sized ty where
  component := fun hty ty hm hp => h.component (hty hp) ty hm
  dtype := fun dtype hty hp => h.dtype dtype (hty hp)
  kept := fun axes hty hp => h.kept axes (hty hp)
  result := by
    intro op specs out hout hop hspecs hp
    refine h.result hout ?_ fun spec hm => hspecs spec hm hp
    cases op with
    | reshape dims => exact fun dtype => hop dtype hp
    | _ => exact trivial

/-! ## Extents of results -/

/-- **A joined shape** is as long as the longer one and has only extents of the two. -/
theorem joinTrailing_spec {as bs cs : List Nat} (h : joinTrailing as bs = some cs) :
    cs.length = max as.length bs.length ∧ ∀ c ∈ cs, c ∈ as ∨ c ∈ bs := by
  induction as generalizing bs cs with
  | nil =>
    rw [joinTrailing] at h
    cases h
    exact ⟨(Nat.zero_max _).symm, fun c hc => .inr hc⟩
  | cons a as ih =>
    cases bs with
    | nil =>
      rw [joinTrailing_nil_right] at h
      cases h
      exact ⟨(Nat.max_zero _).symm, fun c hc => .inl hc⟩
    | cons b bs =>
      rw [joinTrailing] at h
      split at h
      · next c cs' hc hcs =>
        cases h
        obtain ⟨hlen, hmem⟩ := ih hcs
        have hextent : c = a ∨ c = b := by
          unfold joinExtent at hc
          split at hc <;> grind
        refine ⟨by simp only [List.length_cons]; omega, fun d hd => ?_⟩
        rcases List.mem_cons.mp hd with rfl | hd
        · rcases hextent with rfl | rfl
          · exact .inl List.mem_cons_self
          · exact .inr List.mem_cons_self
        · exact (hmem d hd).imp (List.mem_cons_of_mem a) (List.mem_cons_of_mem b)
      · cases h

theorem fits_broadcast {a b c : Shape} (h : a.broadcast? b = some c)
    (ha : ListFits (· < indexBound) a.dims) (hb : ListFits (· < indexBound) b.dims) :
    ListFits (· < indexBound) c.dims := by
  obtain ⟨cs, hcs, rfl⟩ := Option.map_eq_some_iff.mp h
  obtain ⟨hlen, hmem⟩ := joinTrailing_spec hcs
  rw [List.length_reverse, List.length_reverse] at hlen
  refine ⟨?_, fun d hd => ?_⟩
  · rw [List.length_reverse, hlen]
    exact Nat.max_lt.mpr ⟨ha.1, hb.1⟩
  · rcases hmem d (List.mem_reverse.mp hd) with hd | hd
    · exact ha.2 d (List.mem_reverse.mp hd)
    · exact hb.2 d (List.mem_reverse.mp hd)

theorem fits_permuted {dims perm : List Nat} (h : IsPermutation perm dims.length)
    (hd : ListFits (· < indexBound) dims) : ListFits (· < indexBound) (permuted dims perm) := by
  constructor
  · have hlen : (permuted dims perm).length ≤ perm.length := List.length_filterMap_le _ _
    rw [h.1] at hlen
    exact Nat.lt_of_le_of_lt hlen hd.1
  · intro d hm
    obtain ⟨axis, _, haxis⟩ := List.mem_filterMap.mp hm
    exact hd.2 d (List.mem_of_getElem? haxis)

theorem fits_keptDims (axes : Option (List Nat)) {dims : List Nat}
    (hd : ListFits (· < indexBound) dims) : ListFits (· < indexBound) (keptDims axes dims) := by
  constructor
  · rw [keptDims, List.length_map, List.length_zipIdx]
    exact hd.1
  · intro d hm
    obtain ⟨⟨dim, axis⟩, hentry, rfl⟩ := List.mem_map.mp hm
    dsimp only
    split
    · decide
    · exact hd.2 dim (List.fst_mem_of_mem_zipIdx hentry)

theorem fits_reducedDims (axes : Option (List Nat)) (keepdims : Bool) {dims : List Nat}
    (hd : ListFits (· < indexBound) dims) :
    ListFits (· < indexBound) (reducedDims axes keepdims dims) := by
  rw [reducedDims]
  split
  · exact fits_keptDims axes hd
  · constructor
    · have hlen := List.length_filterMap_le (fun (entry : Nat × Nat) =>
        if isReduced axes entry.2 then none else some entry.1) dims.zipIdx
      rw [List.length_zipIdx] at hlen
      exact Nat.lt_of_le_of_lt hlen hd.1
    · intro d hm
      obtain ⟨⟨dim, axis⟩, hentry, hdim⟩ := List.mem_filterMap.mp hm
      dsimp only at hdim
      split at hdim
      · cases hdim
      · cases hdim
        exact hd.2 d (List.fst_mem_of_mem_zipIdx hentry)

/-! ## What a machine holds -/

/-- **A result is storable** when the operands are and when a reshape names a storable shape. -/
theorem Operation.storable_of_resultSpec {op : Operation} {specs : List TensorSpec}
    {out : TensorSpec} (h : op.resultSpec specs none = .ok out)
    (hop : op.Within ValueType.Storable) (hspecs : ∀ spec ∈ specs, spec.Storable) :
    out.Storable := by
  have sole : ∀ {x : TensorSpec}, specs = [x] → x.Storable := by
    rintro x rfl
    exact hspecs x List.mem_cons_self
  have declared : ¬op.declaredSpec specs none = .ok out := by
    rw [declaredSpec_eq_ok_iff]
    rintro ⟨_, hnone⟩
    cases hnone
  have joined : op.broadcastSpec specs = .ok out → out.Storable := by
    intro hj
    obtain ⟨x, y, rfl, _, _, hb⟩ := broadcastSpec_eq_ok_iff.mp hj
    exact fits_broadcast hb (hspecs x (by simp)) (hspecs y (by simp))
  cases op with
  | add | subtract | multiply | divide => exact joined h
  | negative | exp | log | onesLike | zerosLike => exact sole (single_eq_ok_iff.mp h)
  | ones | zeros | customCall => exact absurd h declared
  | matmul =>
    obtain ⟨x, y, m, k, n, rfl, _, hx, hy, rfl⟩ := matmulSpec_eq_ok_iff.mp h
    have hm : m < indexBound := (hspecs x (by simp)).2 m (by simp [hx])
    have hn : n < indexBound := (hspecs y (by simp)).2 n (by simp [hy])
    refine ⟨show 2 < indexBound by decide, fun d hd => ?_⟩
    rcases List.mem_pair.mp hd with rfl | rfl
    · exact hm
    · exact hn
  | transpose perm =>
    obtain ⟨x, hx, hperm, rfl⟩ := transposeSpec_eq_ok_iff.mp h
    exact fits_permuted hperm (sole hx)
  | reshape dims =>
    obtain ⟨x, _, _, rfl⟩ := reshapeSpec_eq_ok_iff.mp h
    exact hop x.dtype
  | sum axes keepdims =>
    obtain ⟨x, hx, _, rfl⟩ := sumSpec_eq_ok_iff.mp h
    exact fits_reducedDims axes keepdims (sole hx)
  | softmax axis => exact sole (softmaxSpec_eq_ok_iff.mp h).1
  | softmaxCrossEntropy =>
    obtain ⟨x, y, _, _, _, _, rfl⟩ := crossEntropySpec_eq_ok_iff.mp h
    exact ⟨show 0 < indexBound by decide, fun d hd => absurd hd List.not_mem_nil⟩
  | collapseSumLike =>
    obtain ⟨x, rfl, _⟩ := collapseSpec_eq_ok_iff.mp h
    exact hspecs out (by simp)

/-- **Storable types** are stable. -/
theorem ValueType.stable_storable : Stable Storable where
  component := fun h => (storable_tuple.mp h).2
  dtype := fun _ h => h
  kept := fun axes h => fits_keptDims axes h
  result := Operation.storable_of_resultSpec

end TensorGraph
