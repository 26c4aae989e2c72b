/-
# TensorGraph.Proofs.Outcome -- computations that may fail

What it means for a sequence of steps to succeed: a chain succeeds when each link does, a
map over a list succeeds when it does at every element, and a fold keeps an invariant that
each of its steps keeps. Later modules take runs apart with these lemmas and do not unfold
the monad.
-/
import Mathlib.Data.List.Forall2

namespace TensorGraph

variable {ε ε' α β γ : Type}

/-! ## Chains -/

@[simp] theorem pure_eq_ok (a : α) : (pure a : Except ε α) = .ok a := rfl

@[simp] theorem throw_eq_error (e : ε) : (throw e : Except ε α) = .error e := rfl

@[simp] theorem ok_bind (a : α) (f : α → Except ε β) : (Except.ok a >>= f) = f a := rfl

@[simp] theorem error_bind (e : ε) (f : α → Except ε β) :
    (Except.error e >>= f) = .error e := rfl

/-- **A chain succeeds** when its first part does and the rest does from there. -/
theorem bind_eq_ok_iff {x : Except ε α} {f : α → Except ε β} {b : β} :
    x >>= f = .ok b ↔ ∃ a, x = .ok a ∧ f a = .ok b := by
  cases x with
  | error e => simp
  | ok a =>
    constructor
    · intro h
      exact ⟨a, rfl, h⟩
    · rintro ⟨a', ha, hf⟩
      cases ha
      exact hf

theorem map_eq_ok_iff {x : Except ε α} {f : α → β} {b : β} :
    x.map f = .ok b ↔ ∃ a, x = .ok a ∧ f a = b := by
  cases x with
  | error e => simp [Except.map]
  | ok a =>
    constructor
    · intro h
      exact ⟨a, rfl, Except.ok.inj h⟩
    · rintro ⟨a', ha, hf⟩
      cases ha
      exact congrArg _ hf

theorem mapError_eq_ok_iff {x : Except ε α} {f : ε → ε'} {a : α} :
    x.mapError f = .ok a ↔ x = .ok a := by
  cases x with
  | error e => simp [Except.mapError]
  | ok a' => exact ⟨fun h => congrArg _ (Except.ok.inj h), fun h => congrArg _ (Except.ok.inj h)⟩

theorem exists_eq_ok_of_isOk {x : Except ε α} (h : x.isOk = true) : ∃ a, x = .ok a := by
  cases x with
  | ok a => exact ⟨a, rfl⟩
  | error e => cases h

/-- What is checked of a result holds of the result. -/
theorem of_toOption_all {p : α → Prop} [DecidablePred p] {x : Except ε α} {a : α}
    (ha : x = .ok a) (h : x.toOption.all (fun a => decide (p a)) = true) : p a := by
  rw [ha] at h
  exact of_decide_eq_true h

/-! ## Lists of computations -/

/-- Lists that are related element by element relate each element of the first. -/
theorem forall₂_exists_of_mem {R : α → β → Prop} {xs : List α} {ys : List β}
    (h : List.Forall₂ R xs ys) {x : α} (hx : x ∈ xs) : ∃ y ∈ ys, R x y := by
  induction h with
  | nil => exact absurd hx List.not_mem_nil
  | @cons x' y xs ys hxy _ ih =>
    rcases List.mem_cons.mp hx with rfl | hx
    · exact ⟨y, List.mem_cons_self, hxy⟩
    · obtain ⟨z, hz, hxz⟩ := ih hx
      exact ⟨z, List.mem_cons_of_mem y hz, hxz⟩

theorem exists_forall₂ {R : α → β → Prop} {xs : List α} (h : ∀ x ∈ xs, ∃ y, R x y) :
    ∃ ys, List.Forall₂ R xs ys := by
  induction xs with
  | nil => exact ⟨[], .nil⟩
  | cons x xs ih =>
    obtain ⟨y, hy⟩ := h x List.mem_cons_self
    obtain ⟨ys, hys⟩ := ih fun x' hx' => h x' (List.mem_cons_of_mem x hx')
    exact ⟨y :: ys, .cons hy hys⟩

/-- Relations between lists are composed element by element. -/
theorem forall₂_comp {R : α → β → Prop} {S : β → γ → Prop} {T : α → γ → Prop} {xs : List α}
    {ys : List β} {zs : List γ} (hxy : List.Forall₂ R xs ys) (hyz : List.Forall₂ S ys zs)
    (h : ∀ x y z, R x y → S y z → T x z) : List.Forall₂ T xs zs := by
  induction hxy generalizing zs with
  | nil =>
    cases hyz
    exact .nil
  | cons hx _ ih =>
    obtain ⟨z, zs, hy, hys, rfl⟩ := List.forall₂_cons_left_iff.mp hyz
    exact .cons (h _ _ _ hx hy) (ih hys)

/-- What is related to a list of one. -/
theorem forall₂_singleton_right_iff {R : α → β → Prop} {xs : List α} {y : β} :
    List.Forall₂ R xs [y] ↔ ∃ x, xs = [x] ∧ R x y := by
  constructor
  · intro h
    obtain ⟨x, rest, hx, hrest, rfl⟩ := List.forall₂_cons_right_iff.mp h
    exact ⟨x, by rw [List.forall₂_nil_right_iff.mp hrest], hx⟩
  · rintro ⟨x, rfl, hx⟩
    exact .cons hx .nil

/-- What is related to a list of two. -/
theorem forall₂_pair_right_iff {R : α → β → Prop} {xs : List α} {y z : β} :
    List.Forall₂ R xs [y, z] ↔ ∃ x w, xs = [x, w] ∧ R x y ∧ R w z := by
  constructor
  · intro h
    obtain ⟨x, rest, hx, hrest, rfl⟩ := List.forall₂_cons_right_iff.mp h
    obtain ⟨w, rfl, hw⟩ := forall₂_singleton_right_iff.mp hrest
    exact ⟨x, w, rfl, hx, hw⟩
  · rintro ⟨x, w, rfl, hx, hw⟩
    exact .cons hx (.cons hw .nil)

theorem mapM_cons_eq_ok_iff {f : α → Except ε β} {x : α} {xs : List α} {zs : List β} :
    (x :: xs).mapM f = .ok zs ↔ ∃ y ys, f x = .ok y ∧ xs.mapM f = .ok ys ∧ zs = y :: ys := by
  rw [List.mapM_cons, bind_eq_ok_iff]
  constructor
  · rintro ⟨y, hy, h⟩
    obtain ⟨ys, hys, hz⟩ := bind_eq_ok_iff.mp h
    exact ⟨y, ys, hy, hys, (Except.ok.inj hz).symm⟩
  · rintro ⟨y, ys, hy, hys, rfl⟩
    exact ⟨y, hy, bind_eq_ok_iff.mpr ⟨ys, hys, rfl⟩⟩

/-- **A map succeeds** when it does at each element. -/
theorem mapM_eq_ok_iff {f : α → Except ε β} {xs : List α} {ys : List β} :
    xs.mapM f = .ok ys ↔ List.Forall₂ (fun x y => f x = .ok y) xs ys := by
  induction xs generalizing ys with
  | nil =>
    rw [List.mapM_nil, List.forall₂_nil_left_iff]
    exact ⟨fun h => (Except.ok.inj h).symm, fun h => congrArg _ h.symm⟩
  | cons x xs ih =>
    rw [mapM_cons_eq_ok_iff, List.forall₂_cons_left_iff]
    constructor
    · rintro ⟨y, zs, hy, hzs, rfl⟩
      exact ⟨y, zs, hy, ih.mp hzs, rfl⟩
    · rintro ⟨y, zs, hy, hzs, rfl⟩
      exact ⟨y, zs, hy, ih.mpr hzs, rfl⟩

theorem mapM_eq_ok_map {f : α → Except ε β} {g : α → β} {xs : List α}
    (h : ∀ x ∈ xs, f x = .ok (g x)) : xs.mapM f = .ok (xs.map g) := by
  rw [mapM_eq_ok_iff, List.forall₂_map_right_iff, List.forall₂_same]
  exact h

/-- What every element is written as is read back element by element. -/
theorem mapM_map_eq_ok {f : β → Except ε α} {g : α → β} {xs : List α}
    (h : ∀ x ∈ xs, f (g x) = .ok x) : (xs.map g).mapM f = .ok xs := by
  rw [List.mapM_map]
  exact (mapM_eq_ok_map (g := id) h).trans (congrArg _ (List.map_id xs))

/-- A check of every element succeeds when each does. -/
theorem forM_eq_ok_iff {f : α → Except ε Unit} {xs : List α} :
    xs.forM f = .ok () ↔ ∀ x ∈ xs, f x = .ok () := by
  induction xs with
  | nil => exact ⟨fun _ _ hx => absurd hx List.not_mem_nil, fun _ => rfl⟩
  | cons x xs ih =>
    rw [show (x :: xs).forM f = (f x >>= fun _ => xs.forM f) from rfl, bind_eq_ok_iff,
      List.forall_mem_cons]
    constructor
    · rintro ⟨⟨⟩, hx, hxs⟩
      exact ⟨hx, ih.mp hxs⟩
    · rintro ⟨hx, hxs⟩
      exact ⟨(), hx, ih.mpr hxs⟩

/-! ## Folds -/

theorem foldlM_cons_eq_ok_iff {f : β → α → Except ε β} {x : α} {xs : List α} {b c : β} :
    (x :: xs).foldlM f b = .ok c ↔ ∃ b', f b x = .ok b' ∧ xs.foldlM f b' = .ok c := by
  rw [List.foldlM_cons, bind_eq_ok_iff]

theorem foldlM_append_eq_ok_iff {f : β → α → Except ε β} {xs ys : List α} {b c : β} :
    (xs ++ ys).foldlM f b = .ok c ↔ ∃ b', xs.foldlM f b = .ok b' ∧ ys.foldlM f b' = .ok c := by
  rw [List.foldlM_append, bind_eq_ok_iff]

/-- A fold whose steps do not fail is the fold of their results. -/
theorem foldlM_eq_ok_foldl {f : β → α → Except ε β} {g : β → α → β} {l : List α}
    (h : ∀ x ∈ l, ∀ b, f b x = .ok (g b x)) (b : β) : l.foldlM f b = .ok (l.foldl g b) := by
  induction l generalizing b with
  | nil => rfl
  | cons x l ih =>
    rw [List.forall_mem_cons] at h
    rw [List.foldlM_cons, h.1 b, ok_bind, List.foldl_cons]
    exact ih h.2 _

/-- **A fold succeeds** when each step does from every state that satisfies an invariant,
and then its result satisfies the invariant. -/
theorem exists_foldlM_eq_ok (P : β → Prop) {f : β → α → Except ε β} {l : List α} {b : β}
    (hb : P b) (step : ∀ b, P b → ∀ x ∈ l, ∃ c, f b x = .ok c ∧ P c) :
    ∃ c, l.foldlM f b = .ok c ∧ P c := by
  induction l generalizing b with
  | nil => exact ⟨b, rfl, hb⟩
  | cons x l ih =>
    obtain ⟨b', hx, hb'⟩ := step b hb x List.mem_cons_self
    obtain ⟨c, hc, hInv⟩ := ih hb' fun b hb y hy => step b hb y (List.mem_cons_of_mem x hy)
    exact ⟨c, foldlM_cons_eq_ok_iff.mpr ⟨b', hx, hc⟩, hInv⟩

/-! ## Failures -/

/-- **`FailsWith`** -- a computation all of whose failures are of a kind. -/
def FailsWith (P : ε → Prop) (x : Except ε α) : Prop := ∀ e, x = .error e → P e

namespace FailsWith

variable {P Q : ε → Prop}

theorem of_ok (a : α) : FailsWith P (.ok a : Except ε α) := by
  intro e h
  cases h

theorem of_error {e : ε} (he : P e) : FailsWith P (.error e : Except ε α) := by
  intro e' h
  cases h
  exact he

theorem mono {x : Except ε α} (hx : FailsWith P x) (h : ∀ e, P e → Q e) : FailsWith Q x :=
  fun e he => h e (hx e he)

/-- **A chain fails** as its first part does, or as the rest does from there. -/
theorem bind {x : Except ε α} {f : α → Except ε β} (hx : FailsWith P x)
    (hf : ∀ a, x = .ok a → FailsWith P (f a)) : FailsWith P (x >>= f) := by
  intro e he
  cases x with
  | error e' =>
    cases he
    exact hx e rfl
  | ok a => exact hf a rfl e he

theorem map {x : Except ε α} (f : α → β) (hx : FailsWith P x) : FailsWith P (x.map f) := by
  intro e he
  cases x with
  | error e' =>
    cases he
    exact hx e rfl
  | ok a => cases he

theorem mapError {x : Except ε' α} {f : ε' → ε} (hf : ∀ e, P (f e)) :
    FailsWith P (x.mapError f) := by
  cases x with
  | error e => exact of_error (hf e)
  | ok a => exact of_ok a

theorem mapM {f : α → Except ε β} {xs : List α} (hf : ∀ x ∈ xs, FailsWith P (f x)) :
    FailsWith P (xs.mapM f) := by
  induction xs with
  | nil => exact of_ok []
  | cons x xs ih =>
    rw [List.forall_mem_cons] at hf
    rw [List.mapM_cons]
    exact hf.1.bind fun y _ => (ih hf.2).bind fun ys _ => of_ok (y :: ys)

theorem forM {f : α → Except ε Unit} {xs : List α} (hf : ∀ x ∈ xs, FailsWith P (f x)) :
    FailsWith P (xs.forM f) := by
  induction xs with
  | nil => exact of_ok ()
  | cons x xs ih =>
    rw [List.forall_mem_cons] at hf
    exact hf.1.bind fun _ _ => ih hf.2

end FailsWith

/-! ## Results that carry over -/

theorem mapM_congr {f g : α → Except ε β} {xs : List α} (h : ∀ x ∈ xs, f x = g x) :
    xs.mapM f = xs.mapM g := by
  induction xs with
  | nil => rfl
  | cons x xs ih =>
    rw [List.forall_mem_cons] at h
    rw [List.mapM_cons, List.mapM_cons, h.1, ih h.2]

/-- **`Below`** -- a computation whose result, if it has one, another has as well. -/
def Below (x y : Except ε α) : Prop := ∀ a, x = .ok a → y = .ok a

namespace Below

theorem refl (x : Except ε α) : Below x x := fun _ h => h

theorem of_eq {x y : Except ε α} (h : y = x) : Below x y := fun _ hx => h.trans hx

/-- **Chains** carry over when their first parts do and the rests do from its result. -/
theorem bind {x y : Except ε α} {f g : α → Except ε β} (h : Below x y)
    (hfg : ∀ a, x = .ok a → Below (f a) (g a)) : Below (x >>= f) (y >>= g) := by
  intro b hb
  obtain ⟨a, hx, hf⟩ := bind_eq_ok_iff.mp hb
  exact bind_eq_ok_iff.mpr ⟨a, h a hx, hfg a hx b hf⟩

theorem map {x y : Except ε α} (f : α → β) (h : Below x y) : Below (x.map f) (y.map f) := by
  intro b hb
  obtain ⟨a, hx, hf⟩ := map_eq_ok_iff.mp hb
  exact map_eq_ok_iff.mpr ⟨a, h a hx, hf⟩

theorem mapError {x y : Except ε α} (f : ε → ε') (h : Below x y) :
    Below (x.mapError f) (y.mapError f) := fun a hx =>
  mapError_eq_ok_iff.mpr (h a (mapError_eq_ok_iff.mp hx))

theorem mapM {f g : α → Except ε β} {xs : List α} (h : ∀ x ∈ xs, Below (f x) (g x)) :
    Below (xs.mapM f) (xs.mapM g) := by
  induction xs with
  | nil => exact refl _
  | cons x xs ih =>
    rw [List.forall_mem_cons] at h
    rw [List.mapM_cons, List.mapM_cons]
    exact h.1.bind fun _ _ => (ih h.2).bind fun _ _ => refl _

/-- **Folds** carry over when their steps do, from every state with an invariant that the steps
keep. -/
theorem foldlM (P : β → Prop) {f g : β → α → Except ε β} {xs : List α} {b : β} (hb : P b)
    (h : ∀ b, P b → ∀ x ∈ xs, Below (f b x) (g b x) ∧ ∀ c, f b x = .ok c → P c) :
    Below (xs.foldlM f b) (xs.foldlM g b) := by
  induction xs generalizing b with
  | nil => exact refl _
  | cons x xs ih =>
    obtain ⟨hx, hkeep⟩ := h b hb x List.mem_cons_self
    rw [List.foldlM_cons, List.foldlM_cons]
    exact hx.bind fun c hc =>
      ih (hkeep c hc) fun b hb y hy => h b hb y (List.mem_cons_of_mem x hy)

end Below

/-! ## Two computations side by side -/

/-- **`Agree`** -- two computations that succeed together, with related results. Why either
of them fails does not matter. -/
def Agree (R : α → β → Prop) (x : Except ε α) (y : Except ε' β) : Prop :=
  (∀ a, x = .ok a → ∃ b, y = .ok b ∧ R a b) ∧ ∀ b, y = .ok b → ∃ a, x = .ok a ∧ R a b

theorem Agree.of_ok {R : α → β → Prop} {a : α} {b : β} (h : R a b) :
    Agree R (.ok a : Except ε α) (.ok b : Except ε' β) := by
  constructor
  · intro a' ha
    cases ha
    exact ⟨b, rfl, h⟩
  · intro b' hb
    cases hb
    exact ⟨a, rfl, h⟩

theorem Agree.mono {R S : α → β → Prop} {x : Except ε α} {y : Except ε' β} (h : Agree R x y)
    (hRS : ∀ a b, R a b → S a b) : Agree S x y := by
  constructor
  · intro a hx
    obtain ⟨b, hy, hab⟩ := h.1 a hx
    exact ⟨b, hy, hRS a b hab⟩
  · intro b hy
    obtain ⟨a, hx, hab⟩ := h.2 b hy
    exact ⟨a, hx, hRS a b hab⟩

/-- **Chains agree** when their first parts do and the rests do from related results. -/
theorem Agree.bind {α' β' : Type} {R : α → β → Prop} {S : α' → β' → Prop} {x : Except ε α}
    {y : Except ε' β} {f : α → Except ε α'} {g : β → Except ε' β'} (h : Agree R x y)
    (hfg : ∀ a b, x = .ok a → y = .ok b → R a b → Agree S (f a) (g b)) :
    Agree S (x >>= f) (y >>= g) := by
  constructor
  · intro c hc
    obtain ⟨a, hx, hf⟩ := bind_eq_ok_iff.mp hc
    obtain ⟨b, hy, hab⟩ := h.1 a hx
    obtain ⟨d, hd, hcd⟩ := (hfg a b hx hy hab).1 c hf
    exact ⟨d, bind_eq_ok_iff.mpr ⟨b, hy, hd⟩, hcd⟩
  · intro d hd
    obtain ⟨b, hy, hg⟩ := bind_eq_ok_iff.mp hd
    obtain ⟨a, hx, hab⟩ := h.2 b hy
    obtain ⟨c, hc, hcd⟩ := (hfg a b hx hy hab).2 d hg
    exact ⟨c, bind_eq_ok_iff.mpr ⟨a, hx, hc⟩, hcd⟩

end TensorGraph
