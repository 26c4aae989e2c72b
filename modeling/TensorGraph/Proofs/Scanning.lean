/-
# TensorGraph.Proofs.Scanning -- cutting text that was put together

The text form is read by cutting, so for every kind of cut there is a condition under which it
undoes a concatenation. A text over which the search for a closing bracket passes
(`Matched`), or which the cut at commas leaves in one piece (`Unbroken`), is described by what the
search does in front of any further text; both conditions are kept by concatenation and by
brackets around the text, and they hold of texts without the characters in question.
-/
import Mathlib.Data.List.Basic
import TensorGraph.Text.Print
import TensorGraph.Text.Scan

namespace TensorGraph

open scoped CoreInstances

/-! ## Spans -/

section Spans

variable {α : Type} {p : α → Bool} {body rest : List α}

/-- A span ends where the first character stands that does not belong to it. -/
theorem takeWhile_append_of_boundary (inside : ∀ c ∈ body, p c = true)
    (boundary : ∀ c, rest.head? = some c → p c = false) : (body ++ rest).takeWhile p = body := by
  rw [List.takeWhile_append_of_pos inside]
  cases rest with
  | nil => simp
  | cons c rest => simp [boundary c rfl]

theorem dropWhile_append_of_boundary (inside : ∀ c ∈ body, p c = true)
    (boundary : ∀ c, rest.head? = some c → p c = false) : (body ++ rest).dropWhile p = rest := by
  rw [List.dropWhile_append_of_pos inside]
  cases rest with
  | nil => rfl
  | cons c rest => simp [boundary c rfl]

end Spans

/-! ## Blanks at the ends -/

/-- **`Solid`** -- a text that is not empty and neither starts nor ends with a blank. -/
structure Solid (s : List Char) : Prop where
  /-- There is a character. -/
  ne_nil : s ≠ []
  /-- The first one is no blank. -/
  head : ∀ c, s.head? = some c → isBlank c = false
  /-- The last one is no blank. -/
  last : ∀ c, s.getLast? = some c → isBlank c = false

theorem solid_of_forall {s : List Char} (hne : s ≠ []) (h : ∀ c ∈ s, isBlank c = false) :
    Solid s where
  ne_nil := hne
  head c hc := h c (List.mem_of_head? hc)
  last c hc := h c (List.mem_of_getLast? hc)

/-- Whatever stands between two solid texts. -/
theorem Solid.append {s t : List Char} (hs : Solid s) (ht : Solid t) (between : List Char) :
    Solid (s ++ between ++ t) where
  ne_nil := by simp [hs.ne_nil]
  head c hc := by
    obtain ⟨d, hd⟩ := Option.isSome_iff_exists.mp (List.isSome_head?.mpr hs.ne_nil)
    rw [List.append_assoc, List.head?_append, hd] at hc
    exact hs.head c (hd.trans hc)
  last c hc := by
    obtain ⟨d, hd⟩ := Option.isSome_iff_exists.mp (List.getLast?_isSome.mpr ht.ne_nil)
    rw [List.getLast?_append, hd] at hc
    exact ht.last c (hd.trans hc)

/-- A text between two characters that are no blanks. -/
theorem solid_wrap {o c : Char} (ho : isBlank o = false) (hc : isBlank c = false)
    (s : List Char) : Solid (o :: (s ++ [c])) := by
  have hone : ∀ x, isBlank x = false → Solid [x] := fun x hx =>
    solid_of_forall (List.cons_ne_nil x []) fun y hy => by rwa [List.mem_singleton.mp hy]
  have := (hone o ho).append (hone c hc) s
  simpa using this

/-- **Trimming** removes the blanks around a solid text. -/
theorem trim_eq {before s after : List Char} (hbefore : ∀ c ∈ before, isBlank c = true)
    (hs : Solid s) (hafter : ∀ c ∈ after, isBlank c = true) :
    trim (before ++ s ++ after) = s := by
  have hhead : ∀ c, (s ++ after).head? = some c → isBlank c = false := by
    intro c hc
    obtain ⟨d, hd⟩ := Option.isSome_iff_exists.mp (List.isSome_head?.mpr hs.ne_nil)
    rw [List.head?_append, hd] at hc
    exact hs.head c (hd.trans hc)
  have hlast : ∀ c, s.reverse.head? = some c → isBlank c = false := by
    intro c hc
    rw [List.head?_reverse] at hc
    exact hs.last c hc
  have hrev : ∀ c ∈ after.reverse, isBlank c = true := fun c hc =>
    hafter c (List.mem_reverse.mp hc)
  rw [trim, trimStart, List.append_assoc, dropWhile_append_of_boundary hbefore hhead, trimEnd,
    List.reverse_append, dropWhile_append_of_boundary hrev hlast, List.reverse_reverse]

theorem Solid.trim_eq {s : List Char} (hs : Solid s) : trim s = s := by
  simpa using TensorGraph.trim_eq (fun _ h => absurd h List.not_mem_nil) hs
    (fun _ h => absurd h List.not_mem_nil)

theorem Solid.trim_append {s : List Char} (hs : Solid s) {after : List Char}
    (h : ∀ c ∈ after, isBlank c = true) : trim (s ++ after) = s := by
  simpa using TensorGraph.trim_eq (fun _ h => absurd h List.not_mem_nil) hs h

theorem Solid.append_trim {s : List Char} (hs : Solid s) {before : List Char}
    (h : ∀ c ∈ before, isBlank c = true) : trim (before ++ s) = s := by
  simpa using TensorGraph.trim_eq h hs (fun _ h => absurd h List.not_mem_nil)

theorem Solid.trim_space {s : List Char} (hs : Solid s) : trim (' ' :: s) = s := by
  have hblank : ∀ c ∈ [' '], isBlank c = true := by decide
  exact hs.append_trim hblank

/-! ## Marks -/

theorem after?_eq_some_iff {word : String} {s rest : List Char} :
    after? word s = some rest ↔ word.toList ++ rest = s := List.isPrefixOf?_eq_some_iff_append_eq

/-- **A cut at a mark** that does not occur earlier. -/
theorem cutAtFirst_append {mark : Char} {before : List Char} (h : mark ∉ before)
    (after : List Char) : cutAtFirst mark (before ++ mark :: after) = some (before, after) := by
  induction before with
  | nil => simp [cutAtFirst]
  | cons c before ih =>
    rw [List.mem_cons, not_or] at h
    rw [List.cons_append, cutAtFirst, if_neg fun hc => h.1 hc.symm, ih h.2]
    rfl

theorem cutAtLastArrow_eq_none {s : List Char} (h : '-' ∉ s) : cutAtLastArrow s = none := by
  fun_induction cutAtLastArrow s with
  | case1 => simp at h
  | case2 => simp at h
  | case3 c cs hne ih =>
    rw [ih fun hm => h (List.mem_cons_of_mem c hm)]
    rfl
  | case4 => rfl

/-- **A cut at the last arrow**, when none follows. -/
theorem cutAtLastArrow_append (before : List Char) {after : List Char} (h : '-' ∉ after) :
    cutAtLastArrow (before ++ '-' :: '>' :: after) = some (before, after) := by
  have hnone := cutAtLastArrow_eq_none h
  have hhere : cutAtLastArrow ('-' :: '>' :: after) = some ([], after) := by
    rw [cutAtLastArrow, hnone]
  -- the induction is that of the search: arrows may stand before this one, and so may dashes
  fun_induction cutAtLastArrow before with
  | case1 cs _ _ _ ih =>
    rw [List.cons_append, List.cons_append, cutAtLastArrow, ih]
  | case2 cs _ ih =>
    rw [List.cons_append, List.cons_append, cutAtLastArrow, ih]
  | case3 c cs hne ih =>
    rw [List.cons_append, cutAtLastArrow, ih]
    · rfl
    · intro rest hc he
      cases cs with
      | nil => simp at he
      | cons d ds =>
        rw [List.cons_append, List.cons.injEq] at he
        exact hne ds hc (by rw [he.1])
  | case4 => exact hhere

/-! ## Brackets -/

/-- **`Matched`** -- a text over which the search for a closing bracket passes. -/
def Matched (opening close : Char) (s : List Char) : Prop :=
  ∀ depth tail, closing? opening close depth (s ++ tail) =
    (closing? opening close depth tail).map fun p => (s ++ p.1, p.2)

section Brackets

variable {o c : Char} {s t : List Char}

/-- The search passes over a character that is none of its brackets. -/
theorem closing?_other {x : Char} (ho : x ≠ o) (hc : x ≠ c) (depth : Nat) :
    closing? o c depth (x :: s) = (closing? o c depth s).map fun p => (x :: p.1, p.2) := by
  cases depth <;> simp [closing?, ho, hc]

/-- An opening bracket is open behind it. -/
theorem closing?_open (depth : Nat) :
    closing? o c depth (o :: s) = (closing? o c (depth + 1) s).map fun p => (o :: p.1, p.2) := by
  cases depth <;> simp [closing?]

theorem matched_nil : Matched o c [] := by
  intro depth tail
  cases h : closing? o c depth tail with
  | none => simp [h]
  | some p => simp [h]

theorem Matched.append (hs : Matched o c s) (ht : Matched o c t) : Matched o c (s ++ t) := by
  intro depth tail
  rw [List.append_assoc, hs, ht, Option.map_map]
  simp [Function.comp_def]

theorem matched_cons {x : Char} (hs : Matched o c s) (ho : x ≠ o) (hc : x ≠ c) :
    Matched o c (x :: s) := by
  intro depth tail
  rw [List.cons_append, closing?_other ho hc, hs, Option.map_map]
  simp [Function.comp_def]

theorem matched_of_notMem (ho : o ∉ s) (hc : c ∉ s) : Matched o c s := by
  induction s with
  | nil => exact matched_nil
  | cons x s ih =>
    rw [List.mem_cons, not_or] at ho hc
    exact matched_cons (ih ho.2 hc.2) (Ne.symm ho.1) (Ne.symm hc.1)

theorem matched_flatMap {α : Type} {xs : List α} {text : α → List Char}
    (h : ∀ x ∈ xs, Matched o c (text x)) : Matched o c (xs.flatMap text) := by
  induction xs with
  | nil => exact matched_nil
  | cons x xs ih =>
    rw [List.forall_mem_cons] at h
    rw [List.flatMap_cons]
    exact h.1.append (ih h.2)

/-- **Brackets around a text** over which the search passes. -/
theorem Matched.wrap (hne : o ≠ c) (hs : Matched o c s) : Matched o c (o :: (s ++ [c])) := by
  intro depth tail
  rw [List.cons_append, closing?_open, List.append_assoc, hs, List.singleton_append, closing?,
    if_neg (Ne.symm hne), if_pos rfl]
  simp only [Option.map_map]
  simp [Function.comp_def]

/-- **The closing bracket** stands behind a text over which the search passes. -/
theorem Matched.closing?_eq (hne : o ≠ c) (hs : Matched o c s) (rest : List Char) :
    closing? o c 0 (s ++ c :: rest) = some (s, rest) := by
  rw [hs, closing?, if_neg (Ne.symm hne), if_pos rfl]
  simp

end Brackets

/-! ## Commas -/

/-- **`Nested`** -- a text without outside commas once it stands between brackets. -/
def Nested (s : List Char) : Prop :=
  ∀ depth tail, 0 < depth → cutAtCommas depth (s ++ tail) =
    (s ++ (cutAtCommas depth tail).1, (cutAtCommas depth tail).2)

/-- **`Unbroken`** -- a text without outside commas. -/
def Unbroken (s : List Char) : Prop :=
  ∀ depth tail, cutAtCommas depth (s ++ tail) =
    (s ++ (cutAtCommas depth tail).1, (cutAtCommas depth tail).2)

/-- A bracket of any kind. -/
def IsBracket (c : Char) : Prop := c ∈ ['<', '(', '[', '>', ')', ']']

instance (c : Char) : Decidable (IsBracket c) := inferInstanceAs (Decidable (c ∈ _))

section Commas

variable {s t : List Char}

theorem Unbroken.nested (h : Unbroken s) : Nested s := fun depth tail _ => h depth tail

theorem Nested.append (hs : Nested s) (ht : Nested t) : Nested (s ++ t) := by
  intro depth tail hd
  rw [List.append_assoc, hs depth _ hd, ht depth tail hd, List.append_assoc]

theorem Unbroken.append (hs : Unbroken s) (ht : Unbroken t) : Unbroken (s ++ t) := by
  intro depth tail
  rw [List.append_assoc, hs, ht, List.append_assoc]

theorem depthAfter_of_not_isBracket {c : Char} (h : ¬IsBracket c) (depth : Nat) :
    depthAfter c depth = depth := by
  simp only [IsBracket, List.mem_cons, List.not_mem_nil, or_false, not_or] at h
  simp [depthAfter, h]

theorem nested_of_forall (h : ∀ c ∈ s, ¬IsBracket c) : Nested s := by
  induction s with
  | nil => exact fun _ _ _ => rfl
  | cons c s ih =>
    rw [List.forall_mem_cons] at h
    intro depth tail hd
    have hne : ¬(c = ',' ∧ depth = 0) := by omega
    rw [List.cons_append, cutAtCommas, if_neg hne, depthAfter_of_not_isBracket h.1,
      ih h.2 depth tail hd]
    rfl

theorem unbroken_of_forall (h : ∀ c ∈ s, ¬IsBracket c ∧ c ≠ ',') : Unbroken s := by
  induction s with
  | nil => exact fun _ _ => rfl
  | cons c s ih =>
    rw [List.forall_mem_cons] at h
    intro depth tail
    have hne : ¬(c = ',' ∧ depth = 0) := fun hc => h.1.2 hc.1
    rw [List.cons_append, cutAtCommas, if_neg hne, depthAfter_of_not_isBracket h.1.1,
      ih h.2 depth tail]
    rfl

/-- **Brackets around a text** shelter its commas. -/
theorem Nested.wrap {o c : Char} (ho : o ∈ ['<', '(', '[']) (hc : c ∈ ['>', ')', ']'])
    (hs : Nested s) : Unbroken (o :: (s ++ [c])) := by
  intro depth tail
  have hopen : depthAfter o depth = depth + 1 := by
    simp only [List.mem_cons, List.not_mem_nil, or_false] at ho
    simp [depthAfter, ho]
  have hclose : depthAfter c (depth + 1) = depth := by
    simp only [List.mem_cons, List.not_mem_nil, or_false] at hc
    rcases hc with rfl | rfl | rfl <;> simp [depthAfter]
  have hco : ¬(o = ',' ∧ depth = 0) := by
    rintro ⟨rfl, _⟩
    simp at ho
  have hcc : ¬(c = ',' ∧ depth + 1 = 0) := by omega
  rw [List.cons_append, cutAtCommas, if_neg hco, hopen, List.append_assoc,
    hs (depth + 1) _ (Nat.succ_pos depth), List.singleton_append, cutAtCommas, if_neg hcc, hclose]
  simp

end Commas

/-! ## Lists -/

/-- What holds of texts and of the separator, and is kept by concatenation, holds of the texts
with the separator in between. -/
theorem intercalate_of {P : List Char → Prop} {separator : List Char} {ts : List (List Char)}
    (hnil : P []) (hseparator : P separator) (happend : ∀ s t, P s → P t → P (s ++ t))
    (h : ∀ t ∈ ts, P t) : P (separator.intercalate ts) := by
  induction ts with
  | nil => exact hnil
  | cons t ts ih =>
    rw [List.forall_mem_cons] at h
    cases ts with
    | nil =>
      rw [List.intercalate_singleton]
      exact h.1
    | cons u us =>
      rw [List.intercalate_cons_cons]
      exact happend _ _ (happend _ _ h.1 hseparator) (ih h.2)

/-- Characters of separated texts are those of the texts and of the separator. -/
theorem intercalate_chars {P : Char → Prop} {separator : List Char} {ts : List (List Char)}
    (hseparator : ∀ c ∈ separator, P c) (h : ∀ t ∈ ts, ∀ c ∈ t, P c) :
    ∀ c ∈ separator.intercalate ts, P c :=
  intercalate_of (P := fun s => ∀ c ∈ s, P c) (by simp) hseparator
    (fun _ _ hs ht => List.forall_mem_append.mpr ⟨hs, ht⟩) h

/-- A list of solid texts is solid if there is one. -/
theorem solid_commaSeparated {ts : List (List Char)} (hne : ts ≠ []) (h : ∀ t ∈ ts, Solid t) :
    Solid (commaSeparated ts) := by
  induction ts with
  | nil => exact absurd rfl hne
  | cons t ts ih =>
    rw [List.forall_mem_cons] at h
    cases ts with
    | nil => simpa [commaSeparated] using h.1
    | cons u us =>
      rw [commaSeparated, List.intercalate_cons_cons]
      exact h.1.append (ih (List.cons_ne_nil u us) h.2) [',', ' ']

/-- Trimming takes nothing from a list of solid texts. -/
theorem trim_commaSeparated {ts : List (List Char)} (h : ∀ t ∈ ts, Solid t) :
    trim (commaSeparated ts) = commaSeparated ts := by
  by_cases hne : ts = []
  · rw [hne]
    rfl
  · exact (solid_commaSeparated hne h).trim_eq

theorem cutAtCommas_commaSeparated {t : List Char} {ts : List (List Char)}
    (h : ∀ t' ∈ t :: ts, Unbroken t') :
    cutAtCommas 0 (commaSeparated (t :: ts)) = (t, ts.map (' ' :: ·)) := by
  induction ts generalizing t with
  | nil =>
    have := h t List.mem_cons_self 0 []
    simpa [commaSeparated, cutAtCommas] using this
  | cons u us ih =>
    rw [List.forall_mem_cons] at h
    have hcut := ih h.2
    rw [commaSeparated, List.intercalate_cons_cons, List.append_assoc, h.1 0, ← commaSeparated]
    have hspace : cutAtCommas 0 (' ' :: commaSeparated (u :: us)) =
        (' ' :: u, us.map (' ' :: ·)) := by
      rw [cutAtCommas, if_neg (by decide), show depthAfter ' ' 0 = 0 from rfl, hcut]
    rw [List.cons_append, List.cons_append, List.nil_append, cutAtCommas, if_pos ⟨rfl, rfl⟩, hspace]
    simp

theorem keptItems_eq {t : List Char} {ts : List (List Char)}
    (h : ∀ t' ∈ t :: ts, trim t' ≠ []) : keptItems t ts = t :: ts := by
  induction ts generalizing t with
  | nil => simp [keptItems, h t List.mem_cons_self]
  | cons u us ih =>
    rw [List.forall_mem_cons] at h
    have hne : t.isEmpty = false := by
      cases t with
      | nil => exact absurd rfl h.1
      | cons c cs => rfl
    rw [keptItems, hne, ih h.2]
    rfl

/-- **A list of solid texts without outside commas** is read back. -/
theorem items_commaSeparated {ts : List (List Char)} (hu : ∀ t ∈ ts, Unbroken t)
    (hs : ∀ t ∈ ts, Solid t) : items (commaSeparated ts) = ts := by
  cases ts with
  | nil => rfl
  | cons t ts =>
    rw [items, cutAtCommas_commaSeparated hu]
    rw [List.forall_mem_cons] at hs
    have htrim : ∀ t' ∈ ts.map (' ' :: ·), trim t' ≠ [] := by
      intro t' ht'
      obtain ⟨u, hu, rfl⟩ := List.mem_map.mp ht'
      rw [(hs.2 u hu).trim_space]
      exact (hs.2 u hu).ne_nil
    have hkept : keptItems t (ts.map (' ' :: ·)) = t :: ts.map (' ' :: ·) := by
      refine keptItems_eq (List.forall_mem_cons.mpr ⟨?_, htrim⟩)
      rw [hs.1.trim_eq]
      exact hs.1.ne_nil
    simp only [hkept, List.map_cons, List.map_map, hs.1.trim_eq]
    congr 1
    refine (List.map_congr_left fun u hu => ?_).trans (List.map_id ts)
    exact (hs.2 u hu).trim_space

/-- The text before the first mark is split off. -/
theorem splitOn_append {mark : Char} {before : List Char} (h : mark ∉ before)
    (after : List Char) :
    (before ++ mark :: after).splitOn mark = before :: after.splitOn mark := by
  rw [List.splitOn, List.splitOnP_append_cons_of_forall_mem _ mark (by simp), ← List.splitOn]
  intro x hx
  refine beq_false_of_ne fun he => h ?_
  rwa [← he]

/-- Texts without commas are found between the commas. -/
theorem splitOn_commaSeparated {t : List Char} {ts : List (List Char)}
    (h : ∀ t' ∈ t :: ts, ',' ∉ t') :
    (commaSeparated (t :: ts)).splitOn ',' = t :: ts.map (' ' :: ·) := by
  induction ts generalizing t with
  | nil =>
    rw [commaSeparated, List.intercalate_singleton]
    exact List.splitOn_eq_singleton (h t List.mem_cons_self)
  | cons u us ih =>
    rw [List.forall_mem_cons] at h
    have hcons : commaSeparated (t :: u :: us) = t ++ ',' :: (' ' :: commaSeparated (u :: us)) := by
      rw [commaSeparated, List.intercalate_cons_cons]
      simp [commaSeparated]
    have hspace : (' ' :: commaSeparated (u :: us)).splitOn ',' =
        (' ' :: u) :: us.map (' ' :: ·) := by
      rw [List.splitOn, List.splitOnP_cons_eq_if_modifyHead, ← List.splitOn, ih h.2]
      simp
    rw [hcons, splitOn_append (h.1), hspace, List.map_cons]

/-! ## Lines -/

/-- A line without slashes has no comment. -/
theorem uncommented_eq {s : List Char} (h : '/' ∉ s) : uncommented s = s := by
  fun_induction uncommented s with
  | case1 => simp at h
  | case2 c cs _ ih => rw [ih fun hm => h (List.mem_cons_of_mem c hm)]
  | case3 => rfl

end TensorGraph
