/-
# TensorGraph.Proofs.Documents -- documents are read back from their text

A document spells a list of tokens (`Json.spell`). Its text is cut into these tokens, whatever
follows it that no number or word can swallow (`Json.tokens_render`): strings because the escapes
of their characters are undone one after the other, numbers because they are written without a
leading zero. And a run of the reader over these tokens completes the document inside whatever
containers are open (`JsonState.run_spell`).
-/
import TensorGraph.Json.Printer
import TensorGraph.Json.Reader
import TensorGraph.Proofs.Numerals

namespace TensorGraph

/-! ## Strings -/

namespace JsonToken

theorem hexDigit?_digitChar (n : Fin 16) : hexDigit? (Nat.digitChar n) = some n.val := by
  revert n
  decide

theorem hexDigit?_hexChar (n : Nat) : hexDigit? (hexChar n) = some (n % 16) :=
  hexDigit?_digitChar ⟨n % 16, Nat.mod_lt _ (by decide)⟩

/-- Digits are neither quotes nor backslashes. -/
theorem hexChar_ne (n : Nat) : hexChar n ≠ '"' ∧ hexChar n ≠ '\\' := by
  have h : ∀ k : Fin 16, Nat.digitChar k ≠ '"' ∧ Nat.digitChar k ≠ '\\' := by decide
  exact h ⟨n % 16, Nat.mod_lt _ (by decide)⟩

/-- The raw text of a string goes on over a character that is not special. -/
theorem cutString_cons {c : Char} (hq : c ≠ '"') (hb : c ≠ '\\') (s : List Char) :
    cutString (c :: s) = (cutString s).map fun (raw, after) => (c :: raw, after) := by
  rw [cutString]
  · exact hq
  · intro d rest h
    exact absurd h hb

/-- **Escapes** are of three kinds: a backslash and one character, the mark `u` and four digits, or
the character itself. -/
theorem escapeChar_cases (c : Char) :
    (∃ e, e ≠ 'u' ∧ shortEscape? e = some c ∧ escapeChar c = ['\\', e]) ∨
      (c.toNat < 32 ∧
        escapeChar c = ['\\', 'u', '0', '0', hexChar (c.toNat / 16), hexChar c.toNat]) ∨
      (c ≠ '"' ∧ c ≠ '\\' ∧ 32 ≤ c.toNat ∧ escapeChar c = [c]) := by
  have short : ∀ d e, e ≠ 'u' → shortEscape? e = some d → escapeChar d = ['\\', e] → c = d →
      ∃ e, e ≠ 'u' ∧ shortEscape? e = some c ∧ escapeChar c = ['\\', e] := by
    rintro d e hu hs he rfl
    exact ⟨e, hu, hs, he⟩
  by_cases hq : c = '"'
  · exact .inl (short '"' '"' (by decide) rfl rfl hq)
  by_cases hb : c = '\\'
  · exact .inl (short '\\' '\\' (by decide) rfl rfl hb)
  by_cases hn : c = '\n'
  · exact .inl (short '\n' 'n' (by decide) rfl rfl hn)
  by_cases hr : c = '\x0d'
  · exact .inl (short '\x0d' 'r' (by decide) rfl rfl hr)
  by_cases ht : c = '\t'
  · exact .inl (short '\t' 't' (by decide) rfl rfl ht)
  by_cases hback : c = '\x08'
  · exact .inl (short '\x08' 'b' (by decide) rfl rfl hback)
  by_cases hfeed : c = '\x0c'
  · exact .inl (short '\x0c' 'f' (by decide) rfl rfl hfeed)
  rw [escapeChar, if_neg hq, if_neg hb, if_neg hn, if_neg hr, if_neg ht, if_neg hback, if_neg hfeed]
  by_cases hlow : c.toNat < 32
  · exact .inr (.inl ⟨hlow, if_pos hlow⟩)
  · exact .inr (.inr ⟨hq, hb, Nat.le_of_not_lt hlow, if_neg hlow⟩)

/-- The raw text of a string goes on over an escaped character. -/
theorem cutString_escapeChar (c : Char) (s : List Char) :
    cutString (escapeChar c ++ s) =
      (cutString s).map fun (raw, after) => (escapeChar c ++ raw, after) := by
  rcases escapeChar_cases c with ⟨e, _, _, he⟩ | ⟨_, he⟩ | ⟨hq, hb, _, he⟩
  · rw [he]
    rfl
  · have h₁ := hexChar_ne (c.toNat / 16)
    have h₂ := hexChar_ne c.toNat
    rw [he, List.cons_append, List.cons_append, cutString, List.cons_append, List.cons_append,
      List.cons_append, List.cons_append, List.nil_append,
      cutString_cons (by decide) (by decide), cutString_cons (by decide) (by decide),
      cutString_cons h₁.1 h₁.2, cutString_cons h₂.1 h₂.2]
    simp only [Option.map_map]
    rfl
  · rw [he]
    exact cutString_cons hq hb s

/-- **`Denotes`** -- a part of a string stands for a character. -/
def StringPart.Denotes (part : StringPart) (c : Char) : Prop :=
  part = .char c ∨ part = .unit c.toNat ∧ c.toNat < 32

/-- The escape of a character is a part that stands for it. -/
theorem exists_stringParts_escapeChar (c : Char) :
    ∃ part : StringPart, part.Denotes c ∧
      ∀ s, stringParts (escapeChar c ++ s) = (stringParts s).map (part :: ·) := by
  rcases escapeChar_cases c with ⟨e, hu, hs, he⟩ | ⟨hlow, he⟩ | ⟨_, hb, hlow, he⟩
  · refine ⟨.char c, .inl rfl, fun s => ?_⟩
    rw [he, List.cons_append, List.cons_append, List.nil_append, stringParts, hs]
    · cases stringParts s <;> rfl
    · rintro _ _ _ _ _ rfl
      exact absurd rfl hu
  · refine ⟨.unit c.toNat, .inr ⟨rfl, hlow⟩, fun s => ?_⟩
    have hvalue : 4096 * 0 + 256 * 0 + 16 * (c.toNat / 16 % 16) + c.toNat % 16 = c.toNat := by
      omega
    have hzero : hexDigit? '0' = some 0 := rfl
    rw [he]
    show stringParts ('\\' :: 'u' :: '0' :: '0' :: hexChar (c.toNat / 16) ::
      hexChar c.toNat :: s) = _
    rw [stringParts, hzero, hexDigit?_hexChar, hexDigit?_hexChar]
    cases stringParts s with
    | none => rfl
    | some parts => exact congrArg (fun n => some (StringPart.unit n :: parts)) hvalue
  · refine ⟨.char c, .inl rfl, fun s => ?_⟩
    have hplain : ¬(c.toNat < 32 ∨ c = '\\') := not_or.mpr ⟨Nat.not_lt.mpr hlow, hb⟩
    rw [he, List.singleton_append, stringParts, if_neg hplain]
    · rintro _ _ _ _ _ rfl
      exact absurd rfl hb
    · rintro _ _ rfl
      exact absurd rfl hb

/-- A part that stands for a character puts it in front; it is no half of a pair. -/
theorem joinParts_cons {part : StringPart} {c : Char} (h : part.Denotes c)
    (parts : List StringPart) : joinParts (part :: parts) = (joinParts parts).map (c :: ·) := by
  rcases h with rfl | ⟨rfl, hlow⟩
  · rfl
  · have hhigh : isHighSurrogate c.toNat = false := by
      simp only [isHighSurrogate, Bool.and_eq_false_iff, decide_eq_false_iff_not]
      omega
    have hlower : isLowSurrogate c.toNat = false := by
      simp only [isLowSurrogate, Bool.and_eq_false_iff, decide_eq_false_iff_not]
      omega
    cases parts with
    | nil => simp [joinParts, hhigh, hlower]
    | cons next parts =>
      cases next with
      | char d => simp [joinParts, hhigh, hlower]
      | unit v => simp [joinParts, hhigh, hlower]

/-- **The escapes of a text** spell the text. -/
theorem ofRawString_escape (text : List Char) :
    ofRawString (text.flatMap escapeChar) = some (.string (some (String.ofList text))) := by
  suffices h : ∃ parts, stringParts (text.flatMap escapeChar) = some parts ∧
      joinParts parts = some text by
    obtain ⟨parts, hparts, htext⟩ := h
    rw [ofRawString, hparts, Option.map_some, htext, Option.map_some]
  induction text with
  | nil => exact ⟨[], rfl, rfl⟩
  | cons c text ih =>
    obtain ⟨parts, hparts, htext⟩ := ih
    obtain ⟨part, hpart, hescape⟩ := exists_stringParts_escapeChar c
    refine ⟨part :: parts, ?_, ?_⟩
    · rw [List.flatMap_cons, hescape, hparts, Option.map_some]
    · rw [joinParts_cons hpart, htext, Option.map_some]

theorem cutString_escape (text rest : List Char) :
    cutString (text.flatMap escapeChar ++ '"' :: rest) = some (text.flatMap escapeChar, rest) := by
  induction text with
  | nil => rfl
  | cons c text ih =>
    rw [List.flatMap_cons, List.append_assoc, cutString_escapeChar, ih, Option.map_some]

/-! ## Tokens -/

theorem tokens_blank {c : Char} (h : isJsonBlank c = true) (s : List Char) :
    tokens (c :: s) = tokens s := by
  rw [tokens, if_pos h]

theorem tokens_newLine (level : Nat) (s : List Char) : tokens (newLine level ++ s) = tokens s := by
  rw [newLine, List.cons_append, tokens_blank (by decide)]
  generalize 2 * level = n
  induction n with
  | zero => rfl
  | succ n ih => rw [List.replicate_succ, List.cons_append, tokens_blank (by decide), ih]

theorem tokens_mark {c : Char} (mark : JsonToken) (h : ofMark? c = some mark)
    (hb : isJsonBlank c = false) (hq : c ≠ '"') (s : List Char) :
    tokens (c :: s) = (tokens s).map (mark :: ·) := by
  rw [tokens, if_neg (by rw [hb]; exact Bool.false_ne_true), if_neg hq, h]

/-- **A string** is one token. -/
theorem tokens_quoted (text : String) (s : List Char) :
    tokens (quoted text ++ s) = (tokens s).map (.string (some text) :: ·) := by
  have hcut : cutString (text.toList.flatMap escapeChar ++ ['"'] ++ s) =
      some (text.toList.flatMap escapeChar, s) := by
    rw [List.append_assoc]
    exact cutString_escape text.toList s
  rw [quoted, List.cons_append, tokens, if_neg (by decide), if_pos rfl]
  split
  · next h =>
    rw [hcut] at h
    cases h
  · next raw rest h =>
    rw [hcut] at h
    cases h
    rw [ofRawString_escape, String.ofList_toList]
    cases tokens s <;> rfl

/-- **`Stops`** -- no number and no word goes on into the text. -/
def Stops (s : List Char) : Prop :=
  ∀ c, s.head? = some c → isNumberChar c = false ∧ c.isAlpha = false

theorem stops_nil : Stops [] := by
  intro c h
  cases h

theorem stops_cons {c : Char} (h : isNumberChar c = false ∧ c.isAlpha = false) (s : List Char) :
    Stops (c :: s) := by
  rintro _ ⟨⟩
  exact h

/-- **A number or word** is one token, where it stops. -/
theorem tokens_span (c : Char) (text : List Char) {s : List Char} {token : JsonToken}
    (hblank : isJsonBlank c = false) (hquote : c ≠ '"') (hmark : ofMark? c = none)
    (htext : ∀ d ∈ text, (if isNumberChar c then isNumberChar else Char.isAlpha) d = true)
    (htoken : (if isNumberChar c then ofNumber (c :: text) else ofWord (c :: text)) = some token)
    (hs : Stops s) : tokens (c :: (text ++ s)) = (tokens s).map (token :: ·) := by
  have hstop : ∀ d, s.head? = some d →
      (if isNumberChar c then isNumberChar else Char.isAlpha) d = false := by
    intro d hd
    obtain ⟨hnumber, halpha⟩ := hs d hd
    split
    · exact hnumber
    · exact halpha
  rw [tokens, if_neg (by rw [hblank]; exact Bool.false_ne_true), if_neg hquote, hmark]
  dsimp only
  rw [takeWhile_append_of_boundary htext hstop, dropWhile_append_of_boundary htext hstop]
  split
  · next hnumber =>
    rw [if_pos hnumber] at htoken
    rw [htoken]
    cases tokens s <;> rfl
  · next hword =>
    rw [if_neg hword] at htoken
    rw [htoken]
    cases tokens s <;> rfl

theorem head?_toDigits {n : Nat} (h : 0 < n) : (Nat.toDigits 10 n).head? ≠ some '0' := by
  induction n using Nat.strongRecOn with
  | ind n ih =>
    by_cases hn : n < 10
    · have hdigit : ∀ k : Fin 10, 0 < k.val → Nat.digitChar k ≠ '0' := by decide
      rw [Nat.toDigits_of_lt_base hn]
      exact fun hc => hdigit ⟨n, hn⟩ h (Option.some.inj hc)
    · have hhead := ih (n / 10) (by omega) (by omega)
      obtain ⟨d, ds, hd⟩ :=
        List.exists_cons_of_ne_nil (Nat.toDigits_ne_nil (n := n / 10) (b := 10))
      rw [hd] at hhead
      rw [Nat.toDigits_of_base_le (by decide) (by omega), hd]
      exact hhead

/-- The digits of a number are a whole part: only zero starts with a zero. -/
theorem isWholePart_toDigits (n : Nat) : isWholePart (Nat.toDigits 10 n) = true := by
  have hall : (Nat.toDigits 10 n).all Char.isDigit = true :=
    List.all_eq_true.mpr (allDigits_toDigits n)
  rcases Nat.eq_zero_or_pos n with rfl | hn
  · rfl
  · simp [isWholePart, hall, Nat.toDigits_ne_nil, head?_toDigits hn]

theorem isNumberChar_of_isDigit {c : Char} (h : c.isDigit = true) : isNumberChar c = true := by
  simp [isNumberChar, h]

/-- **Digits** are the token of their number. -/
theorem ofNumber_toDigits (n : Nat) : ofNumber (Nat.toDigits 10 n) = some (.number (some n)) := by
  have hdigits := allDigits_toDigits n
  have hleading : leadingDigits (Nat.toDigits 10 n) = (Nat.toDigits 10 n, []) := by
    have hstop : ∀ c, ([] : List Char).head? = some c → c.isDigit = false := by simp
    have h := leadingDigits_append hdigits hstop
    rwa [List.append_nil] at h
  have hwhole := isWholePart_toDigits n
  have hvalue := digitsValue_toDigits n
  have hrest : isFractionPart [] = true := rfl
  revert hdigits hleading hwhole hvalue
  generalize Nat.toDigits 10 n = s
  intro hdigits hleading hwhole hvalue
  cases s with
  | nil => cases hwhole
  | cons c text =>
    have hsign : c ≠ '-' := by
      rintro rfl
      exact absurd (hdigits '-' List.mem_cons_self) (by decide)
    simp [ofNumber, hsign, hleading, hwhole, hrest, hvalue]

theorem tokens_toDigits (n : Nat) {s : List Char} (hs : Stops s) :
    tokens (Nat.toDigits 10 n ++ s) = (tokens s).map (.number (some n) :: ·) := by
  have hdigits := allDigits_toDigits n
  have htoken := ofNumber_toDigits n
  obtain ⟨c, text, ht⟩ := List.exists_cons_of_ne_nil (Nat.toDigits_ne_nil (n := n) (b := 10))
  rw [ht] at hdigits htoken ⊢
  obtain ⟨hc, htext⟩ := List.forall_mem_cons.mp hdigits
  have hnumber := isNumberChar_of_isDigit hc
  have distinct : ∀ d : Char, d.isDigit = false → c ≠ d := by
    rintro d hd rfl
    rw [hc] at hd
    cases hd
  refine tokens_span c text ?_ (distinct '"' (by decide)) ?_ (fun d hd => ?_) ?_ hs
  · simp [isJsonBlank, distinct]
  · simp [ofMark?, distinct leftBrace rfl, distinct rightBrace rfl, distinct]
  · rw [if_pos hnumber, isNumberChar_of_isDigit (htext d hd)]
  · rw [if_pos hnumber, htoken]

theorem tokens_null {s : List Char} (hs : Stops s) :
    tokens ("null".toList ++ s) = (tokens s).map (.null :: ·) :=
  tokens_span 'n' ['u', 'l', 'l'] rfl (by decide) rfl (List.all_eq_true.mp rfl) rfl hs

theorem tokens_true {s : List Char} (hs : Stops s) :
    tokens ("true".toList ++ s) = (tokens s).map (.bool true :: ·) :=
  tokens_span 't' ['r', 'u', 'e'] rfl (by decide) rfl (List.all_eq_true.mp rfl) rfl hs

theorem tokens_false {s : List Char} (hs : Stops s) :
    tokens ("false".toList ++ s) = (tokens s).map (.bool false :: ·) :=
  tokens_span 'f' ['a', 'l', 's', 'e'] rfl (by decide) rfl (List.all_eq_true.mp rfl) rfl hs

end JsonToken

/-! ## What a document spells -/

namespace Json

mutual

/-- **`spell`** -- the tokens of a document. -/
def spell : Json → List JsonToken
  | .null => [.null]
  | .bool b => [.bool b]
  | .number value => [.number value]
  | .string text => [.string text]
  | .array [] => [.openBracket, .closeBracket]
  | .array (element :: rest) =>
    .openBracket :: (spell element ++ (spellElements rest ++ [.closeBracket]))
  | .object [] => [.openBrace, .closeBrace]
  | .object ((key, value) :: rest) =>
    .openBrace :: .string key :: .colon :: (spell value ++ (spellFields rest ++ [.closeBrace]))

/-- The tokens of elements behind the first one. -/
def spellElements : List Json → List JsonToken
  | [] => []
  | element :: rest => .comma :: (spell element ++ spellElements rest)

/-- The tokens of fields behind the first one. -/
def spellFields : List (Option String × Json) → List JsonToken
  | [] => []
  | (key, value) :: rest =>
    .comma :: .string key :: .colon :: (spell value ++ spellFields rest)

end

mutual

/-- **`Definite`** -- a document in which every number, string and key is known. -/
def Definite : Json → Prop
  | .null => True
  | .bool _ => True
  | .number value => value.isSome
  | .string text => text.isSome
  | .array elements => AllDefinite elements
  | .object fields => FieldsDefinite fields

/-- Documents of this kind. -/
def AllDefinite : List Json → Prop
  | [] => True
  | element :: rest => Definite element ∧ AllDefinite rest

/-- Fields of this kind. -/
def FieldsDefinite : List (Option String × Json) → Prop
  | [] => True
  | (key, value) :: rest => key.isSome ∧ Definite value ∧ FieldsDefinite rest

end

/-! ## How deep brackets nest -/

mutual

/-- **`depth`** -- how deep containers are nested in a document. -/
def depth : Json → Nat
  | .null => 0
  | .bool _ => 0
  | .number _ => 0
  | .string _ => 0
  | .array elements => depthElements elements + 1
  | .object fields => depthFields fields + 1

/-- How deep containers are nested in elements. -/
def depthElements : List Json → Nat
  | [] => 0
  | element :: rest => max (depth element) (depthElements rest)

/-- How deep containers are nested in fields. -/
def depthFields : List (Option String × Json) → Nat
  | [] => 0
  | (_, value) :: rest => max (depth value) (depthFields rest)

end

end Json

namespace JsonToken

/-- How many brackets are open behind a token. -/
def levelAfter (level : Nat) : JsonToken → Nat
  | .openBrace => level + 1
  | .openBracket => level + 1
  | .closeBrace => level - 1
  | .closeBracket => level - 1
  | _ => level

/-- The most brackets that are open at a time, when so many are open at first. -/
def nesting (level : Nat) : List JsonToken → Nat
  | [] => level
  | token :: rest => max level (nesting (token.levelAfter level) rest)

/-- **`bracketDepth`** -- how deep the brackets of a text nest. -/
def bracketDepth (s : List Char) : Nat := ((tokens s).map (nesting 0)).getD 0

theorem le_nesting (level : Nat) (ts : List JsonToken) : level ≤ nesting level ts := by
  cases ts with
  | nil => exact Nat.le_refl _
  | cons token rest => exact Nat.le_max_left _ _

end JsonToken

namespace Json

section Nesting

open JsonToken

/-- A token that is no bracket. -/
theorem nesting_cons_of_level {token : JsonToken} {level : Nat}
    (h : token.levelAfter level = level) (rest : List JsonToken) :
    nesting level (token :: rest) = nesting level rest := by
  rw [nesting, h]
  exact Nat.max_eq_right (le_nesting level rest)

mutual

/-- **The brackets of a document** nest as deep as its containers. -/
theorem nesting_spell : (json : Json) → ∀ (level : Nat) (rest : List JsonToken),
    nesting level (json.spell ++ rest) = max (level + json.depth) (nesting level rest)
  | .null, _, _ => rfl
  | .bool _, _, _ => rfl
  | .number _, _, _ => rfl
  | .string _, _, _ => rfl
  | .array [], level, rest => by
    show max level (max (level + 1) (nesting level rest)) = max (level + 1) (nesting level rest)
    omega
  | .array (element :: elements), level, rest => by
    have hfirst := nesting_spell element (level + 1)
      (spellElements elements ++ ([.closeBracket] ++ rest))
    have hrest := nesting_spellElements elements level rest
    rw [spell, List.cons_append, List.append_assoc, List.append_assoc, nesting, levelAfter, hfirst,
      List.singleton_append, hrest, depth, depthElements]
    omega
  | .object [], level, rest => by
    show max level (max (level + 1) (nesting level rest)) = max (level + 1) (nesting level rest)
    omega
  | .object ((key, value) :: fields), level, rest => by
    have hfirst := nesting_spell value (level + 1)
      (spellFields fields ++ ([.closeBrace] ++ rest))
    have hrest := nesting_spellFields fields level rest
    rw [spell, List.cons_append, List.cons_append, List.cons_append, List.append_assoc,
      List.append_assoc, nesting, levelAfter, nesting_cons_of_level rfl, nesting_cons_of_level rfl,
      hfirst, List.singleton_append, hrest, depth, depthFields]
    omega

theorem nesting_spellElements : (elements : List Json) → ∀ (level : Nat) (rest : List JsonToken),
    nesting (level + 1) (spellElements elements ++ .closeBracket :: rest) =
      max (level + 1 + depthElements elements) (nesting level rest)
  | [], _, _ => rfl
  | element :: elements, level, rest => by
    have hfirst := nesting_spell element (level + 1)
      (spellElements elements ++ .closeBracket :: rest)
    have hrest := nesting_spellElements elements level rest
    rw [spellElements, List.cons_append, List.append_assoc, nesting_cons_of_level rfl, hfirst,
      hrest, depthElements]
    omega

theorem nesting_spellFields : (fields : List (Option String × Json)) →
    ∀ (level : Nat) (rest : List JsonToken),
      nesting (level + 1) (spellFields fields ++ .closeBrace :: rest) =
        max (level + 1 + depthFields fields) (nesting level rest)
  | [], _, _ => rfl
  | (key, value) :: fields, level, rest => by
    have hfirst := nesting_spell value (level + 1) (spellFields fields ++ .closeBrace :: rest)
    have hrest := nesting_spellFields fields level rest
    rw [spellFields, List.cons_append, List.cons_append, List.cons_append, List.append_assoc,
      nesting_cons_of_level rfl, nesting_cons_of_level rfl, nesting_cons_of_level rfl, hfirst,
      hrest, depthFields]
    omega

end

end Nesting

/-! ## Text into tokens -/

section Render

open JsonToken

/-- Members behind the first one, each behind a comma and on a line of its own. -/
def joined (level : Nat) (members : List (List Char)) : List Char :=
  members.flatMap fun member => ',' :: (newLine level ++ member)

theorem intercalate_comma (first : List Char) (rest : List (List Char)) :
    [','].intercalate (first :: rest) = first ++ rest.flatMap (',' :: ·) := by
  induction rest generalizing first with
  | nil => simp
  | cons second rest ih =>
    rw [List.intercalate_cons_cons, ih, List.flatMap_cons]
    simp

/-- A container with a first member. -/
theorem enclose_cons (first last : Char) (level : Nat) (member : List Char)
    (members : List (List Char)) :
    enclose first last level (member :: members) =
      first :: (newLine (level + 1) ++ (member ++ (joined (level + 1) members ++
        (newLine level ++ [last])))) := by
  rw [enclose, List.map_cons, intercalate_comma, joined, List.flatMap_map]
  · simp
  · intro h
    cases h

theorem stops_newLine (level : Nat) (s : List Char) : Stops (newLine level ++ s) :=
  stops_cons (by decide) _

theorem stops_joined (level : Nat) (members : List (List Char)) {s : List Char} (hs : Stops s) :
    Stops (joined level members ++ s) := by
  cases members with
  | nil => exact hs
  | cons member members => exact stops_cons (by decide) _

/-- The end of a container. -/
theorem tokens_last {last : Char} (mark : JsonToken) (h : ofMark? last = some mark)
    (hb : isJsonBlank last = false) (hq : last ≠ '"') (level : Nat) (s : List Char) :
    tokens (newLine level ++ [last] ++ s) = (tokens s).map (mark :: ·) := by
  rw [List.append_assoc, tokens_newLine, List.singleton_append, tokens_mark mark h hb hq]

theorem tokens_comma (level : Nat) (s : List Char) :
    tokens (',' :: (newLine level ++ s)) = (tokens s).map (.comma :: ·) := by
  rw [tokens_mark .comma rfl (by decide) (by decide), tokens_newLine]

/-- A key with its colon. -/
theorem tokens_key (key : String) (s : List Char) :
    tokens (quoted key ++ ':' :: ' ' :: s) =
      (tokens s).map (.string (some key) :: .colon :: ·) := by
  rw [tokens_quoted, tokens_mark .colon rfl (by decide) (by decide),
    tokens_blank (by decide), Option.map_map]
  rfl

mutual

/-- **The text of a document** is cut into its tokens, whatever follows it. -/
theorem tokens_render : (json : Json) → json.Definite → ∀ (level : Nat) {s : List Char}, Stops s →
    tokens (json.renderAt level ++ s) = (tokens s).map (json.spell ++ ·)
  | .null, _, _, _, hs => tokens_null hs
  | .bool true, _, _, _, hs => tokens_true hs
  | .bool false, _, _, _, hs => tokens_false hs
  | .number none, h, _, _, _ => by cases h
  | .number (some n), _, _, _, hs => tokens_toDigits n hs
  | .string none, h, _, _, _ => by cases h
  | .string (some text), _, _, _, _ => tokens_quoted text _
  | .array [], _, level, s, _ => by
    show tokens ('[' :: ']' :: s) = _
    rw [tokens_mark .openBracket rfl (by decide) (by decide),
      tokens_mark .closeBracket rfl (by decide) (by decide), Option.map_map]
    rfl
  | .array (element :: rest), h, level, s, hs => by
    rw [renderAt, renderElements, enclose_cons, List.cons_append, List.append_assoc,
      List.append_assoc, List.append_assoc,
      tokens_mark .openBracket rfl (by decide) (by decide), tokens_newLine,
      tokens_render element h.1 _ (stops_joined _ _ (by
        rw [List.append_assoc]
        exact stops_newLine _ _)),
      tokens_renderElements rest h.2 _ (by
        rw [List.append_assoc]
        exact stops_newLine _ _),
      tokens_last .closeBracket rfl (by decide) (by decide)]
    simp [spell, Function.comp_def]
  | .object [], _, level, s, _ => by
    show tokens (leftBrace :: rightBrace :: s) = _
    rw [tokens_mark .openBrace rfl (by decide) (by decide),
      tokens_mark .closeBrace rfl (by decide) (by decide), Option.map_map]
    rfl
  | .object ((none, value) :: rest), h, _, _, _ => by cases h.1
  | .object ((some key, value) :: rest), h, level, s, hs => by
    rw [renderAt, renderFields, enclose_cons, List.cons_append, List.append_assoc,
      List.append_assoc, List.append_assoc, List.append_assoc,
      tokens_mark .openBrace rfl (by decide) (by decide), tokens_newLine,
      Option.getD_some, List.cons_append, List.cons_append, tokens_key,
      tokens_render value h.2.1 _ (stops_joined _ _ (by
        rw [List.append_assoc]
        exact stops_newLine _ _)),
      tokens_renderFields rest h.2.2 _ (by
        rw [List.append_assoc]
        exact stops_newLine _ _),
      tokens_last .closeBrace rfl (by decide) (by decide)]
    simp [spell, Function.comp_def]

theorem tokens_renderElements : (elements : List Json) → AllDefinite elements →
    ∀ (level : Nat) {s : List Char}, Stops s →
      tokens (joined level (renderElements level elements) ++ s) =
        (tokens s).map (spellElements elements ++ ·)
  | [], _, _, s, _ => by
    show tokens s = _
    simp [spellElements]
  | element :: rest, h, level, s, hs => by
    have hrest := tokens_renderElements rest h.2 level hs
    rw [renderElements, joined, List.flatMap_cons, ← joined, List.append_assoc, List.cons_append,
      List.append_assoc, tokens_comma, tokens_render element h.1 level (stops_joined _ _ hs), hrest]
    simp [spellElements, Function.comp_def]

theorem tokens_renderFields : (fields : List (Option String × Json)) → FieldsDefinite fields →
    ∀ (level : Nat) {s : List Char}, Stops s →
      tokens (joined level (renderFields level fields) ++ s) =
        (tokens s).map (spellFields fields ++ ·)
  | [], _, _, s, _ => by
    show tokens s = _
    simp [spellFields]
  | (none, value) :: rest, h, _, _, _ => by cases h.1
  | (some key, value) :: rest, h, level, s, hs => by
    have hrest := tokens_renderFields rest h.2.2 level hs
    rw [renderFields, joined, List.flatMap_cons, ← joined, List.append_assoc, List.cons_append,
      List.append_assoc, tokens_comma, Option.getD_some, List.append_assoc, List.cons_append,
      List.cons_append, tokens_key,
      tokens_render value h.2.1 level (stops_joined _ _ hs), hrest]
    simp [spellFields, Function.comp_def]

end

end Render

end Json

/-! ## Tokens into documents -/

namespace JsonState

/-- Where a list may end, a document is read as its first element. -/
theorem run_element (json : Json) (stack : List OpenJson) (rest : List JsonToken) :
    run (.element stack) (json.spell ++ rest) =
      run (.value (.array [] :: stack)) (json.spell ++ rest) := by
  cases json with
  | array elements => cases elements <;> rfl
  | object fields => cases fields <;> rfl
  | _ => rfl

mutual

/-- **A run over the tokens of a document** completes it, inside whatever is open. -/
theorem run_spell : (json : Json) → ∀ (stack : List OpenJson) (rest : List JsonToken),
    run (.value stack) (json.spell ++ rest) = run (.after json stack) rest
  | .null, _, _ => rfl
  | .bool _, _, _ => rfl
  | .number _, _, _ => rfl
  | .string _, _, _ => rfl
  | .array [], _, _ => rfl
  | .array (first :: later), stack, rest => by
    have hopen := run_element first stack (Json.spellElements later ++ ([.closeBracket] ++ rest))
    have hfirst := run_spell first (.array [] :: stack)
      (Json.spellElements later ++ ([.closeBracket] ++ rest))
    have hlater := run_elements later first [] stack rest
    rw [Json.spell, List.cons_append, List.append_assoc, List.append_assoc]
    exact hopen.trans (hfirst.trans hlater)
  | .object [], _, _ => rfl
  | .object ((k, v) :: later), stack, rest => by
    have hfirst := run_spell v (.field [] k :: stack)
      (Json.spellFields later ++ ([.closeBrace] ++ rest))
    have hlater := run_fields later k v [] stack rest
    rw [Json.spell, List.cons_append, List.cons_append, List.cons_append, List.append_assoc,
      List.append_assoc]
    exact hfirst.trans hlater

theorem run_elements : (later : List Json) → ∀ (v : Json) (before : List Json)
    (stack : List OpenJson) (rest : List JsonToken),
    run (.after v (.array before :: stack)) (Json.spellElements later ++ .closeBracket :: rest) =
      run (.after (.array (before.reverse ++ v :: later)) stack) rest
  | [], v, before, stack, rest => by
    show run (.after (.array (v :: before).reverse) stack) rest = _
    rw [List.reverse_cons]
  | next :: later, v, before, stack, rest => by
    have hnext := run_spell next (.array (v :: before) :: stack)
      (Json.spellElements later ++ .closeBracket :: rest)
    have hlater := run_elements later next (v :: before) stack rest
    rw [Json.spellElements, List.cons_append, List.append_assoc]
    refine hnext.trans (hlater.trans ?_)
    rw [List.reverse_cons, List.append_assoc, List.singleton_append]

theorem run_fields : (later : List (Option String × Json)) → ∀ (k : Option String) (v : Json)
    (before : List (Option String × Json)) (stack : List OpenJson) (rest : List JsonToken),
    run (.after v (.field before k :: stack)) (Json.spellFields later ++ .closeBrace :: rest) =
      run (.after (.object (before.reverse ++ (k, v) :: later)) stack) rest
  | [], k, v, before, stack, rest => by
    show run (.after (.object ((k, v) :: before).reverse) stack) rest = _
    rw [List.reverse_cons]
  | (k', next) :: later, k, v, before, stack, rest => by
    have hnext := run_spell next (.field ((k, v) :: before) k' :: stack)
      (Json.spellFields later ++ .closeBrace :: rest)
    have hlater := run_fields later k' next ((k, v) :: before) stack rest
    rw [Json.spellFields, List.cons_append, List.cons_append, List.cons_append, List.append_assoc]
    refine hnext.trans (hlater.trans ?_)
    rw [List.reverse_cons, List.append_assoc, List.singleton_append]

end

end JsonState

namespace Json

/-- The text of a document is cut into its tokens. -/
theorem tokens_render_self {json : Json} (h : json.Definite) :
    JsonToken.tokens json.render = some json.spell := by
  have htokens := tokens_render json h 0 JsonToken.stops_nil
  have hnil : JsonToken.tokens [] = some [] := by rw [JsonToken.tokens]
  rwa [List.append_nil, hnil, Option.map_some, List.append_nil] at htokens

/-- **A document is read back** from its text. -/
theorem read?_render {json : Json} (h : json.Definite) : read? json.render = some json := by
  have hrun := JsonState.run_spell json [] []
  rw [List.append_nil] at hrun
  rw [read?, tokens_render_self h, Option.bind_some, hrun]
  rfl

/-- The brackets of a text nest as deep as the containers of the document. -/
theorem bracketDepth_render {json : Json} (h : json.Definite) :
    JsonToken.bracketDepth json.render = json.depth := by
  have hnesting := nesting_spell json 0 []
  rw [List.append_nil] at hnesting
  rw [JsonToken.bracketDepth, tokens_render_self h, Option.map_some, Option.getD_some, hnesting,
    JsonToken.nesting]
  omega

end Json

end TensorGraph
