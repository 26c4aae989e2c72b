/-
# TensorGraph.Json.Token -- the lexical part of JSON

Strict JSON: blanks are the four that the standard names, a string holds no control
character, a number has no leading zero or sign `+`, and the only words are `null`, `true`
and `false`. Two tokens that need no blank between them are told apart by their first
characters; where the grammar puts a mark between any two values, running two numbers or
words together is a fault in either reading.
-/
import TensorGraph.Text.Number

namespace TensorGraph

/-- **`JsonToken`** -- a token; numbers and strings as in `Json`. -/
inductive JsonToken where
  | openBrace
  | closeBrace
  | openBracket
  | closeBracket
  | comma
  | colon
  | null
  | bool (value : Bool)
  | number (value : Option Nat)
  | string (text : Option String)

namespace JsonToken

/-! ## Strings -/

/-- What one position of a string denotes: a character, or a UTF-16 unit of an escape. -/
inductive StringPart where
  | char (c : Char)
  | unit (value : Nat)

/-- The raw text of a string up to the closing quote, and what follows the quote. A
backslash protects the character after it. -/
def cutString : List Char → Option (List Char × List Char)
  | [] => none
  | '"' :: rest => some ([], rest)
  | '\\' :: c :: rest => (cutString rest).map fun (raw, after) => ('\\' :: c :: raw, after)
  | c :: rest => (cutString rest).map fun (raw, after) => (c :: raw, after)

/-- The value of a hexadecimal digit. -/
def hexDigit? (c : Char) : Option Nat :=
  if c.isDigit then some (c.toNat - 48)
  else if 'a' ≤ c ∧ c ≤ 'f' then some (c.toNat - 87)
  else if 'A' ≤ c ∧ c ≤ 'F' then some (c.toNat - 55)
  else none

/-- The characters that stand for one character behind a backslash. -/
def shortEscape? : Char → Option Char
  | '"' => some '"'
  | '\\' => some '\\'
  | '/' => some '/'
  | 'b' => some '\x08'
  | 'f' => some '\x0c'
  | 'n' => some '\n'
  | 'r' => some '\x0d'
  | 't' => some '\t'
  | _ => none

/-- The parts of the raw text of a string; `none` for a control character or an unknown
escape. -/
def stringParts : List Char → Option (List StringPart)
  | [] => some []
  | '\\' :: 'u' :: a :: b :: c :: d :: rest => do
    let a ← hexDigit? a
    let b ← hexDigit? b
    let c ← hexDigit? c
    let d ← hexDigit? d
    let parts ← stringParts rest
    return .unit (4096 * a + 256 * b + 16 * c + d) :: parts
  | '\\' :: e :: rest => do
    let c ← shortEscape? e
    let parts ← stringParts rest
    return .char c :: parts
  | c :: rest => if c.toNat < 32 ∨ c = '\\' then none else (stringParts rest).map (.char c :: ·)

/-- Whether a UTF-16 unit opens a pair. -/
def isHighSurrogate (u : Nat) : Bool := 0xd800 ≤ u && u < 0xdc00

/-- Whether a UTF-16 unit closes a pair. -/
def isLowSurrogate (u : Nat) : Bool := 0xdc00 ≤ u && u < 0xe000

/-- The text that parts spell; `none` when half of a pair stands alone. -/
def joinParts : List StringPart → Option (List Char)
  | [] => some []
  | .char c :: rest => (joinParts rest).map (c :: ·)
  | .unit u :: .unit v :: rest =>
    if isHighSurrogate u then
      if isLowSurrogate v then
        (joinParts rest).map (Char.ofNat (0x10000 + 1024 * (u - 0xd800) + (v - 0xdc00)) :: ·)
      else none
    else if isLowSurrogate u then none
    else (joinParts (.unit v :: rest)).map (Char.ofNat u :: ·)
  | .unit u :: rest =>
    if isHighSurrogate u || isLowSurrogate u then none
    else (joinParts rest).map (Char.ofNat u :: ·)

/-- The token of a string with the given raw text. -/
def ofRawString (raw : List Char) : Option JsonToken :=
  (stringParts raw).map fun parts => .string ((joinParts parts).map String.ofList)

/-! ## Numbers and words -/

/-- Characters of which numbers are made. -/
def isNumberChar (c : Char) : Bool :=
  c.isDigit || c == '-' || c == '+' || c == '.' || c == 'e' || c == 'E'

/-- Whether a text is the whole part of a number: digits without a leading zero. -/
def isWholePart (s : List Char) : Bool :=
  s = ['0'] || (!s.isEmpty && s.all Char.isDigit && s.head? != some '0')

/-- Whether a text is nothing or an exponent. -/
def isExponentPart (s : List Char) : Bool := (readExponent? s).isSome

/-- Whether a text is what may follow the whole part. -/
def isFractionPart : List Char → Bool
  | '.' :: s =>
    let (digits, rest) := leadingDigits s
    !digits.isEmpty && isExponentPart rest
  | s => isExponentPart s

/-- The token of a number. -/
def ofNumber (s : List Char) : Option JsonToken :=
  let (negative, unsigned) :=
    match s with
    | '-' :: rest => (true, rest)
    | s => (false, s)
  let (whole, rest) := leadingDigits unsigned
  if isWholePart whole && isFractionPart rest then
    some (.number (if negative || !rest.isEmpty then none else some (digitsValue 0 whole)))
  else none

/-- The token of a word. -/
def ofWord (s : List Char) : Option JsonToken :=
  if s = "null".toList then some .null
  else if s = "true".toList then some (.bool true)
  else if s = "false".toList then some (.bool false)
  else none

/-! ## Tokens -/

/-- The blanks of JSON. -/
def isJsonBlank (c : Char) : Bool := c == ' ' || c == '\n' || c == '\t' || c == '\x0d'

/-- The token of a mark. -/
def ofMark? (c : Char) : Option JsonToken :=
  if c = leftBrace then some .openBrace
  else if c = rightBrace then some .closeBrace
  else
    match c with
    | '[' => some .openBracket
    | ']' => some .closeBracket
    | ',' => some .comma
    | ':' => some .colon
    | _ => none

theorem length_cutString {s raw rest : List Char} (h : cutString s = some (raw, rest)) :
    rest.length < s.length := by
  fun_induction cutString s generalizing raw rest with
  | case1 => cases h
  | case2 rest' =>
    obtain ⟨rfl, rfl⟩ := Prod.mk.inj (Option.some.inj h)
    exact Nat.lt_succ_self _
  | case3 c rest' ih =>
    obtain ⟨⟨r, a⟩, hr, he⟩ := Option.map_eq_some_iff.1 h
    obtain ⟨rfl, rfl⟩ := Prod.mk.inj he
    exact Nat.lt_succ_of_lt (Nat.lt_succ_of_lt (ih hr))
  | case4 c rest' _ _ ih =>
    obtain ⟨⟨r, a⟩, hr, he⟩ := Option.map_eq_some_iff.1 h
    obtain ⟨rfl, rfl⟩ := Prod.mk.inj he
    exact Nat.lt_succ_of_lt (ih hr)

/-- **`tokens`** -- the tokens of a text. A number or word extends as far as its
characters do. -/
def tokens (s : List Char) : Option (List JsonToken) :=
  match s with
  | [] => some []
  | c :: rest =>
    if isJsonBlank c then tokens rest
    else if c = '"' then
      match _h : cutString rest with
      | none => none
      | some (raw, rest) => do
        let token ← ofRawString raw
        return token :: (← tokens rest)
    else
      match ofMark? c with
      | some mark => (tokens rest).map (mark :: ·)
      | none => do
        let belongs := if isNumberChar c then isNumberChar else Char.isAlpha
        let text := rest.takeWhile belongs
        let token ← if isNumberChar c then ofNumber (c :: text) else ofWord (c :: text)
        return token :: (← tokens (rest.dropWhile belongs))
termination_by s.length
decreasing_by
  · simp
  · have := length_cutString _h
    simp only [List.length_cons]
    omega
  · simp
  · exact Nat.lt_succ_of_le (List.dropWhile_sublist _).length_le

end JsonToken

end TensorGraph
