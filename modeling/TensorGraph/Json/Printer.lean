/-
# TensorGraph.Json.Printer -- JSON documents as text

Every element and every field stands on a line of its own, indented by two spaces per
level; an empty container is its two marks. Strings escape the quote, the backslash and
the control characters below the space, and nothing else.
-/
import TensorGraph.Json.Value
import TensorGraph.Prelude

namespace TensorGraph

/-- A hexadecimal digit. -/
def hexChar (n : Nat) : Char := Nat.digitChar (n % 16)

/-- A character of a string. -/
def escapeChar (c : Char) : List Char :=
  if c = '"' then ['\\', '"']
  else if c = '\\' then ['\\', '\\']
  else if c = '\n' then ['\\', 'n']
  else if c = '\x0d' then ['\\', 'r']
  else if c = '\t' then ['\\', 't']
  else if c = '\x08' then ['\\', 'b']
  else if c = '\x0c' then ['\\', 'f']
  else if c.toNat < 32 then ['\\', 'u', '0', '0', hexChar (c.toNat / 16), hexChar c.toNat]
  else [c]

/-- A string with its quotes. -/
def quoted (s : String) : List Char := '"' :: (s.toList.flatMap escapeChar ++ ['"'])

/-- A new line at a level of indentation. -/
def newLine (level : Nat) : List Char := '\n' :: List.replicate (2 * level) ' '

namespace Json

/-- Puts the marks of a container around its members, each on a line of its own. -/
def enclose (first last : Char) (level : Nat) (members : List (List Char)) : List Char :=
  match members with
  | [] => [first, last]
  | members =>
    first :: ([','].intercalate (members.map (newLine (level + 1) ++ ·)) ++ newLine level ++ [last])

mutual

/-- A document inside containers of the given depth. -/
def renderAt (level : Nat) : Json → List Char
  | .null => "null".toList
  | .bool true => "true".toList
  | .bool false => "false".toList
  | .number value => Nat.toDigits 10 (value.getD 0)
  | .string text => quoted (text.getD "")
  | .array elements => enclose '[' ']' level (renderElements (level + 1) elements)
  | .object fields => enclose leftBrace rightBrace level (renderFields (level + 1) fields)

/-- The elements of a list, each rendered. -/
def renderElements (level : Nat) : List Json → List (List Char)
  | [] => []
  | element :: rest => renderAt level element :: renderElements level rest

/-- The fields of an object, each rendered. -/
def renderFields (level : Nat) : List (Option String × Json) → List (List Char)
  | [] => []
  | (key, value) :: rest =>
    (quoted (key.getD "") ++ ':' :: ' ' :: renderAt level value) :: renderFields level rest

end

/-- **`render`** -- a document as text. -/
def render (json : Json) : List Char := json.renderAt 0

end Json

end TensorGraph
