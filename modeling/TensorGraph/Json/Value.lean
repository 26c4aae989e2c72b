/-
# TensorGraph.Json.Value -- JSON documents

The documents that hold modules contain natural numbers and texts only. A document may be
well-formed and yet hold something else, in a field that nobody asks for: a number with a
sign, fraction or exponent, or a string with half of a surrogate pair. Such a number or
string is kept without its content, so that a reader can pass over it and no field can be
filled from it.
-/

namespace TensorGraph

/-- **`Json`** -- a JSON document; the fields of an object stay in order. -/
inductive Json where
  | null
  | bool (value : Bool)
  /-- A number, with its value when it is written as a natural number. -/
  | number (value : Option Nat)
  /-- A string, with its text when the string is one. -/
  | string (text : Option String)
  | array (elements : List Json)
  | object (fields : List (Option String × Json))
  deriving Inhabited

namespace Json

/-- A natural number. -/
def ofNat (n : Nat) : Json := .number (some n)

/-- A text. -/
def ofText (s : String) : Json := .string (some s)

/-- A list of natural numbers. -/
def ofNats (ns : List Nat) : Json := .array (ns.map ofNat)

/-- An object with the given fields. -/
def record (fields : List (String × Json)) : Json :=
  .object (fields.map fun (key, value) => (some key, value))

/-- An object with one field, which tells what the value in it is. -/
def tagged (tag : String) (value : Json) : Json := .object [(some tag, value)]

end Json

end TensorGraph
