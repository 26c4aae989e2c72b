/-
# TensorGraph.Json.Reader -- JSON documents from tokens

The reader takes one token after the other and keeps the containers that are open on a
stack, so that documents of any depth are read by recursion on the tokens alone.
-/
import TensorGraph.Json.Token
import TensorGraph.Json.Value

namespace TensorGraph

/-- A container that is open, its elements or fields in reverse. -/
inductive OpenJson where
  | array (elements : List Json)
  /-- An object whose field of the given key waits for its value. -/
  | field (fields : List (Option String × Json)) (key : Option String)

/-- **`JsonState`** -- what may come next, inside which containers. -/
inductive JsonState where
  /-- A value. -/
  | value (stack : List OpenJson)
  /-- A value, or the end of the list that was just opened. -/
  | element (stack : List OpenJson)
  /-- A key, or the end of the object if it was just opened. -/
  | key (fresh : Bool) (fields : List (Option String × Json)) (stack : List OpenJson)
  /-- The colon after a key. -/
  | colon (fields : List (Option String × Json)) (key : Option String) (stack : List OpenJson)
  /-- The value is complete; a comma or the end of its container. -/
  | after (value : Json) (stack : List OpenJson)

namespace JsonState

/-- Starts or completes a value. -/
def startValue (stack : List OpenJson) : JsonToken → Option JsonState
  | .null => some (.after .null stack)
  | .bool b => some (.after (.bool b) stack)
  | .number n => some (.after (.number n) stack)
  | .string s => some (.after (.string s) stack)
  | .openBracket => some (.element stack)
  | .openBrace => some (.key true [] stack)
  | _ => none

/-- **`step`** -- takes one token. -/
def step : JsonState → JsonToken → Option JsonState
  | value stack, token => startValue stack token
  | element stack, .closeBracket => some (.after (.array []) stack)
  | element stack, token => startValue (.array [] :: stack) token
  | key _ fields stack, .string s => some (.colon fields s stack)
  | key true [] stack, .closeBrace => some (.after (.object []) stack)
  | colon fields k stack, .colon => some (.value (.field fields k :: stack))
  | after v (.array vs :: stack), .comma => some (.value (.array (v :: vs) :: stack))
  | after v (.array vs :: stack), .closeBracket =>
    some (.after (.array (v :: vs).reverse) stack)
  | after v (.field fields k :: stack), .comma => some (.key false ((k, v) :: fields) stack)
  | after v (.field fields k :: stack), .closeBrace =>
    some (.after (.object ((k, v) :: fields).reverse) stack)
  | _, _ => none

/-- Takes tokens to the end, where one value must be complete. -/
def run : JsonState → List JsonToken → Option Json
  | after v [], [] => some v
  | _, [] => none
  | state, token :: rest =>
    match state.step token with
    | some next => run next rest
    | none => none

end JsonState

/-- **`Json.read?`** -- the document that a text spells. -/
def Json.read? (s : List Char) : Option Json :=
  (JsonToken.tokens s).bind fun tokens => JsonState.run (.value []) tokens

end TensorGraph
