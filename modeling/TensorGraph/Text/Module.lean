/-
# TensorGraph.Text.Module -- functions and modules in the text form

A module is a sequence of functions, each ending at the brace that closes its body. Braces
are matched on the raw text, comments included. A function starts with
`func @name(%parameter: type, ...) -> type` and the type declared for its result must be
that of what it returns.
-/
import TensorGraph.Text.Body

namespace TensorGraph

/-! ## Cutting a module into functions -/

/-- The header of a function, and its body without the braces. -/
structure FunctionText where
  /-- Everything before the first brace. -/
  header : List Char
  /-- Everything between the braces. -/
  body : List Char

/-- The functions of a text; what follows a closing brace starts the next one. -/
def functionTexts (s : List Char) : Except TextError (List FunctionText) :=
  if (trimStart s).isEmpty then .ok []
  else
    match _h : cutAtFirst leftBrace s with
    | none => .error .missingBodyOpen
    | some (header, rest) =>
      match _hc : closing? leftBrace rightBrace 0 rest with
      | none => .error .missingBodyClose
      | some (body, rest) => (functionTexts rest).map fun more => ⟨header, body⟩ :: more
termination_by s.length
decreasing_by
  have h1 := length_closing? _hc
  have h2 := length_cutAtFirst _h
  omega

/-! ## Headers -/

/-- A parameter whose type is not read yet. -/
structure ParamText where
  /-- Its name. -/
  name : String
  /-- Its type, as text. -/
  ty : List Char

/-- Reads `name: type`. -/
def ParamText.ofText (s : List Char) : Except TextError ParamText :=
  match cutAtFirst ':' s with
  | none => .error .paramForm
  | some (name, ty) =>
    if valueName name = "" then .error .emptyParamName
    else if (trim ty).isEmpty then .error .emptyParamType
    else .ok ⟨valueName name, trim ty⟩

/-- **`Header`** -- the header of a function; types are still text. -/
structure Header where
  /-- The name of the function. -/
  name : String
  /-- The parameters. -/
  params : List ParamText
  /-- The type of the result. -/
  result : List Char

/-- What follows the keyword. The shorter keyword is tried first, so that of the longer
one the rest would be taken for the start of the name. -/
def afterKeyword? (s : List Char) : Option (List Char) :=
  (after? "func" s).or (after? "function" s)

/-- The name of a function; the sign before it may be missing. -/
def functionName (s : List Char) : String :=
  let name := trim s
  String.ofList (trim ((after? "@" name).getD name))

/-- **`Header.ofText`** -- reads a header. -/
def Header.ofText (s : List Char) : Except TextError Header :=
  match afterKeyword? (trim s) with
  | none => .error .headerKeyword
  | some rest =>
    match cutAtFirst '(' rest with
    | none => .error .headerOpen
    | some (name, rest) =>
      match closing? '(' ')' 0 rest with
      | none => .error .headerClose
      | some (params, rest) =>
        if functionName name = "" then .error .emptyFunctionName
        else do
          let params ← (items (trim params)).mapM ParamText.ofText
          match after? "->" (trim rest) with
          | none => throw .missingResultType
          | some result => return ⟨functionName name, params, result⟩

/-! ## Functions -/

/-- A function with the names of its values. -/
structure ParsedFunction where
  /-- The function. -/
  function : Function
  /-- The names and the values they stand for, in order of definition. -/
  symbols : List (String × ValueId)

/-- Reads the types of parameters and brings the parameters into scope. -/
def defineParams (scope : Scope) : List ParamText → Except TextError (List Param × Scope)
  | [] => .ok ([], scope)
  | p :: rest => do
    let ty ← ValueType.ofText p.ty
    let (id, scope) ← scope.define p.name ty
    let (params, scope) ← defineParams scope rest
    return (⟨id, p.name, ty⟩ :: params, scope)

/-- Reads a function behind its header. -/
def Header.complete (h : Header) (body : List Char) : Except TextError ParsedFunction := do
  let (params, scope) ← defineParams .empty h.params
  let b ← ParsedBody.ofText scope body
  let f : Function := ⟨h.name, params, b.regions, b.ret⟩
  let declared ← ValueType.ofText h.result
  if f.returnType? = some declared then
    return ⟨f, (b.scope.entries.map fun e => (e.name, e.id)).reverse⟩
  else throw .resultTypeMismatch

/-- **`ParsedFunction.ofText`** -- reads a function. -/
def ParsedFunction.ofText (t : FunctionText) : Except TextError ParsedFunction := do
  let header ← Header.ofText t.header
  (header.complete t.body).mapError (.inFunction header.name)

/-! ## Modules -/

/-- **`ParsedModule`** -- a module, and for each function the names of its values. -/
structure ParsedModule where
  /-- The module. -/
  module : Module
  /-- The names, function by function. -/
  symbols : List (String × List (String × ValueId))

namespace ParsedModule

/-- Adds a function under a name that is new. -/
def add (m : ParsedModule) (t : FunctionText) : Except TextError ParsedModule := do
  let f ← ParsedFunction.ofText t
  if m.module.contains f.function.name then throw (.duplicateFunction f.function.name)
  else return ⟨m.module.insert f.function, m.symbols ++ [(f.function.name, f.symbols)]⟩

/-- **`ofText`** -- reads a module of one function at least. -/
def ofText (s : List Char) : Except TextError ParsedModule := do
  match ← functionTexts s with
  | [] => throw .emptyInput
  | texts => texts.foldlM add ⟨.empty, []⟩

end ParsedModule

/-- **`Module.ofText`** -- reads a module. -/
def Module.ofText (s : List Char) : Except TextError Module :=
  (ParsedModule.ofText s).map ParsedModule.module

/-- **`Function.ofText`** -- reads a text that holds exactly one function. -/
def Function.ofText (s : List Char) : Except TextError Function := do
  let m ← Module.ofText s
  match m.functions with
  | [f] => return f
  | fs => throw (.functionCount fs.length)

end TensorGraph
