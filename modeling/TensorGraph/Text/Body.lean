/-
# TensorGraph.Text.Body -- the body of a function, line by line

A line holds one statement; comments start at `//` and blank lines mean nothing. Bindings
stand either between `region` braces, in any number of regions, or without any braces, in
one implicit region; the two ways do not mix. The body ends with a `return`. A region
that declares no outputs exposes those of its bindings that are returned, in the order in
which they are returned.
-/
import TensorGraph.Graph.Lookup
import TensorGraph.Text.Binding

namespace TensorGraph

/-! ## Statements -/

/-- **`Statement`** -- a line of a body by its first word. -/
inductive Statement where
  | openRegion
  | closeRegion
  | returning (text : List Char)
  | exposing (text : List Char)
  | binding (text : List Char)

/-- The statement on a line that is not blank. -/
def Statement.ofLine (s : List Char) : Statement :=
  if s = "region ".toList ++ [leftBrace] ∨ s = "region".toList ++ [leftBrace] then .openRegion
  else if s = [rightBrace] then .closeRegion
  else
    match after? "return" s, after? "output " s with
    | some rest, _ => .returning rest
    | none, some rest => .exposing rest
    | none, none => .binding s

/-- **`statements`** -- the statements of a body, without comments and blank lines. -/
def statements (body : List Char) : List Statement :=
  ((body.splitOn '\n').map fun line => trim (uncommented line)).filterMap fun line =>
    if line.isEmpty then none else some (Statement.ofLine line)

mutual

/-- A return expression. -/
def ReturnExpr.ofNest (scope : Scope) : Nest → Except TextError ReturnExpr
  | .leaf text => (scope.resolve (valueName text)).map .value
  | .unclosed => .error .unclosedReturn
  | .overrun _ => .error .returnOverrun
  | .group elements => (ReturnExpr.ofNests scope elements).map .tuple

/-- Return expressions; the first fault counts. -/
def ReturnExpr.ofNests (scope : Scope) : List Nest → Except TextError (List ReturnExpr)
  | [] => .ok []
  | nest :: rest => do
    let element ← ReturnExpr.ofNest scope nest
    return element :: (← ReturnExpr.ofNests scope rest)

end

theorem ReturnExpr.ofNests_eq_mapM (scope : Scope) (nests : List Nest) :
    ReturnExpr.ofNests scope nests = nests.mapM (ReturnExpr.ofNest scope) := by
  induction nests with
  | nil => rfl
  | cons nest rest ih =>
    rw [ReturnExpr.ofNests, ih, List.mapM_cons]

/-- What follows `return`, with or without semicolons at the end. -/
def readReturn (scope : Scope) (s : List Char) : Except TextError ReturnExpr :=
  let text := ((trim s).reverse.dropWhile (· == ';')).reverse
  if text.isEmpty then .error .emptyReturn
  else ReturnExpr.ofNest scope (Nest.ofText false text)

/-! ## Regions in the making -/

/-- A region while it is read: its outputs may not be declared yet. -/
structure RegionDraft where
  /-- Bindings so far. -/
  bindings : List Binding
  /-- Outputs, once declared. -/
  outputs : Option (List ValueId)

/-- The region that takes the next binding. -/
inductive OpenRegion where
  | none
  | braced (draft : RegionDraft)
  | implicit (draft : RegionDraft)

/-- **`BodyState`** -- what has been read of a body. -/
structure BodyState where
  /-- The names defined so far. -/
  scope : Scope
  /-- Regions that are complete. -/
  closed : List RegionDraft
  /-- The region that is not. -/
  current : OpenRegion
  /-- The return expression, once read. -/
  ret : Option ReturnExpr

namespace BodyState

/-- Opens a region between braces. -/
def openRegion (b : BodyState) : Except TextError BodyState :=
  match b.current with
  | .none => .ok { b with current := .braced ⟨[], none⟩ }
  | .braced _ => .error .nestedRegion
  | .implicit _ => .error .mixedRegions

/-- Closes the region between braces. -/
def closeRegion (b : BodyState) : Except TextError BodyState :=
  match b.current with
  | .braced draft => .ok { b with closed := b.closed ++ [draft], current := .none }
  | _ => .error .unmatchedClose

/-- Reads the return expression. -/
def returning (b : BodyState) (text : List Char) : Except TextError BodyState :=
  match b.current with
  | .braced _ => .error .returnInRegion
  | _ => (readReturn b.scope text).map fun ret => { b with ret := some ret }

/-- Applies a statement to the region that is open, opening the implicit one if there are
no regions yet. -/
def inRegion (b : BodyState)
    (step : Scope → RegionDraft → Except TextError (RegionDraft × Scope)) :
    Except TextError BodyState :=
  match b.current with
  | .braced draft => do
    let (draft, scope) ← step b.scope draft
    return { b with scope, current := .braced draft }
  | .implicit draft => do
    let (draft, scope) ← step b.scope draft
    return { b with scope, current := .implicit draft }
  | .none =>
    if b.closed.isEmpty then do
      let (draft, scope) ← step b.scope ⟨[], none⟩
      return { b with scope, current := .implicit draft }
    else .error .mixedRegions

/-- Declares the outputs of a region. -/
def exposing (text : List Char) (scope : Scope) (draft : RegionDraft) :
    Except TextError (RegionDraft × Scope) :=
  if draft.outputs.isSome then .error .repeatedOutput
  else do
    let outputs ← (items (trim text)).mapM fun item => scope.resolve (valueName item)
    return ({ draft with outputs := some outputs }, scope)

/-- Adds a binding to a region. -/
def binding (text : List Char) (scope : Scope) (draft : RegionDraft) :
    Except TextError (RegionDraft × Scope) := do
  let (b, scope) ← Binding.ofText scope text
  return ({ draft with bindings := draft.bindings ++ [b] }, scope)

/-- **`step`** -- reads one more statement. Nothing may follow the return. -/
def step (b : BodyState) (statement : Statement) : Except TextError BodyState :=
  if b.ret.isSome then .error .afterReturn
  else
    match statement with
    | .openRegion => b.openRegion
    | .closeRegion => b.closeRegion
    | .returning text => b.returning text
    | .exposing text => b.inRegion (exposing text)
    | .binding text => b.inRegion (binding text)

/-- The regions of a body that has been read to its end. -/
def drafts (b : BodyState) : List RegionDraft :=
  match b.current with
  | .implicit draft => b.closed ++ [draft]
  | _ => if b.closed.isEmpty then [⟨[], none⟩] else b.closed

end BodyState

/-- The outputs of a region that declares none: its bindings among the returned values,
each once. -/
def defaultOutputs (bindings : List Binding) (returned : List ValueId) : List ValueId :=
  returned.foldl
    (fun outputs id =>
      if bindings.any (fun b => b.id == id) && !outputs.contains id then outputs ++ [id]
      else outputs)
    []

/-- A region once the return expression is known. -/
def RegionDraft.complete (ret : ReturnExpr) (draft : RegionDraft) : Region :=
  ⟨draft.bindings, draft.outputs.getD (defaultOutputs draft.bindings ret.values)⟩

/-- What a body defines. -/
structure ParsedBody where
  /-- The regions. -/
  regions : List Region
  /-- The return expression. -/
  ret : ReturnExpr
  /-- The names, those of the parameters included. -/
  scope : Scope

/-- **`ParsedBody.ofText`** -- reads a body whose parameters are in scope. -/
def ParsedBody.ofText (scope : Scope) (body : List Char) : Except TextError ParsedBody := do
  let b ← (statements body).foldlM BodyState.step ⟨scope, [], .none, none⟩
  match b.current, b.ret with
  | .braced _, _ => throw .unclosedRegion
  | _, none => throw .missingReturn
  | _, some ret => return ⟨b.drafts.map (RegionDraft.complete ret), ret, b.scope⟩

end TensorGraph
