/-
# TensorGraph.Graph.Version -- the version word of stored modules

A stored module carries a version word. An empty word stands for the current version; any
other word that is not the current one is refused.
-/
import TensorGraph.Graph.Basic

namespace TensorGraph

/-- **`StoreError`** -- why a stored module could not be read. -/
inductive StoreError where
  /-- The text is not the JSON form of a module. -/
  | json
  /-- The bytes are not the binary form of a module. -/
  | binary
  | versionMismatch (found : String)
  deriving DecidableEq

/-- The wording of an error. -/
def StoreError.message : StoreError → String
  | json => "malformed JSON form"
  | binary => "malformed binary form"
  | versionMismatch found =>
    s!"module ir version '{found}' does not match expected '{currentVersion}'"

/-- **`Module.acceptVersion`** -- a module as read, once its version word is checked. -/
def Module.acceptVersion (m : Module) : Except StoreError Module :=
  if m.version = "" then .ok { m with version := currentVersion }
  else if m.version = currentVersion then .ok m
  else .error (.versionMismatch m.version)

end TensorGraph
