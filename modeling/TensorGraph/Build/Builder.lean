/-
# TensorGraph.Build.Builder -- functions built by appending

A builder holds the parameters and bindings of a function of one region while it grows.
Identifiers are given out in order, above every identifier it was seeded with, and names
are made unique. How identifiers are counted is a parameter: without bound unless it is given,
or in machine words (`Builder.nextWord`), where the order ends with the last word.
-/
import TensorGraph.Build.NameSupply
import TensorGraph.Graph.Lookup

namespace TensorGraph

open scoped CoreInstances

/-- **`Builder`** -- a function in the making. -/
structure Builder where
  /-- The name of the function. -/
  name : String
  /-- The number of the next value. -/
  nextIndex : Nat
  /-- Parameters so far. -/
  params : List Param
  /-- Bindings so far. -/
  bindings : List Binding
  /-- The names in use. -/
  names : NameSupply

namespace Builder

/-- Nothing built yet. -/
def empty (name : String) : Builder := ⟨name, 0, [], [], .empty⟩

/-- The number after a number, in words of 32 bits: the last word is followed by 0. A build that
checks its arithmetic stops there instead. -/
def nextWord (n : Nat) : Nat := (n + 1) % 2 ^ (32 : Nat)

/-- Keeps clear of a value that is already there. -/
def track (b : Builder) (id : ValueId) (name : String) (next : Nat → Nat := Nat.succ) : Builder :=
  { b with nextIndex := max b.nextIndex (next id.index), names := b.names.take name }

/-- Takes over a parameter as it is. -/
def seedParam (b : Builder) (p : Param) (next : Nat → Nat := Nat.succ) : Builder :=
  { b.track p.id p.name next with params := b.params ++ [p] }

/-- Takes over a binding as it is. -/
def seedBinding (b : Builder) (x : Binding) (next : Nat → Nat := Nat.succ) : Builder :=
  { b.track x.id x.name next with bindings := b.bindings ++ [x] }

/-- **`ofFunction`** -- a builder that starts from the parameters and bindings of a
function; its regions become one. -/
def ofFunction (name : String) (f : Function) (next : Nat → Nat := Nat.succ) : Builder :=
  f.bindings.foldl (fun b x => b.seedBinding x next)
    (f.params.foldl (fun b p => b.seedParam p next) (empty name))

/-- Adds a parameter; its name is the hint, made unique. -/
def addParam (b : Builder) (hint : String) (ty : ValueType) (next : Nat → Nat := Nat.succ) :
    ValueId × Builder :=
  let id : ValueId := ⟨b.nextIndex⟩
  let (name, names) := b.names.fresh hint
  (id, { b with
    nextIndex := next b.nextIndex, names, params := b.params ++ [⟨id, name, ty⟩] })

/-- **`bind`** -- appends a binding; its name is the hint, made unique. -/
def bind (b : Builder) (hint : String) (expr : Expr) (ty : ValueType)
    (next : Nat → Nat := Nat.succ) : ValueId × Builder :=
  let id : ValueId := ⟨b.nextIndex⟩
  let (name, names) := b.names.fresh hint
  (id, { b with
    nextIndex := next b.nextIndex, names, bindings := b.bindings ++ [⟨id, name, expr, ty⟩] })

/-! ## What each step does -/

@[simp] theorem id_addParam (b : Builder) (hint : String) (ty : ValueType) :
    (b.addParam hint ty).1 = ⟨b.nextIndex⟩ := rfl

@[simp] theorem params_addParam (b : Builder) (hint : String) (ty : ValueType) :
    (b.addParam hint ty).2.params = b.params ++ [⟨⟨b.nextIndex⟩, b.names.choose hint, ty⟩] := rfl

@[simp] theorem bindings_addParam (b : Builder) (hint : String) (ty : ValueType) :
    (b.addParam hint ty).2.bindings = b.bindings := rfl

@[simp] theorem nextIndex_addParam (b : Builder) (hint : String) (ty : ValueType) :
    (b.addParam hint ty).2.nextIndex = b.nextIndex + 1 := rfl

@[simp] theorem id_bind (b : Builder) (hint : String) (expr : Expr) (ty : ValueType) :
    (b.bind hint expr ty).1 = ⟨b.nextIndex⟩ := rfl

@[simp] theorem params_bind (b : Builder) (hint : String) (expr : Expr) (ty : ValueType) :
    (b.bind hint expr ty).2.params = b.params := rfl

@[simp] theorem bindings_bind (b : Builder) (hint : String) (expr : Expr) (ty : ValueType) :
    (b.bind hint expr ty).2.bindings =
      b.bindings ++ [⟨⟨b.nextIndex⟩, b.names.choose hint, expr, ty⟩] := rfl

@[simp] theorem nextIndex_bind (b : Builder) (hint : String) (expr : Expr) (ty : ValueType) :
    (b.bind hint expr ty).2.nextIndex = b.nextIndex + 1 := rfl

theorem params_foldl_seedParam (ps : List Param) (b : Builder) :
    (ps.foldl seedParam b).params = b.params ++ ps := by
  induction ps generalizing b with
  | nil => rw [List.foldl_nil, List.append_nil]
  | cons p ps ih => rw [List.foldl_cons, ih, seedParam, List.append_assoc, List.singleton_append]

theorem bindings_foldl_seedParam (ps : List Param) (b : Builder) :
    (ps.foldl seedParam b).bindings = b.bindings := by
  induction ps generalizing b with
  | nil => rfl
  | cons p ps ih => rw [List.foldl_cons, ih]; rfl

theorem params_foldl_seedBinding (xs : List Binding) (b : Builder) :
    (xs.foldl seedBinding b).params = b.params := by
  induction xs generalizing b with
  | nil => rfl
  | cons x xs ih => rw [List.foldl_cons, ih]; rfl

theorem bindings_foldl_seedBinding (xs : List Binding) (b : Builder) :
    (xs.foldl seedBinding b).bindings = b.bindings ++ xs := by
  induction xs generalizing b with
  | nil => rw [List.foldl_nil, List.append_nil]
  | cons x xs ih => rw [List.foldl_cons, ih, seedBinding, List.append_assoc, List.singleton_append]

theorem name_foldl_seedParam (ps : List Param) (b : Builder) :
    (ps.foldl seedParam b).name = b.name := by
  induction ps generalizing b with
  | nil => rfl
  | cons p ps ih => rw [List.foldl_cons, ih]; rfl

theorem name_foldl_seedBinding (xs : List Binding) (b : Builder) :
    (xs.foldl seedBinding b).name = b.name := by
  induction xs generalizing b with
  | nil => rfl
  | cons x xs ih => rw [List.foldl_cons, ih]; rfl

/-- A seeded builder has the name it is given. -/
theorem name_ofFunction (name : String) (f : Function) : (ofFunction name f).name = name := by
  rw [ofFunction, name_foldl_seedBinding, name_foldl_seedParam]
  rfl

/-- **A seeded builder** holds the parameters of the function. -/
theorem params_ofFunction (name : String) (f : Function) :
    (ofFunction name f).params = f.params := by
  rw [ofFunction, params_foldl_seedBinding, params_foldl_seedParam]
  exact List.nil_append _

/-- A seeded builder holds the bindings of the function. -/
theorem bindings_ofFunction (name : String) (f : Function) :
    (ofFunction name f).bindings = f.bindings := by
  rw [ofFunction, bindings_foldl_seedBinding, bindings_foldl_seedParam]
  exact List.nil_append _

/-- **`finish`** -- the function, with all bindings in one region. -/
def finish (b : Builder) (outputs : List ValueId) (ret : ReturnExpr) : Function :=
  ⟨b.name, b.params, [⟨b.bindings, outputs⟩], ret⟩

end Builder

end TensorGraph
