/-
# TensorGraph.Graph.Lookup -- reading functions and modules

What an expression reads, which values a function defines, the type of what it returns,
and the operations of a module as an insertion-ordered collection keyed by name. When a
function defines an identifier or a name twice, parameters are found before bindings, and
earlier ones before later ones.
-/
import TensorGraph.Graph.Basic

namespace TensorGraph

/-! ## Values read -/

/-- The value an operand reads, if it reads one. -/
def Operand.value? : Operand → Option ValueId
  | .value id => some id
  | .tupleElement source _ => some source
  | .literal _ => none

mutual

/-- The values a field reads, left to right. -/
def TupleField.values : TupleField → List ValueId
  | .operand x => x.value?.toList
  | .tuple xs => TupleField.valuesList xs

/-- The values that fields read, left to right. -/
def TupleField.valuesList : List TupleField → List ValueId
  | [] => []
  | field :: rest => field.values ++ TupleField.valuesList rest

end

/-- **`Expr.values`** -- the values an expression reads, in operand order, with
repetitions. -/
def Expr.values : Expr → List ValueId
  | .call _ operands => operands.filterMap Operand.value?
  | .tuple fields => TupleField.valuesList fields
  | .tupleGet source _ => [source]
  | .alias x => x.value?.toList

mutual

/-- **`ReturnExpr.values`** -- the values returned, left to right. -/
def ReturnExpr.values : ReturnExpr → List ValueId
  | .value id => [id]
  | .tuple elements => ReturnExpr.valuesList elements

/-- The values of several return expressions, left to right. -/
def ReturnExpr.valuesList : List ReturnExpr → List ValueId
  | [] => []
  | element :: rest => element.values ++ ReturnExpr.valuesList rest

end

/-! ## Functions -/

namespace Function

/-- Every binding, region by region. -/
def bindings (f : Function) : List Binding := f.regions.flatMap Region.bindings

/-- The identities of the parameters. -/
def paramIds (f : Function) : List ValueId := f.params.map Param.id

/-- The parameter with the given identity. -/
def param? (f : Function) (id : ValueId) : Option Param :=
  f.params.find? fun p => p.id == id

/-- The binding with the given identity. -/
def binding? (f : Function) (id : ValueId) : Option Binding :=
  f.bindings.find? fun b => b.id == id

/-- The value with the given name. -/
def valueNamed? (f : Function) (name : String) : Option ValueId :=
  ((f.params.find? fun p => p.name == name).map Param.id).or
    ((f.bindings.find? fun b => b.name == name).map Binding.id)

/-- The name of a value. -/
def nameOf? (f : Function) (id : ValueId) : Option String :=
  ((f.param? id).map Param.name).or ((f.binding? id).map Binding.name)

/-- The name of a value, or its number behind a percent sign. -/
def displayName (f : Function) (id : ValueId) : String :=
  (f.nameOf? id).getD ("%" ++ id.index.repr)

/-- The declared type of a value. -/
def typeOf? (f : Function) (id : ValueId) : Option ValueType :=
  ((f.param? id).map Param.ty).or ((f.binding? id).map Binding.ty)

end Function

mutual

/-- The type of a return expression in terms of the types of values; `none` when some
value has none. -/
def ReturnExpr.type? (typeOf : ValueId → Option ValueType) : ReturnExpr → Option ValueType
  | .value id => typeOf id
  | .tuple elements => (ReturnExpr.typeList? typeOf elements).map .tuple

/-- The types of several return expressions. -/
def ReturnExpr.typeList? (typeOf : ValueId → Option ValueType) :
    List ReturnExpr → Option (List ValueType)
  | [] => some []
  | element :: rest =>
    match element.type? typeOf, ReturnExpr.typeList? typeOf rest with
    | some ty, some tys => some (ty :: tys)
    | _, _ => none

end

/-- **`Function.returnType?`** -- the type of what the function returns, when every value
returned is defined. -/
def Function.returnType? (f : Function) : Option ValueType := f.ret.type? f.typeOf?

/-! ## Modules -/

namespace Module

/-- The module without functions. -/
def empty : Module := ⟨currentVersion, []⟩

/-- The names of the functions, in order. -/
def names (m : Module) : List String := m.functions.map Function.name

/-- The number of functions. -/
def size (m : Module) : Nat := m.functions.length

/-- The first function of the given name. -/
def get? (m : Module) (name : String) : Option Function :=
  m.functions.find? fun f => f.name == name

/-- Whether a function of the given name is present. -/
def contains (m : Module) (name : String) : Bool := (m.get? name).isSome

/-- Puts `f` where the first function of its name stands, or at the end. -/
def place (f : Function) : List Function → List Function
  | [] => [f]
  | g :: rest => if g.name = f.name then f :: rest else g :: place f rest

/-- **`insert`** -- the module with `f` in it: a function of the same name is replaced
where it stands, otherwise `f` comes last. The replaced function is `m.get? f.name`. -/
def insert (m : Module) (f : Function) : Module :=
  { m with functions := place f m.functions }

/-- What is found after a function was placed. -/
theorem find?_place (f : Function) (name : String) (fs : List Function) :
    (place f fs).find? (fun g => g.name == name) =
      if f.name = name then some f else fs.find? fun g => g.name == name := by
  induction fs with
  | nil =>
    rw [place, List.find?_cons, List.find?_nil]
    by_cases h : f.name = name
    · rw [if_pos h, beq_iff_eq.mpr h]
    · rw [if_neg h, beq_false_of_ne h]
  | cons g rest ih =>
    rw [place]
    split
    · next hg =>
      rw [List.find?_cons, List.find?_cons, hg]
      split <;> simp_all
    · next hg =>
      rw [List.find?_cons, List.find?_cons, ih]
      split
      · next hn =>
        have hf : f.name ≠ name := fun h => hg ((beq_iff_eq.mp hn).trans h.symm)
        rw [if_neg hf]
      · rfl

/-- **Look-up after insertion.** -/
theorem get?_insert (m : Module) (f : Function) (name : String) :
    (m.insert f).get? name = if f.name = name then some f else m.get? name :=
  find?_place f name m.functions

@[simp] theorem get?_insert_self (m : Module) (f : Function) :
    (m.insert f).get? f.name = some f := by
  rw [get?_insert, if_pos rfl]

/-- A new name comes last; a name that is there stays where it is. -/
theorem names_insert (m : Module) (f : Function) :
    (m.insert f).names = if f.name ∈ m.names then m.names else m.names ++ [f.name] := by
  obtain ⟨version, fs⟩ := m
  show (place f fs).map Function.name =
    if f.name ∈ fs.map Function.name then fs.map Function.name
    else fs.map Function.name ++ [f.name]
  induction fs with
  | nil => rfl
  | cons g rest ih =>
    rw [place]
    split
    · next hg => simp [hg]
    · next hg =>
      rw [List.map_cons, ih, List.map_cons]
      have hg' : f.name ≠ g.name := fun h => hg h.symm
      simp only [List.mem_cons, hg', false_or]
      split <;> rfl

/-- Inserts several functions, one after the other. -/
def insertAll (m : Module) (fs : List Function) : Module := fs.foldl insert m

end Module

end TensorGraph
