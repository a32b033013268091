import Blueprint.View

/-! The names that one file defines, and how they are looked up. -/

namespace Blueprint

structure ModuleDef where
  typeName : String
  name : String
  span : Span
deriving DecidableEq, Repr

structure VariableDef where
  name : String
  operator : Assignment
  span : Span
  /-- The range of the assigned value. -/
  valueSpan : Option Span
deriving DecidableEq, Repr

namespace ModuleDef

/-- The definition that a module of a file makes, when it has a type and a name. -/
def ofView? (v : ModuleView) : Option ModuleDef := do
  return ⟨← v.typeName?, ← v.name?, v.span⟩

/-- Adds a definition unless its name is taken. -/
def insert (defs : List ModuleDef) (d : ModuleDef) : List ModuleDef :=
  if defs.any (·.name == d.name) then defs else defs ++ [d]

end ModuleDef

namespace VariableDef

/-- The definition that a variable of a file makes, when it has a name and an operator. -/
def ofView? (v : VariableView) : Option VariableDef := do
  return ⟨← v.name?, ← v.operator?, v.span, v.value?.map View.span⟩

/-- How many definitions at the front of a list end at an offset or before it. The answer is right
only for a list in which no definition ends before one in front of it. -/
def countUpTo (offset : Nat) (defs : List VariableDef) : Nat :=
  partitionPoint (·.span.stop ≤ offset) defs

/-- The part of a list from its last `=` on; the whole list when there is none. -/
def fromLastAssign : List VariableDef → List VariableDef
  | [] => []
  | d :: ds => if ds.any (·.operator == .assign) then fromLastAssign ds else d :: ds

end VariableDef

/-- The names that a file defines: the first module of each name, and all definitions of variables
in their order. -/
structure Scope where
  modules : List ModuleDef
  assignments : List VariableDef
deriving DecidableEq, Repr

namespace Scope

def ofFile (file : FileView) : Scope where
  modules := (file.modules.filterMap ModuleDef.ofView?).foldl ModuleDef.insert []
  assignments := file.assignments.filterMap VariableDef.ofView?

def resolveModule? (scope : Scope) (name : String) : Option ModuleDef :=
  scope.modules.find? (·.name == name)

/-- The modules in the order of their names. -/
def sortedModules (scope : Scope) : List ModuleDef :=
  scope.modules.mergeSort fun a b => decide (a.name ≤ b.name)

/-- The definitions that make up the value of a variable at a byte offset: of those that end before
it the last `=` and every `+=` after that. A definition does not count inside its own value. -/
def definitions (scope : Scope) (name : String) (offset : Nat) : List VariableDef :=
  let defs := scope.assignments.filter (·.name == name)
  VariableDef.fromLastAssign (defs.take (VariableDef.countUpTo offset defs))

/-- The last definition of a variable before a byte offset. -/
def resolveVariable? (scope : Scope) (name : String) (offset : Nat) : Option VariableDef :=
  (scope.definitions name offset).getLast?

end Scope

/-- The definition that a reference means. -/
def ReferenceView.resolve? (v : ReferenceView) (scope : Scope) : Option VariableDef := do
  scope.resolveVariable? (← v.name?) v.span.start

end Blueprint
