import JackCompiler.Error

/-!
# Declared variables

A table holds the variables of two scopes: those of the class, and those of the subroutine at hand, which shadow them and
are forgotten when the next subroutine starts. Each kind has a counter. A declaration takes the next index of its kind; a
name declared again in its scope keeps its place in the order and gets the new variable, and the old index stays used up.
-/

namespace JackCompiler

/-- A number for each kind of variable. -/
structure Counters where
  static : UInt16 := 0
  field : UInt16 := 0
  argument : UInt16 := 0
  «local» : UInt16 := 0
  deriving DecidableEq, Repr

namespace Counters

/-- The number of a kind. -/
def get (counters : Counters) : VariableKind → UInt16
  | .static => counters.static
  | .field => counters.field
  | .argument => counters.argument
  | .«local» => counters.«local»

/-- Replaces the number of a kind. -/
def set (counters : Counters) (kind : VariableKind) (n : UInt16) : Counters :=
  match kind with
  | .static => { counters with static := n }
  | .field => { counters with field := n }
  | .argument => { counters with argument := n }
  | .«local» => { counters with «local» := n }

@[simp] theorem get_set (counters : Counters) (kind other : VariableKind) (n : UInt16) :
    (counters.set kind n).get other = if other = kind then n else counters.get other := by
  cases kind <;> cases other <;> rfl

end Counters

/-- The variables of one scope, in the order in which their names were first declared. -/
abbrev Scope := List Variable

namespace Scope

/-- The variable with the given name. -/
def find? (scope : Scope) (name : String) : Option Variable :=
  List.find? (fun v => v.name == name) scope

/-- Whether a name is declared. -/
def contains (scope : Scope) (name : String) : Bool :=
  scope.any fun v => v.name == name

/-- Puts a variable in the place of the one with its name, or at the end. -/
def insert (scope : Scope) (v : Variable) : Scope :=
  if scope.contains v.name then scope.map fun w => if w.name == v.name then v else w
  else scope ++ [v]

end Scope

/-- The variables that are declared, by scope, and how many of each kind were. -/
structure SymbolTable where
  ofClass : Scope := []
  ofSubroutine : Scope := []
  counters : Counters := {}
  deriving DecidableEq, Repr

namespace SymbolTable

/-- The table without variables. -/
def empty : SymbolTable := {}

/-- The scope that variables of a kind belong to. -/
def scope (table : SymbolTable) (kind : VariableKind) : Scope :=
  if kind.isOfClass then table.ofClass else table.ofSubroutine

/-- Replaces the scope that variables of a kind belong to. -/
def setScope (table : SymbolTable) (kind : VariableKind) (scope : Scope) : SymbolTable :=
  if kind.isOfClass then { table with ofClass := scope } else { table with ofSubroutine := scope }

/-- Forgets the variables of the last subroutine and counts its kinds from 0 again. -/
def startSubroutine (table : SymbolTable) : SymbolTable :=
  { table with ofSubroutine := [], counters := { table.counters with argument := 0, «local» := 0 } }

/-- How many variables of a kind were declared. -/
def count (table : SymbolTable) (kind : VariableKind) : UInt16 :=
  table.counters.get kind

/-- The largest number of variables of one kind. -/
def maxCount : UInt16 := 65535

/-- Declares a variable of a kind, unless the counter of the kind is at its end. -/
def define (table : SymbolTable) (name type : String) (kind : VariableKind) : Except NameError SymbolTable :=
  let index := table.count kind
  if index = maxCount then .error (.tooMany (.variablesOf kind) name none)
  else
    let table := table.setScope kind ((table.scope kind).insert ⟨name, type, kind, index⟩)
    .ok { table with counters := table.counters.set kind (index + 1) }

/-- Whether the scope that variables of a kind belong to holds a name. -/
def isDefinedInScope (table : SymbolTable) (name : String) (kind : VariableKind) : Bool :=
  (table.scope kind).contains name

/-- The variable that a name stands for: that of the subroutine before that of the class. -/
def lookup? (table : SymbolTable) (name : String) : Option Variable :=
  (table.ofSubroutine.find? name).or (table.ofClass.find? name)

/-- The variable that a name stands for, which has to be declared. -/
def resolve (table : SymbolTable) (name : String) : Except NameError Variable :=
  (table.lookup? name).elim (.error (.undefined name none)) .ok

/-- The kind of the variable that a name stands for. -/
def kindOf (table : SymbolTable) (name : String) : Except NameError VariableKind :=
  (table.resolve name).map (·.kind)

/-- The type of the variable that a name stands for. -/
def typeOf (table : SymbolTable) (name : String) : Except NameError String :=
  (table.resolve name).map (·.type)

/-- The index of the variable that a name stands for. -/
def indexOf (table : SymbolTable) (name : String) : Except NameError UInt16 :=
  (table.resolve name).map (·.index)

end SymbolTable

end JackCompiler
