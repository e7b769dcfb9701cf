import JackCompiler.Vm.Instruction

/-!
# Variables

A variable is static, a field, an argument or a local; its kind decides the memory segment that holds it and the scope
that knows its name.
-/

namespace JackCompiler

/-- The kinds of variable. -/
inductive VariableKind where
  | static | field | argument | «local»
  deriving DecidableEq, Repr

namespace VariableKind

/-- How a kind is written. -/
def name : VariableKind → String
  | .static => "static"
  | .field => "field"
  | .argument => "argument"
  | .«local» => "local"

/-- Every kind. -/
def all : List VariableKind :=
  [.static, .field, .argument, .«local»]

/-- The kind with the given name, in exactly this case. -/
def ofName? (text : String) : Option VariableKind :=
  all.find? fun k => k.name == text

/-- The memory segment that holds the variables of a kind. -/
def segment : VariableKind → Vm.Segment
  | .static => .static
  | .field => .this
  | .argument => .argument
  | .«local» => .«local»

/-- Statics and fields belong to the class, arguments and locals to one subroutine. -/
def isOfClass : VariableKind → Bool
  | .static | .field => true
  | .argument | .«local» => false

end VariableKind

/-- A declared variable: its name, the name of its type, its kind and its place in the segment of its kind. -/
structure Variable where
  name : String
  type : String
  kind : VariableKind
  index : UInt16
  deriving DecidableEq, Repr

/-- The memory segment that holds a variable. -/
def Variable.segment (v : Variable) : Vm.Segment :=
  v.kind.segment

end JackCompiler
