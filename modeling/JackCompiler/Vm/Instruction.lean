/-!
# Instructions of the virtual machine

The stack machine has eight memory segments, nine arithmetic and logic commands and nine kinds of instruction. Each
instruction is written on one line: the command, then its operands, with one blank between them.
-/

namespace JackCompiler.Vm

/-- The memory segments. -/
inductive Segment where
  | constant | argument | «local» | static | this | that | pointer | temp
  deriving DecidableEq, Repr

namespace Segment

/-- How a segment is written. -/
def name : Segment → String
  | .constant => "constant"
  | .argument => "argument"
  | .«local» => "local"
  | .static => "static"
  | .this => "this"
  | .that => "that"
  | .pointer => "pointer"
  | .temp => "temp"

/-- Every segment. -/
def all : List Segment :=
  [.constant, .argument, .«local», .static, .this, .that, .pointer, .temp]

/-- The segment with the given name, in exactly this case. -/
def ofName? (text : String) : Option Segment :=
  all.find? fun s => s.name == text

/-- The segment with the given name, or the message that there is none. -/
def parse (text : String) : Except String Segment :=
  (ofName? text).elim (.error ("Unknown segment name: " ++ text)) .ok

end Segment

/-- The commands that work on the top of the stack. -/
inductive Arithmetic where
  | add | sub | neg | eq | gt | lt | and | or | not
  deriving DecidableEq, Repr

namespace Arithmetic

/-- How a command is written. -/
def name : Arithmetic → String
  | .add => "add"
  | .sub => "sub"
  | .neg => "neg"
  | .eq => "eq"
  | .gt => "gt"
  | .lt => "lt"
  | .and => "and"
  | .or => "or"
  | .not => "not"

/-- Every command. -/
def all : List Arithmetic :=
  [.add, .sub, .neg, .eq, .gt, .lt, .and, .or, .not]

/-- The command with the given name, in exactly this case. -/
def ofName? (text : String) : Option Arithmetic :=
  all.find? fun a => a.name == text

end Arithmetic

/-- One instruction. Operands are kept as given: nothing here asks whether a label exists or an index is in range. -/
inductive Instruction where
  | push (segment : Segment) (index : UInt16)
  | pop (segment : Segment) (index : UInt16)
  | arithmetic (command : Arithmetic)
  | label (name : String)
  | goto (name : String)
  | ifGoto (name : String)
  | function (name : String) (locals : UInt16)
  | call (name : String) (arguments : UInt16)
  | «return»
  deriving DecidableEq, Repr

namespace Instruction

/-- An instruction as one line of text, without the newline. -/
def text : Instruction → String
  | .push segment index => "push " ++ segment.name ++ " " ++ toString index.toNat
  | .pop segment index => "pop " ++ segment.name ++ " " ++ toString index.toNat
  | .arithmetic command => command.name
  | .label name => "label " ++ name
  | .goto name => "goto " ++ name
  | .ifGoto name => "if-goto " ++ name
  | .function name locals => "function " ++ name ++ " " ++ toString locals.toNat
  | .call name arguments => "call " ++ name ++ " " ++ toString arguments.toNat
  | .«return» => "return"

/-- Whether an instruction leaves its function. -/
def isReturn : Instruction → Bool
  | .«return» => true
  | _ => false

end Instruction

end JackCompiler.Vm
