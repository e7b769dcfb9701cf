import JackCompiler.Vm.Instruction

/-!
# Code

Code grows at its end, one instruction at a time, and is written one instruction per line.
-/

namespace JackCompiler.Vm

/-- A sequence of instructions in the order in which they were written. -/
structure Code where
  instructions : Array Instruction := #[]
  deriving DecidableEq, Repr

/-- Instructions one per line, each line ended by a newline. -/
def render (instructions : List Instruction) : String :=
  instructions.foldl (fun text i => text ++ i.text ++ "\n") ""

namespace Code

/-- Code without instructions. -/
def empty : Code := {}

/-- Adds an instruction at the end. -/
def write (code : Code) (i : Instruction) : Code :=
  ⟨code.instructions.push i⟩

/-- Adds instructions at the end, in order. -/
def writeAll (code : Code) (is : List Instruction) : Code :=
  is.foldl write code

/-- Adds a push at the end. -/
def push (code : Code) (segment : Segment) (index : UInt16) : Code :=
  code.write (.push segment index)

/-- Adds a pop at the end. -/
def pop (code : Code) (segment : Segment) (index : UInt16) : Code :=
  code.write (.pop segment index)

/-- Adds an arithmetic command at the end. -/
def arithmetic (code : Code) (command : Arithmetic) : Code :=
  code.write (.arithmetic command)

/-- Adds a label at the end. -/
def label (code : Code) (name : String) : Code :=
  code.write (.label name)

/-- Adds a jump at the end. -/
def goto (code : Code) (name : String) : Code :=
  code.write (.goto name)

/-- Adds a conditional jump at the end. -/
def ifGoto (code : Code) (name : String) : Code :=
  code.write (.ifGoto name)

/-- Adds a call at the end. -/
def call (code : Code) (name : String) (arguments : UInt16) : Code :=
  code.write (.call name arguments)

/-- Adds the head of a function at the end. -/
def function (code : Code) (name : String) (locals : UInt16) : Code :=
  code.write (.function name locals)

/-- Adds a return at the end. -/
def ret (code : Code) : Code :=
  code.write .«return»

/-- The number of instructions. -/
def length (code : Code) : Nat :=
  code.instructions.size

/-- The instruction written last. -/
def last? (code : Code) : Option Instruction :=
  code.instructions.back?

/-- The instructions in order. -/
def toList (code : Code) : List Instruction :=
  code.instructions.toList

/-- Whether the instruction written last is a return. -/
def endsWithReturn (code : Code) : Bool :=
  code.last?.any Instruction.isReturn

/-- The text of the code. -/
def text (code : Code) : String :=
  render code.toList

@[simp] theorem toList_empty : empty.toList = [] := rfl

@[simp] theorem toList_write (code : Code) (i : Instruction) : (code.write i).toList = code.toList ++ [i] := by
  simp [write, toList]

@[simp] theorem toList_writeAll (code : Code) (is : List Instruction) :
    (code.writeAll is).toList = code.toList ++ is := by
  induction is generalizing code with
  | nil => simp [writeAll]
  | cons i is ih =>
    have h := ih (code.write i)
    simp only [writeAll, List.foldl_cons] at h ⊢
    rw [h, toList_write, List.append_assoc, List.singleton_append]

end Code

end JackCompiler.Vm
