import JackCompiler.Generation.Compile
import JackCompiler.Vm.Coloured

/-!
# Class listings

A compiled class is listed in a frame: its own variables, then its code with labels and instructions set in.
-/

namespace JackCompiler.ClassListing

/-- The width of a frame. -/
def width : Nat := 64

/-- Dashes in a row. -/
def dashes (n : Nat) : String :=
  "".pushn '-' n

/-- The line at the top of a frame, with the name of the class in it. -/
def top (name : String) : StyledText :=
  [(.plain, "+-[" ++ name ++ "]-" ++ dashes (width - 4 - name.utf8ByteSize))]

/-- A line across a frame. -/
def rule : StyledText :=
  [(.plain, "+" ++ dashes width)]

/-- The line of a variable: its kind, its index, its type and its name. -/
def variableLine (v : Variable) : StyledText :=
  [(.plain, "| "), (.ofColour .cyan, padRight 7 v.kind.name), (.plain, " "),
    (.ofColour .yellow, padLeft 3 (toString v.index.toNat)), (.plain, " : " ++ v.type ++ " "), (.ofColour .blue, v.name)]

/-- How far an instruction is set in: functions stand at the margin, labels one blank off it. -/
def indent : Vm.Instruction → String
  | .function .. => "| "
  | .label _ => "|  "
  | _ => "|     "

/-- The line of an instruction. -/
def instructionLine (i : Vm.Instruction) : StyledText :=
  (.plain, indent i) :: i.styled

/-- The lines that list a class. -/
def lines (c : CompiledClass) : List StyledText :=
  let declared := if c.classVariables.isEmpty then [] else c.classVariables.map variableLine ++ [rule]
  top c.name :: declared ++ c.code.map instructionLine ++ [rule]

end JackCompiler.ClassListing
