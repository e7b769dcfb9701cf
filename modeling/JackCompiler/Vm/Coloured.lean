import JackCompiler.Text.Styled
import JackCompiler.Vm.Instruction

/-!
# Coloured instructions

For a terminal an instruction is written in columns: the command in red and the segment in blue, each padded to nine
characters, a label in magenta, the name of a function or a jump's target in green, a number in yellow.
-/

namespace JackCompiler.Vm

/-- The width of a column. -/
def columnWidth : Nat := 9

/-- The command of an instruction, padded to the width of its column. -/
def commandColumn (command : String) : Style × String :=
  (.ofColour .red, padRight columnWidth command)

/-- An instruction that moves a word between the stack and a segment. -/
def styledMove (command : String) (segment : Segment) (index : UInt16) : StyledText :=
  [commandColumn command, (.ofColour .blue, padRight columnWidth segment.name),
    (.ofColour .yellow, toString index.toNat)]

/-- An instruction that jumps. -/
def styledJump (command target : String) : StyledText :=
  [commandColumn command, (.ofColour .green, target)]

/-- An instruction in pieces of one style each. -/
def Instruction.styled : Instruction → StyledText
  | .push segment index => styledMove "push" segment index
  | .pop segment index => styledMove "pop" segment index
  | .arithmetic command => [(.ofColour .red, command.name)]
  | .label name => [(.ofColour .magenta, name), (.plain, ":")]
  | .goto name => styledJump "goto" name
  | .ifGoto name => styledJump "if-goto" name
  | .function name locals =>
    [(.boldOf .red, padRight columnWidth "function"), (.boldOf .green, name), (.plain, " "),
      (.ofColour .yellow, toString locals.toNat)]
  | .call name arguments =>
    [commandColumn "call", (.ofColour .green, name), (.plain, " "), (.ofColour .yellow, toString arguments.toNat)]
  | .«return» => [(.ofColour .red, "return")]

/-- An instruction with the control sequences of its colours. -/
def Instruction.coloured (i : Instruction) : String :=
  i.styled.render

end JackCompiler.Vm
