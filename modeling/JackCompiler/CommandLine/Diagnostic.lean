import JackCompiler.Error
import JackCompiler.Text.Lines
import JackCompiler.Text.Styled

/-!
# Diagnostics

An error is shown with its stage, its message and the file. When it has a place, the line of the source is shown too, with
a caret under the character.
-/

namespace JackCompiler

namespace Diagnostic

/-- The width of row numbers. -/
def rowWidth : Nat := 4

/-- The first line: the stage and the message. -/
def headline (e : Error) : StyledText :=
  [(.boldOf .red, "error[" ++ e.category ++ "]"), (.plain, ": " ++ e.message)]

/-- The line that names the file, and the place if there is one. -/
def fileLine (label : String) : StyledText :=
  [(.plain, "     "), (.ofColour .blue, "-->"), (.plain, " "), (.underlined, label)]

/-- The margin of a line that has no number. -/
def margin : StyledText :=
  [(.plain, "      "), (.ofColour .blue, "|")]

/-- The line of the source at a row; rows are counted from 1, and a row that does not exist is empty. -/
def sourceLine (source : String) (row : Nat) : String :=
  String.ofList ((lineAt? (row - 1) source.toList).getD [])

/-- The numbered line of the source. -/
def quotedLine (source : String) (row : Nat) : StyledText :=
  [(.plain, " "), (.ofColour .blue, padLeft rowWidth (toString row) ++ " |"), (.plain, " " ++ sourceLine source row)]

/-- The line with the caret, under the character in a column. -/
def caretLine (col : Nat) : StyledText :=
  margin ++ [(.plain, " " ++ "".pushn ' ' (col - 1)), (.boldOf .red, "^")]

/-- The lines that show an error in a file with the given source. -/
def lines (e : Error) (file source : String) : List StyledText :=
  match e.position? with
  | none => [headline e, fileLine file]
  | some p => [headline e, fileLine (file ++ ":" ++ p.text), margin, quotedLine source p.row, caretLine p.col]

end Diagnostic

end JackCompiler
