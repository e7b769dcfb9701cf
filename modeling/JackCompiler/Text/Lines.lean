/-!
# Lines of a text

A line ends at a newline, and a carriage return right before that newline belongs to the line end. A text that ends in a
newline has no further empty line after it, and a last line without newline keeps its carriage return.
-/

namespace JackCompiler

/-- Drops the carriage return that a line end starts with. -/
def dropCarriageReturn (line : List Char) : List Char :=
  if line.getLast? = some '\r' then line.dropLast else line

/-- The line with the given index, counted from 0, if the text has that many lines. -/
def lineAt? : Nat → List Char → Option (List Char)
  | _, [] => none
  | 0, c :: cs =>
    let line := (c :: cs).takeWhile (· ≠ '\n')
    if (c :: cs).any (· = '\n') then some (dropCarriageReturn line) else some line
  | n + 1, c :: cs => lineAt? n (((c :: cs).dropWhile (· ≠ '\n')).drop 1)

end JackCompiler
