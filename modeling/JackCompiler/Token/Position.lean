/-!
# Positions

A position is a row and a column, counted from 1 in characters. Only a newline starts a row. The position `0:0` stands
before the first token of a text that has none.
-/

namespace JackCompiler

/-- A place in a source text. -/
structure Position where
  row : Nat
  col : Nat
  deriving DecidableEq, Repr

namespace Position

/-- Where a text begins. -/
def start : Position := ⟨1, 1⟩

/-- The place that stands for a text without tokens. -/
def nowhere : Position := ⟨0, 0⟩

/-- The position after one character. -/
def next (p : Position) (c : Char) : Position :=
  if c = '\n' then ⟨p.row + 1, 1⟩ else ⟨p.row, p.col + 1⟩

/-- The position after a run of characters. -/
def after (p : Position) (cs : List Char) : Position :=
  cs.foldl next p

/-- The position as messages write it. -/
def text (p : Position) : String :=
  toString p.row ++ ":" ++ toString p.col

@[simp] theorem after_nil (p : Position) : p.after [] = p := rfl

@[simp] theorem after_cons (p : Position) (c : Char) (cs : List Char) : p.after (c :: cs) = (p.next c).after cs := rfl

theorem after_append (p : Position) (cs ds : List Char) : p.after (cs ++ ds) = (p.after cs).after ds := by
  simp [after]

end Position

end JackCompiler
