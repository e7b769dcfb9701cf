/-!
# Characters of a document

Which characters a document may hold, which of them are layout, and what ends a line.
-/

namespace JackCompiler.Yaml

/-- Whether a document may hold a character. -/
def isAllowed (c : Char) : Bool :=
  c = '\t' || c = '\n' || c = '\r' || c = '\x85' || (' ' ≤ c && c ≤ '~') ||
    ('\xa0' ≤ c && c ≠ '\ufffe' && c ≠ '\uffff')

/-- A text in which each carriage return, newline, pair of the two and next-line character is one newline. -/
def unifyBreaks : List Char → List Char
  | [] => []
  | '\r' :: '\n' :: rest => '\n' :: unifyBreaks rest
  | c :: rest => (if c = '\r' || c = '\x85' then '\n' else c) :: unifyBreaks rest

/-- A character that ends a line. -/
def isBreak (c : Char) : Bool :=
  c = '\n' || c = '\u2028' || c = '\u2029'

/-- A blank within a line. -/
def isSpacing (c : Char) : Bool :=
  c = ' ' || c = '\t'

/-- A blank or a line end. -/
def isLayout (c : Char) : Bool :=
  isSpacing c || isBreak c

/-- Whether a text ends here or layout follows. -/
def isOpenEnd (text : List Char) : Bool :=
  text.head?.all isLayout

/-- The characters of names. -/
def isNameChar (c : Char) : Bool :=
  c.isAlphanum || c = '_' || c = '-'

/-- The characters that end a plain scalar inside braces. -/
def isFlowMark (c : Char) : Bool :=
  c = ',' || c = '[' || c = ']' || c = '\x7b' || c = '\x7d'

/-- Whether a line begins with three of a mark, alone or followed by layout. -/
def isTriple (mark : Char) (line : List Char) : Bool :=
  [mark, mark, mark].isPrefixOf line && isOpenEnd (line.drop 3)

/-- Whether a line begins with the mark before or after a document. -/
def isDocumentMark (line : List Char) : Bool :=
  isTriple '-' line || isTriple '.' line

/-- Whether the rest of a line holds nothing but blanks and a comment. -/
def isIdle (line : List Char) : Bool :=
  (line.dropWhile isSpacing).head?.all (· = '#')

/-- What stands behind a character of a text is shorter than the text. -/
theorem length_lt_of_drop_eq {text rest : List Char} {c : Char} {n : Nat} (h : text.drop n = c :: rest) :
    rest.length < text.length := by
  have := congrArg List.length h
  simp only [List.length_drop, List.length_cons] at this
  omega

/-- A place in a document: how many lines stand before it, and how many characters of its line. -/
structure Place where
  line : Nat
  column : Nat
  deriving DecidableEq, Repr

namespace Place

/-- The place after a character. -/
def next (place : Place) (c : Char) : Place :=
  if isBreak c then ⟨place.line + 1, 0⟩ else ⟨place.line, place.column + 1⟩

/-- The place after a run of characters. -/
def past (place : Place) (chars : List Char) : Place :=
  chars.foldl next place

end Place

end JackCompiler.Yaml
