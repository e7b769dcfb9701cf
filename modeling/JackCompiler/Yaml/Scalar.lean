/-!
# Scalars

The values of a document are texts. How a text is written, and the tag it bears, decide what it may stand for.
-/

namespace JackCompiler.Yaml

/-- How a scalar is written: bare, between quotes, or as the lines after a mark, kept or folded. -/
inductive Style where
  | plain | quoted | literal | folded
  deriving DecidableEq, Repr

/-- Whether a scalar is written as the lines after a mark. -/
def Style.isBlock (style : Style) : Bool :=
  style = .literal || style = .folded

/-- A text in a document, how it is written and its tag, if it has one. -/
structure Scalar where
  text : String
  style : Style
  tag? : Option String := none
  deriving DecidableEq, Repr

namespace Scalar

/-- The value that stands where none is written. -/
def absent : Scalar := ⟨"", .plain, none⟩

/-- Whether nothing is written for a scalar, its tag aside. -/
def isAbsent (value : Scalar) : Bool :=
  value.style = .plain && value.text = ""

/-- Whether a scalar may stand for something other than a text: a plain one may, and a literal one with the tag for it. -/
def standsFor (tag : String) (value : Scalar) : Bool :=
  value.style = .plain || value.style = .literal && value.tag? = some tag

end Scalar

end JackCompiler.Yaml
