/-!
# Styled text

Text for a terminal is a list of pieces, each with a colour, a weight and an underline. It is written with the fewest
changes of style: between two pieces only what differs is switched, colour first, then weight, then underline, and the
text ends in the plain style.
-/

namespace JackCompiler

/-- The colours of the terminal that the program uses. -/
inductive Colour where
  | red | green | yellow | blue | magenta | cyan
  deriving DecidableEq, Repr

/-- The number that selects a colour for the foreground. -/
def Colour.code : Colour → String
  | .red => "31"
  | .green => "32"
  | .yellow => "33"
  | .blue => "34"
  | .magenta => "35"
  | .cyan => "36"

/-- How a piece of text looks; `colour` is `none` for the terminal's own colour. -/
structure Style where
  colour : Option Colour := none
  bold : Bool := false
  underline : Bool := false
  deriving DecidableEq, Repr

namespace Style

/-- The terminal's own style. -/
def plain : Style := {}

/-- A foreground colour and nothing else. -/
def ofColour (colour : Colour) : Style := { colour := some colour }

/-- A foreground colour in bold. -/
def boldOf (colour : Colour) : Style := { colour := some colour, bold := true }

/-- Underlined text in the terminal's own colour. -/
def underlined : Style := { underline := true }

/-- The control sequence with the given number. -/
def control (number : String) : String :=
  "\x1b[" ++ number ++ "m"

/-- The control sequences that lead from one style to another: only what differs is switched. -/
def change (old new : Style) : String :=
  (if old.colour = new.colour then "" else control (new.colour.elim "39" Colour.code)) ++
  (if old.bold = new.bold then "" else control (if new.bold then "1" else "22")) ++
  (if old.underline = new.underline then "" else control (if new.underline then "4" else "24"))

end Style

/-- Text in pieces of one style each. -/
abbrev StyledText := List (Style × String)

namespace StyledText

/-- Writes the pieces after text in the style `current`, and returns to the plain style at the end. -/
def renderFrom (current : Style) : StyledText → String
  | [] => current.change .plain
  | (style, text) :: rest => current.change style ++ text ++ renderFrom style rest

/-- The text with its control sequences. -/
def render (text : StyledText) : String :=
  renderFrom .plain text

/-- The text alone, as it stands on the terminal. -/
def content (text : StyledText) : String :=
  String.join (text.map (·.2))

end StyledText

/-- Pads a text with blanks on the right to a width in characters; a longer text is not cut. -/
def padRight (width : Nat) (text : String) : String :=
  text.pushn ' ' (width - text.length)

/-- Pads a text with blanks on the left to a width in characters; a longer text is not cut. -/
def padLeft (width : Nat) (text : String) : String :=
  "".pushn ' ' (width - text.length) ++ text

end JackCompiler
