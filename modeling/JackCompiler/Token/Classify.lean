import JackCompiler.Error
import JackCompiler.Text.Decimal

/-!
# Classes of lexemes

A whole lexeme is read as the first of these that it is: a reserved word, a symbol, a string constant in its quotes, an
identifier, a run of digits up to `maxConstant`. Letters and digits are those of ASCII.
-/

namespace JackCompiler

/-- A character that may begin an identifier. -/
def isIdentifierStart (c : Char) : Bool :=
  c.isAlpha || c = '_'

/-- A character that may continue an identifier. -/
def isIdentifierChar (c : Char) : Bool :=
  c.isAlphanum || c = '_'

/-- A character that a string constant may hold besides the limit on its code: any but a quote and a newline. -/
def isStringChar (c : Char) : Bool :=
  c ≠ '"' && c ≠ '\n'

/-- The body of a string constant, when a lexeme is one: what stands between its first and its last character, both
quotes, when no quote and no newline is in it. -/
def stringBody? : List Char → Option (List Char)
  | '"' :: rest =>
    if rest.getLast? = some '"' && rest.dropLast.all isStringChar then some rest.dropLast else none
  | _ => none

/-- The kind of token that a lexeme at a position is. -/
def classify (lexeme : String) (p : Position) : Except LexError TokenKind :=
  match Keyword.ofSpelling? lexeme with
  | some word => .ok (.keyword word)
  | none =>
    match lexeme.toList with
    | [] => .error (.unexpectedChar ' ' p)
    | c :: cs =>
      if cs = [] && symbolChars.contains c then .ok (.symbol c)
      else match stringBody? (c :: cs) with
        | some body => .ok (.string (String.ofList body))
        | none =>
          if isIdentifierStart c && cs.all isIdentifierChar then .ok (.identifier lexeme)
          else if (c :: cs).all Char.isDigit then
            let n := Decimal.value (c :: cs)
            if n ≤ maxConstant then .ok (.integer n.toUInt16) else .error (.integerOutOfRange lexeme p)
          else .error (.unexpectedChar c p)

end JackCompiler
