import JackCompiler.Token.Basic

/-!
# Token listings

A listing of tokens is a marked-up text: one line per token with its kind as the mark and its value in between, inside a
line that opens and a line that closes the listing. The four characters that marks are made of are written as entities.
-/

namespace JackCompiler

/-- How a character is written in a value: the characters of marks by name, all others as they are. -/
def escapeChar : Char → List Char
  | '<' => "&lt;".toList
  | '>' => "&gt;".toList
  | '&' => "&amp;".toList
  | '"' => "&quot;".toList
  | c => [c]

/-- A text with the characters of marks written by name. -/
def escape (text : String) : String :=
  String.ofList (text.toList.flatMap escapeChar)

/-- The value of a token in a listing: the body of a string constant, the spelling of any other. -/
def TokenKind.value : TokenKind → String
  | .string body => body
  | kind => kind.lexeme

/-- The line of a token in a listing, without the newline. -/
def TokenKind.entry (kind : TokenKind) : String :=
  "<" ++ kind.category.name ++ "> " ++ escape kind.value ++ " </" ++ kind.category.name ++ ">"

/-- The listing of tokens. -/
def listing (tokens : List Token) : String :=
  tokens.foldl (fun text token => text ++ token.kind.entry ++ "\n") "<tokens>\n" ++ "</tokens>\n"

end JackCompiler
