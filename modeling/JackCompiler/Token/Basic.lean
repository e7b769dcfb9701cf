import JackCompiler.Token.Position

/-!
# Tokens

The five kinds of token, the twenty-one reserved words, the nineteen symbols, and how a token is spelled.
-/

namespace JackCompiler

/-- The reserved words. -/
inductive Keyword where
  | «class» | constructor | function | method | field | static | var | int | char | boolean | void
  | true | false | null | this | «let» | «do» | «if» | «else» | while | «return»
  deriving DecidableEq, Repr

namespace Keyword

/-- How a reserved word is written. -/
def spelling : Keyword → String
  | .«class» => "class"
  | .constructor => "constructor"
  | .function => "function"
  | .method => "method"
  | .field => "field"
  | .static => "static"
  | .var => "var"
  | .int => "int"
  | .char => "char"
  | .boolean => "boolean"
  | .void => "void"
  | .true => "true"
  | .false => "false"
  | .null => "null"
  | .this => "this"
  | .«let» => "let"
  | .«do» => "do"
  | .«if» => "if"
  | .«else» => "else"
  | .while => "while"
  | .«return» => "return"

/-- Every reserved word. -/
def all : List Keyword :=
  [.«class», .constructor, .function, .method, .field, .static, .var, .int, .char, .boolean, .void,
    .true, .false, .null, .this, .«let», .«do», .«if», .«else», .while, .«return»]

/-- The reserved word with the given spelling, in exactly this case. -/
def ofSpelling? (text : String) : Option Keyword :=
  all.find? fun k => k.spelling == text

end Keyword

/-- The characters that are tokens by themselves. -/
def symbolChars : List Char :=
  ['\x7b', '\x7d', '(', ')', '[', ']', '.', ',', ';', '+', '-', '*', '/', '&', '|', '<', '>', '=', '~']

/-- The largest number that one instruction can push, and so the limit of every constant. -/
def maxConstant : Nat := 32767

/-- The five kinds of token by name. -/
inductive Category where
  | keyword | symbol | identifier | integerConstant | stringConstant
  deriving DecidableEq, Repr

/-- The name of a kind of token, as messages and listings write it. -/
def Category.name : Category → String
  | .keyword => "keyword"
  | .symbol => "symbol"
  | .identifier => "identifier"
  | .integerConstant => "integerConstant"
  | .stringConstant => "stringConstant"

/-- What a token is, whatever its place. A string constant holds its body without the quotes. -/
inductive TokenKind where
  | keyword (word : Keyword)
  | symbol (char : Char)
  | identifier (name : String)
  | integer (value : UInt16)
  | string (body : String)
  deriving DecidableEq, Repr

namespace TokenKind

/-- The kind of a token by name. -/
def category : TokenKind → Category
  | .keyword _ => .keyword
  | .symbol _ => .symbol
  | .identifier _ => .identifier
  | .integer _ => .integerConstant
  | .string _ => .stringConstant

/-- How a token is spelled: a string constant with its quotes and nothing escaped, an integer in plain decimal. -/
def lexeme : TokenKind → String
  | .keyword word => word.spelling
  | .symbol char => char.toString
  | .identifier name => name
  | .integer value => toString value.toNat
  | .string body => "\"" ++ body ++ "\""

/-- A token in the words of a message: its kind and its spelling. -/
def description (kind : TokenKind) : String :=
  kind.category.name ++ " `" ++ kind.lexeme ++ "`"

end TokenKind

/-- A token at its place. -/
structure Token where
  kind : TokenKind
  position : Position
  deriving DecidableEq, Repr

namespace Token

/-- A token in the words of a message: its kind, its spelling and its place. -/
def description (token : Token) : String :=
  token.kind.description ++ " at " ++ token.position.text

/-- The place of the last token, where a text that ends too early is reported. -/
def endPosition (tokens : List Token) : Position :=
  (tokens.getLast?.map position).getD .nowhere

end Token

end JackCompiler
