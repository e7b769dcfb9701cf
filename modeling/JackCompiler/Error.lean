import JackCompiler.Token.Basic
import JackCompiler.Variable.Basic

/-!
# Errors

What can go wrong, by cause and by stage: in the characters, in the order of tokens, with the names, and with files. One
function per stage words the message; `Error.category` names the stage and `Error.position?` the place, if there is one.
-/

namespace JackCompiler

/-- What can be wrong with the characters of a source text, or with a constant that code cannot hold. -/
inductive LexError where
  /-- A character begins no token. -/
  | unexpectedChar (char : Char) (place : Position)
  /-- A string constant meets a newline or the end of the text. -/
  | unterminatedString (start : Position)
  /-- A block comment meets the end of the text. -/
  | unterminatedComment (start : Position)
  /-- A run of digits stands for more than `maxConstant`. -/
  | integerOutOfRange (digits : String) (place : Position)
  /-- A character of a string constant has a code above `maxConstant`. -/
  | stringCharOutOfRange (char : Char) (place : Position)
  /-- A string constant has more than `maxConstant` characters. -/
  | stringTooLong (start : Position)
  deriving DecidableEq, Repr

/-- What can be wrong with the order of tokens. -/
inductive GrammarError where
  /-- Something else was expected in place of a token. -/
  | unexpectedToken (expected : String) (found : Token)
  /-- Something was expected after the last token. -/
  | unexpectedEnd (expected : String) (last : Position)
  /-- A token follows the end of the class. -/
  | trailingToken (found : Token)
  deriving DecidableEq, Repr

/-- What a program can have too many of. -/
inductive Countable where
  | variablesOf (kind : VariableKind)
  | arguments
  deriving DecidableEq, Repr

/-- The counted things in the words of a message. -/
def Countable.text : Countable → String
  | .variablesOf kind => kind.name ++ " variables"
  | .arguments => "arguments"

/-- What can be wrong with a name. -/
inductive NameError where
  /-- A name is used as a variable and is not declared. -/
  | undefined (name : String) (place : Option Position)
  /-- A scope that allows a name once already holds it. -/
  | redeclared (name : String) (place : Option Position)
  /-- Something is counted past the largest operand of an instruction. -/
  | tooMany (what : Countable) (name : String) (place : Option Position)
  deriving DecidableEq, Repr

/-- What can go wrong with files. -/
inductive FileError where
  | unreadable (path : String)
  | unwritable (path : String)
  | unlistable (path : String)
  /-- A directory holds no source file. -/
  | noSources (root extension : String)
  /-- A configuration file is not one. -/
  | invalidConfig (path : String)
  deriving DecidableEq, Repr

/-- Anything that can go wrong, by stage. -/
inductive Error where
  | lex (cause : LexError)
  | grammar (cause : GrammarError)
  | name (cause : NameError)
  | file (cause : FileError)
  deriving DecidableEq, Repr

namespace LexError

/-- The message of an error in the characters. -/
def message : LexError → String
  | unexpectedChar char p => "Unexpected character `" ++ char.toString ++ "` at " ++ p.text
  | unterminatedString start => "Unterminated string constant starting at " ++ start.text
  | unterminatedComment start => "Unterminated block comment starting at " ++ start.text
  | integerOutOfRange digits p => "Integer constant " ++ digits ++ " out of range (0..=32767) at " ++ p.text
  | stringCharOutOfRange char p =>
    "Character `" ++ char.toString ++ "` in string constant out of range (0..=32767) at " ++ p.text
  | stringTooLong start => "String constant longer than 32767 characters starting at " ++ start.text

/-- Where an error in the characters is. -/
def position : LexError → Position
  | unexpectedChar _ p | integerOutOfRange _ p | stringCharOutOfRange _ p => p
  | unterminatedString p | unterminatedComment p | stringTooLong p => p

end LexError

namespace GrammarError

/-- The message of an error in the order of tokens. -/
def message : GrammarError → String
  | unexpectedToken expected found => "Expected " ++ expected ++ ", found " ++ found.description
  | unexpectedEnd expected last => "Expected " ++ expected ++ ", found end of input after " ++ last.text
  | trailingToken found => "Unexpected " ++ found.description ++ " after end of class"

/-- Where an error in the order of tokens is. -/
def position : GrammarError → Position
  | unexpectedToken _ found | trailingToken found => found.position
  | unexpectedEnd _ last => last

/-- The error of not finding what was expected: at the token that stands there, or after the last one. -/
def unmet (expected : String) (head : Option Token) (last : Position) : GrammarError :=
  match head with
  | some found => unexpectedToken expected found
  | none => unexpectedEnd expected last

end GrammarError

namespace NameError

/-- The place of a name in the words of a message. -/
def placeText (place : Option Position) : String :=
  place.elim "" fun p => " at " ++ p.text

/-- The message of an error with a name. -/
def message : NameError → String
  | undefined name p => "Undefined identifier `" ++ name ++ "`" ++ placeText p
  | redeclared name p => "Identifier `" ++ name ++ "` already declared in this scope" ++ placeText p
  | tooMany what name p => "Too many " ++ what.text ++ " (limit 65535) at `" ++ name ++ "`" ++ placeText p

/-- Where an error with a name is, if it is known. -/
def position? : NameError → Option Position
  | undefined _ p | redeclared _ p | tooMany _ _ p => p

/-- Gives a place to an error that has none. -/
def located (p : Position) : NameError → NameError
  | undefined name none => undefined name (some p)
  | redeclared name none => redeclared name (some p)
  | tooMany what name none => tooMany what name (some p)
  | e => e

end NameError

namespace FileError

/-- The message of an error with files. -/
def message : FileError → String
  | unreadable path => "Failed to read " ++ path
  | unwritable path => "Failed to write " ++ path
  | unlistable path => "Failed to read directory " ++ path
  | noSources root extension => "No ." ++ extension ++ " files found in " ++ root
  | invalidConfig path => "Invalid config file " ++ path

end FileError

namespace Error

/-- The message of an error. -/
def message : Error → String
  | lex cause => cause.message
  | grammar cause => cause.message
  | name cause => cause.message
  | file cause => cause.message

/-- The stage of an error in the words of a message. -/
def category : Error → String
  | lex _ => "lex"
  | grammar _ => "parse"
  | name _ => "symbol"
  | file _ => "io"

/-- Where an error is, if it has a place in a source text. -/
def position? : Error → Option Position
  | lex cause => some cause.position
  | grammar cause => some cause.position
  | name cause => cause.position?
  | file _ => none

end Error

end JackCompiler
