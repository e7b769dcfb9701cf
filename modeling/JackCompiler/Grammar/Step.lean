import JackCompiler.Error
import JackCompiler.Grammar.Rule

/-!
# Steps

Reading a class yields a flat list of steps in the order of the text: rules begin and end, names are declared and used,
operands come before their operators. A step tells all that the meaning of the program needs from the text up to there,
and nothing about variables is decided yet.
-/

namespace JackCompiler

/-- The three ways to declare a subroutine. -/
inductive SubroutineKind where
  | constructor | function | method
  deriving DecidableEq, Repr

/-- The constants that have a reserved word. -/
inductive KeywordConstant where
  | true | false | null | this
  deriving DecidableEq, Repr

/-- The constant that a reserved word is, if it is one. -/
def KeywordConstant.ofKeyword? : Keyword → Option KeywordConstant
  | .true => some .true
  | .false => some .false
  | .null => some .null
  | .this => some .this
  | _ => none

/-- The operators with one operand. -/
inductive UnaryOperator where
  | negate | complement
  deriving DecidableEq, Repr

/-- The operators with two operands. -/
inductive BinaryOperator where
  | add | subtract | multiply | divide | and | or | less | greater | equal
  deriving DecidableEq, Repr

/-- The operator with two operands that a symbol stands for. -/
def BinaryOperator.ofSymbol? : Char → Option BinaryOperator
  | '+' => some .add
  | '-' => some .subtract
  | '*' => some .multiply
  | '/' => some .divide
  | '&' => some .and
  | '|' => some .or
  | '<' => some .less
  | '>' => some .greater
  | '=' => some .equal
  | _ => none

/-- What a call names: a subroutine of the class itself, or one of the variable or class before the dot. -/
inductive Callee where
  | own (subroutine : String)
  | qualified (qualifier subroutine : String)
  deriving DecidableEq, Repr

/-- One step in reading a class. -/
inductive Step where
  /-- A rule begins. -/
  | enter (rule : Rule)
  /-- A rule ends. -/
  | leave (rule : Rule)
  /-- The class has a name. -/
  | className (name : String)
  /-- A variable is declared at a place. -/
  | declare (kind : VariableKind) (type name : String) (place : Position)
  /-- A subroutine's declaration has come to its parameters. -/
  | beginSubroutine (kind : SubroutineKind)
  /-- The locals of a subroutine are declared and its statements follow. -/
  | beginBody (kind : SubroutineKind) (name : String)
  /-- The statements of a subroutine are over. -/
  | endBody
  /-- An integer constant is an operand. -/
  | integer (value : UInt16)
  /-- A string constant at a place is an operand. -/
  | string (body : String) (place : Position)
  /-- A constant with a reserved word is an operand. -/
  | constant (word : KeywordConstant)
  /-- A variable named at a place is an operand. -/
  | read (name : String) (place : Position)
  /-- A name at a place is used as a variable, whose value is needed later. -/
  | use (name : String) (place : Position)
  /-- The index into a variable used before is complete, and the element is an operand. -/
  | element (name : String) (place : Position)
  /-- The index into a variable used before is complete, and the element will be assigned. -/
  | elementAddress (name : String) (place : Position)
  /-- The operand of an operator is complete. -/
  | unary (operator : UnaryOperator)
  /-- Both operands of an operator are complete. -/
  | binary (operator : BinaryOperator)
  /-- A call begins. -/
  | receiver (callee : Callee)
  /-- The argument with the given number, counted from 1, that began at a place is complete. -/
  | argument (callee : Callee) (number : Nat) (place : Option Position)
  /-- All arguments of a call are complete. -/
  | call (callee : Callee) (arguments : Nat)
  /-- The value of an assignment to a variable used before is complete. -/
  | assign (name : String) (place : Position)
  /-- The value of an assignment to an element is complete. -/
  | assignElement
  /-- The value of a call is not needed. -/
  | discard
  /-- A subroutine returns without naming a value. -/
  | noValue
  /-- The value that a subroutine returns is complete. -/
  | ret
  /-- The condition of an `if` is complete. -/
  | beginIf
  /-- The first block of an `if` is over and an `else` follows. -/
  | beginElse
  /-- An `if` without `else` is over. -/
  | endIf
  /-- An `if` with `else` is over. -/
  | endIfElse
  /-- A `while` begins. -/
  | beginWhile
  /-- The condition of a `while` is complete. -/
  | testWhile
  /-- A `while` is over. -/
  | endWhile
  deriving DecidableEq, Repr

/-- What an observer of the rules sees of a step. -/
def Step.event? : Step → Option Event
  | .enter rule => some (.enter rule)
  | .leave rule => some (.leave rule)
  | _ => none

end JackCompiler
