import JackCompiler.Grammar.Step
import JackCompiler.Variable.Table
import JackCompiler.Vm.Code

/-!
# Code generation

A generator goes through the steps of a class, declares and resolves names, and writes code. It stops at the first step
that has no meaning: a name that is not declared, too many of something, or a constant that no instruction can push.
-/

namespace JackCompiler

open Vm

/-- What the steps up to some point amount to. -/
structure Generator where
  /-- Whether a scope allows each name only once. -/
  strict : Bool
  className : String := ""
  table : SymbolTable := .empty
  code : Code := .empty
  /-- How many `if` and `while` the subroutine has begun. -/
  constructs : Nat := 0
  /-- The numbers of those that are not over, the innermost first. -/
  unfinished : List Nat := []

/-- The largest number of arguments of a call, receiver included. -/
def maxArguments : Nat := 65535

/-- The label of an `if` before its `else`, or after it when it has none. Each construct owns two numbers. -/
def elseLabel (construct : Nat) : String :=
  "IF_ELSE_" ++ toString (2 * construct)

/-- The label after an `if` with an `else`. -/
def endIfLabel (construct : Nat) : String :=
  "IF_END_" ++ toString (2 * construct + 1)

/-- The label before the condition of a `while`. -/
def topLabel (construct : Nat) : String :=
  "WHILE_TOP_" ++ toString (2 * construct)

/-- The label after a `while`. -/
def endWhileLabel (construct : Nat) : String :=
  "WHILE_END_" ++ toString (2 * construct + 1)

/-- A name inside a class, as the machine knows it. -/
def qualify (owner member : String) : String :=
  owner ++ "." ++ member

/-- The instructions of an operator with one operand. -/
def UnaryOperator.code : UnaryOperator → List Instruction
  | .negate => [.arithmetic .neg]
  | .complement => [.arithmetic .not]

/-- The instructions of an operator with two operands; products and quotients are calls. -/
def BinaryOperator.code : BinaryOperator → List Instruction
  | .add => [.arithmetic .add]
  | .subtract => [.arithmetic .sub]
  | .multiply => [.call "Math.multiply" 2]
  | .divide => [.call "Math.divide" 2]
  | .and => [.arithmetic .and]
  | .or => [.arithmetic .or]
  | .less => [.arithmetic .lt]
  | .greater => [.arithmetic .gt]
  | .equal => [.arithmetic .eq]

/-- The instructions of a constant with a reserved word: true is all ones. -/
def KeywordConstant.code : KeywordConstant → List Instruction
  | .true => [.push .constant 0, .arithmetic .not]
  | .false | .null => [.push .constant 0]
  | .this => [.push .pointer 0]

/-- The instructions that add a character to the string on the stack. -/
def appendCode (c : Char) : List Instruction :=
  [.push .constant c.toNat.toUInt16, .call "String.appendChar" 2]

/-- The instructions that build a string, character by character; its length and its codes have to be constants. -/
def stringCode (body : String) (p : Position) : Except LexError (List Instruction) :=
  if maxConstant < body.length then .error (.stringTooLong p)
  else match body.toList.find? fun c => maxConstant < c.toNat with
    | some c => .error (.stringCharOutOfRange c p)
    | none =>
      .ok (.push .constant body.length.toUInt16 :: .call "String.new" 1 :: body.toList.flatMap appendCode)

/-- The instructions at the start of a subroutine: a constructor makes its object, a method takes it from the caller. -/
def SubroutineKind.prologue (fields : UInt16) : SubroutineKind → List Instruction
  | .constructor => [.push .constant fields, .call "Memory.alloc" 1, .pop .pointer 0]
  | .method => [.push .argument 0, .pop .pointer 0]
  | .function => []

namespace Variable

/-- The instruction that reads a variable. -/
def read (v : Variable) : Instruction :=
  .push v.segment v.index

/-- The instruction that assigns to a variable. -/
def write (v : Variable) : Instruction :=
  .pop v.segment v.index

end Variable

namespace Generator

/-- Writes instructions. -/
def emit (g : Generator) (instructions : List Instruction) : Generator :=
  { g with code := g.code.writeAll instructions }

/-- The variable that a name at a place stands for. -/
def variableAt (g : Generator) (name : String) (p : Position) : Except Error Variable :=
  match g.table.resolve name with
  | .ok v => .ok v
  | .error e => .error (.name (e.located p))

/-- Declares a variable, unless the generator is strict and the scope holds the name. -/
def declare (g : Generator) (kind : VariableKind) (type name : String) (p : Position) : Except Error Generator :=
  if g.strict && g.table.isDefinedInScope name kind then .error (.name (.redeclared name (some p)))
  else match g.table.define name type kind with
    | .ok table => .ok { g with table }
    | .error e => .error (.name (e.located p))

/-- Forgets the last subroutine; a method has its object as its first argument. -/
def beginSubroutine (g : Generator) (kind : SubroutineKind) : Except Error Generator :=
  let g := { g with table := g.table.startSubroutine, constructs := 0, unfinished := [] }
  match kind with
  | .constructor | .function => .ok g
  | .method =>
    match g.table.define "this" g.className .argument with
    | .ok table => .ok { g with table }
    | .error e => .error (.name e)

/-- The machine's name of a callee: a subroutine of the class itself, of a variable's type, or of another class. -/
def target (g : Generator) : Callee → String
  | .own subroutine => qualify g.className subroutine
  | .qualified qualifier subroutine =>
    qualify ((g.table.lookup? qualifier).elim qualifier (·.type)) subroutine

/-- The instructions that push the object a call works on, if it works on one. -/
def receiverCode (g : Generator) : Callee → List Instruction
  | .own _ => [.push .pointer 0]
  | .qualified qualifier _ => (g.table.lookup? qualifier).toList.map (·.read)

/-- Begins an `if` or a `while` with code that depends on its number. -/
def beginConstruct (g : Generator) (code : Nat → List Instruction) : Generator :=
  let number := g.constructs
  emit { g with constructs := number + 1, unfinished := number :: g.unfinished } (code number)

/-- The number of the innermost `if` or `while` that is not over. -/
def innermost (g : Generator) : Nat :=
  g.unfinished.headD 0

/-- Writes code in the innermost `if` or `while`. -/
def inConstruct (g : Generator) (code : Nat → List Instruction) : Generator :=
  g.emit (code g.innermost)

/-- Ends the innermost `if` or `while` with code that depends on its number. -/
def endConstruct (g : Generator) (code : Nat → List Instruction) : Generator :=
  let number := g.innermost
  emit { g with unfinished := g.unfinished.tail } (code number)

/-- Writes code that depends on the variable that a name at a place stands for. -/
def emitWith (g : Generator) (name : String) (p : Position) (code : Variable → List Instruction) :
    Except Error Generator :=
  match g.variableAt name p with
  | .ok v => .ok (g.emit (code v))
  | .error e => .error e

/-- Goes one step. -/
def step (g : Generator) : Step → Except Error Generator
  | .enter _ | .leave _ => .ok g
  | .className name => .ok { g with className := name }
  | .declare kind type name p => g.declare kind type name p
  | .beginSubroutine kind => g.beginSubroutine kind
  | .beginBody kind name =>
    .ok (g.emit (.function (qualify g.className name) (g.table.count .«local») :: kind.prologue (g.table.count .field)))
  | .endBody => .ok (if g.code.endsWithReturn then g else g.emit [.push .constant 0, .«return»])
  | .integer value => .ok (g.emit [.push .constant value])
  | .string body p =>
    match stringCode body p with
    | .ok code => .ok (g.emit code)
    | .error e => .error (.lex e)
  | .constant word => .ok (g.emit word.code)
  | .read name p => g.emitWith name p fun v => [v.read]
  | .use name p => g.emitWith name p fun _ => []
  | .element name p => g.emitWith name p fun v => [v.read, .arithmetic .add, .pop .pointer 1, .push .that 0]
  | .elementAddress name p => g.emitWith name p fun v => [v.read, .arithmetic .add]
  | .unary operator => .ok (g.emit operator.code)
  | .binary operator => .ok (g.emit operator.code)
  | .receiver callee => .ok (g.emit (g.receiverCode callee))
  | .argument callee number p =>
    if number ≤ maxArguments then .ok g else .error (.name (.tooMany .arguments (g.target callee) p))
  | .call callee arguments =>
    let total := arguments + (g.receiverCode callee).length
    if total ≤ maxArguments then .ok (g.emit [.call (g.target callee) total.toUInt16])
    else .error (.name (.tooMany .arguments (g.target callee) none))
  | .assign name p => g.emitWith name p fun v => [v.write]
  | .assignElement => .ok (g.emit [.pop .temp 0, .pop .pointer 1, .push .temp 0, .pop .that 0])
  | .discard => .ok (g.emit [.pop .temp 0])
  | .noValue => .ok (g.emit [.push .constant 0])
  | .ret => .ok (g.emit [.«return»])
  | .beginIf => .ok (g.beginConstruct fun k => [.arithmetic .not, .ifGoto (elseLabel k)])
  | .beginElse => .ok (g.inConstruct fun k => [.goto (endIfLabel k), .label (elseLabel k)])
  | .endIf => .ok (g.endConstruct fun k => [.label (elseLabel k)])
  | .endIfElse => .ok (g.endConstruct fun k => [.label (endIfLabel k)])
  | .beginWhile => .ok (g.beginConstruct fun k => [.label (topLabel k)])
  | .testWhile => .ok (g.inConstruct fun k => [.arithmetic .not, .ifGoto (endWhileLabel k)])
  | .endWhile => .ok (g.endConstruct fun k => [.goto (topLabel k), .label (endWhileLabel k)])

end Generator

end JackCompiler
