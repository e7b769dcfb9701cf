import JackCompiler.Generation.Generator
import JackCompiler.Grammar.Walk
import JackCompiler.Token.Scan

/-!
# Compilation of one class

Compilation reads tokens as a class and lets a generator go through the steps. An error is the first one in the order of
the text, whatever its stage: the steps before an error in the order of tokens are taken first. A recorder may watch the
rules begin and end; it sees the steps up to the one that fails.
-/

namespace JackCompiler

/-- The code of one class: its name, its own variables in the order of their names' first declaration, its instructions. -/
structure CompiledClass where
  name : String
  classVariables : List Variable
  code : List Vm.Instruction
  deriving DecidableEq, Repr

/-- A record of events, if one is kept. -/
abbrev Recorder := Option (Array Event)

/-- Records what an observer of the rules sees of a step. -/
def Recorder.watch (recorder : Recorder) (step : Step) : Recorder :=
  match recorder, step.event? with
  | some events, some event => some (events.push event)
  | recorder, _ => recorder

/-- The events of a record in order. -/
def Recorder.trace? (recorder : Recorder) : Option Trace :=
  recorder.map Array.toList

/-- Goes through steps up to the first one that fails. -/
def Generator.run (g : Generator) (recorder : Recorder) : List Step → Except Error Generator × Recorder
  | [] => (.ok g, recorder)
  | step :: steps =>
    match g.step step with
    | .ok g => g.run (recorder.watch step) steps
    | .error e => (.error e, recorder)

/-- What compiling a class came to, and the trace if one was asked for. -/
structure Compilation where
  result : Except Error CompiledClass
  trace? : Option Trace

/-- Compiles tokens; `strict` refuses a name declared twice in one scope, `record` asks for a trace. -/
def compile (strict record : Bool) (tokens : List Token) : Compilation :=
  let reading := readClass tokens
  let run := ({ strict } : Generator).run (if record then some #[] else none) reading.steps
  ⟨match run.1, reading.error? with
    | .error e, _ => .error e
    | .ok _, some e => .error (.grammar e)
    | .ok g, none => .ok ⟨g.className, g.table.ofClass, g.code.toList⟩,
  run.2.trace?⟩

/-- Compiles a source text. -/
def compileText (strict : Bool) (text : String) : Except Error CompiledClass :=
  match scan text with
  | .ok tokens => (compile strict false tokens).result
  | .error e => .error (.lex e)

end JackCompiler
