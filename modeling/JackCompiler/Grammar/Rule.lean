/-!
# Rules and traces

Fifteen rules of the grammar are observable: a trace records when each begins and ends. A trace is written as a list with
one marked entry per event.
-/

namespace JackCompiler

/-- The observable rules of the grammar. -/
inductive Rule where
  | «class» | classVarDec | subroutineDec | parameterList | subroutineBody | varDec
  | statements | letStatement | ifStatement | whileStatement | doStatement | returnStatement
  | expression | term | expressionList
  deriving DecidableEq, Repr

/-- How a rule is written. -/
def Rule.name : Rule → String
  | .«class» => "class"
  | .classVarDec => "classVarDec"
  | .subroutineDec => "subroutineDec"
  | .parameterList => "parameterList"
  | .subroutineBody => "subroutineBody"
  | .varDec => "varDec"
  | .statements => "statements"
  | .letStatement => "letStatement"
  | .ifStatement => "ifStatement"
  | .whileStatement => "whileStatement"
  | .doStatement => "doStatement"
  | .returnStatement => "returnStatement"
  | .expression => "expression"
  | .term => "term"
  | .expressionList => "expressionList"

/-- The beginning or the end of a rule. -/
inductive Event where
  | enter (rule : Rule)
  | leave (rule : Rule)
  deriving DecidableEq, Repr

/-- The rule of an event, if the event is a beginning. -/
def Event.entered? : Event → Option Rule
  | .enter rule => some rule
  | .leave _ => none

/-- The line of an event in a written trace. -/
def Event.line : Event → String
  | .enter rule => "- !enter " ++ rule.name ++ "\n"
  | .leave rule => "- !leave " ++ rule.name ++ "\n"

/-- Events in the order in which they happened. -/
abbrev Trace := List Event

/-- The rules of a trace in the order in which they began. -/
def Trace.entered (trace : Trace) : List Rule :=
  trace.filterMap Event.entered?

/-- A trace in writing. -/
def Trace.yaml (trace : Trace) : String :=
  trace.foldl (fun text event => text ++ event.line) "events:\n"

end JackCompiler
