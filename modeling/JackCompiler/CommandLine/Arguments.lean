import JackCompiler.Files.Path
import JackCompiler.Text.Decimal

/-!
# Command lines

A command line names one input and may set options, in any order. Options have a long name after two dashes, some also a
letter after one; letters may share a dash. A value stands after an equals sign, right after its letter, or in the next
argument if that does not look like an option. Nothing may be set twice. Two dashes alone end the options. The first
argument that cannot be read decides, and so does a wish for help or the version.
-/

namespace JackCompiler

/-- The options without a value. -/
inductive Flag where
  | combine | tokens | trace | strict | verbose
  deriving DecidableEq, Repr

/-- The options with a value. -/
inductive Valued where
  | output | jobs | config
  deriving DecidableEq, Repr

/-- What an option is about. -/
inductive OptionKind where
  | flag (flag : Flag)
  | valued (valued : Valued)
  | help
  | version
  deriving DecidableEq, Repr

/-- The option with the given long name. -/
def OptionKind.ofLong? : String → Option OptionKind
  | "combine" => some (.flag .combine)
  | "tokens" => some (.flag .tokens)
  | "trace" => some (.flag .trace)
  | "strict" => some (.flag .strict)
  | "verbose" => some (.flag .verbose)
  | "output" => some (.valued .output)
  | "jobs" => some (.valued .jobs)
  | "config" => some (.valued .config)
  | "help" => some .help
  | "version" => some .version
  | _ => none

/-- The option with the given letter. -/
def OptionKind.ofLetter? : Char → Option OptionKind
  | 'c' => some (.flag .combine)
  | 't' => some (.flag .tokens)
  | 'v' => some (.flag .verbose)
  | 'o' => some (.valued .output)
  | 'j' => some (.valued .jobs)
  | 'h' => some .help
  | 'V' => some .version
  | _ => none

/-- What a command line says, up to some argument. -/
structure Arguments where
  input? : Option String := none
  flags : List Flag := []
  output? : Option Path := none
  jobs? : Option Nat := none
  config? : Option String := none
  deriving DecidableEq, Repr

/-- Why a command line asks for no run. -/
inductive NoRun where
  | usage | help | version
  deriving DecidableEq, Repr

namespace Arguments

/-- Whether a flag is set. -/
def has (a : Arguments) (flag : Flag) : Bool :=
  a.flags.contains flag

/-- The number above all that a number of jobs can be. -/
def jobsLimit : Nat := 0x10000000000000000

/-- The number that a value stands for: digits, maybe after a plus. -/
def number? (value : String) : Option Nat :=
  let digits := match value.toList with
    | '+' :: digits => digits
    | digits => digits
  if Decimal.isRun digits && Decimal.value digits < jobsLimit then some (Decimal.value digits) else none

/-- Sets a flag that is not set yet. -/
def setFlag (a : Arguments) (flag : Flag) : Except NoRun Arguments :=
  if a.has flag then .error .usage else .ok { a with flags := flag :: a.flags }

/-- Sets an option that is not set yet to a value. A directory has to have a name, a number of jobs has to be one. -/
def setValue (a : Arguments) (valued : Valued) (value : String) : Except NoRun Arguments :=
  match valued with
  | .output => if a.output?.isSome || value = "" then .error .usage else .ok { a with output? := some ⟨value⟩ }
  | .config => if a.config?.isSome then .error .usage else .ok { a with config? := some value }
  | .jobs =>
    match a.jobs?, number? value with
    | none, some jobs => .ok { a with jobs? := some jobs }
    | _, _ => .error .usage

/-- Takes the input, which has to be the only one. -/
def setInput (a : Arguments) (input : String) : Except NoRun Arguments :=
  if a.input?.isSome then .error .usage else .ok { a with input? := some input }

/-- Reads letters that share a dash; tells which option still needs a value. -/
def letters (a : Arguments) : List Char → Except NoRun (Arguments × Option Valued)
  | [] => .ok (a, none)
  | c :: rest =>
    match OptionKind.ofLetter? c with
    | none => .error .usage
    | some .help => .error .help
    | some .version => .error .version
    | some (.flag flag) =>
      match a.setFlag flag with
      | .ok a => a.letters rest
      | .error e => .error e
    | some (.valued valued) =>
      match rest with
      | [] => .ok (a, some valued)
      | '=' :: value => (a.setValue valued (String.ofList value)).map (·, none)
      | value => (a.setValue valued (String.ofList value)).map (·, none)

/-- Reads a long option without its dashes; tells whether it still needs a value. -/
def long (a : Arguments) (text : List Char) : Except NoRun (Arguments × Option Valued) :=
  let name := text.takeWhile (· ≠ '=')
  match OptionKind.ofLong? (String.ofList name), text.drop name.length with
  | none, _ => .error .usage
  | some .help, [] => .error .help
  | some .version, [] => .error .version
  | some (.flag flag), [] => (a.setFlag flag).map (·, none)
  | some (.valued valued), [] => .ok (a, some valued)
  | some (.valued valued), _ :: value => (a.setValue valued (String.ofList value)).map (·, none)
  | _, _ => .error .usage

/-- Whether an argument looks like an option: a dash with something after it. -/
def isOption (text : List Char) : Bool :=
  text.head? = some '-' && text ≠ ['-']

/-- Reads arguments; an option in `pending` takes the next one as its value, and `ended` says that options have ended. -/
def readFrom (a : Arguments) (pending : Option Valued) (ended : Bool) : List String → Except NoRun Arguments
  | [] => if pending.isSome then .error .usage else .ok a
  | arg :: rest =>
    let text := arg.toList
    match pending with
    | some valued =>
      if isOption text then .error .usage
      else match a.setValue valued arg with
        | .ok a => a.readFrom none ended rest
        | .error e => .error e
    | none =>
      if !ended && text = ['-', '-'] then a.readFrom none true rest
      else if !ended && isOption text then
        match if text.take 2 = ['-', '-'] then a.long (text.drop 2) else a.letters (text.drop 1) with
        | .ok (a, pending) => a.readFrom pending ended rest
        | .error e => .error e
      else match a.setInput arg with
        | .ok a => a.readFrom none ended rest
        | .error e => .error e

/-- Reads a command line; the input has to be there. -/
def read (args : List String) : Except NoRun (String × Arguments) :=
  match readFrom {} none false args with
  | .error e => .error e
  | .ok a => a.input?.elim (.error .usage) fun input => .ok (input, a)

end Arguments

end JackCompiler
