import JackCompiler.CommandLine.Arguments
import JackCompiler.CommandLine.ClassListing
import JackCompiler.CommandLine.Diagnostic
import JackCompiler.Project.Outputs
import JackCompiler.Project.Sources

/-!
# Runs

A run reads the command line, the configuration and the sources, compiles every unit, writes the outputs, and reports each
stage. A stage that cannot begin ends the run; a unit or an output that fails is counted, and the others go on. The run
succeeds when nothing failed. How command lines and configurations are read is left to readers that a run is given.
-/

namespace JackCompiler

/-- The readers of what a user writes. -/
structure Readers where
  /-- Reads a command line: the input, and what else is set. -/
  arguments : List String → Except NoRun (String × Arguments)
  /-- Reads the bytes of the configuration file at a path. -/
  config : String → ByteArray → Except FileError Config

/-- What a run leaves besides files: the exit status, and what it reported. -/
structure RunResult where
  exit : Nat
  output : String
  deriving DecidableEq, Repr

namespace Run

/-- One line of a report. -/
def line (text : String) : String :=
  text ++ "\n"

/-- Lines of a report with their styles. -/
def styledLines (lines : List StyledText) : String :=
  String.join (lines.map fun text => line text.render)

/-- The name and the version of the program. -/
def version : String :=
  "jackc 0.1.0"

/-- How to use the program. -/
def help : String :=
  "Compiler from Jack source to stack VM code\n\n" ++
  "Usage: jackc [OPTIONS] <INPUT>\n\n" ++
  "Arguments:\n" ++
  "  <INPUT>  Source file, or directory of source files\n\n" ++
  "Options:\n" ++
  "  -o, --output <OUTPUT>  Output directory [default: next to each source]\n" ++
  "  -c, --combine          Write every unit into one <dirname>.vm\n" ++
  "  -j, --jobs <JOBS>      Number of worker threads\n" ++
  "      --config <CONFIG>  YAML config file\n" ++
  "  -t, --tokens           Write <Name>T.xml token listings\n" ++
  "      --trace            Print the production trace of each unit as YAML\n" ++
  "      --strict           Reject identifiers declared twice in one scope\n" ++
  "  -v, --verbose          Enable verbose output\n" ++
  "  -h, --help             Print help\n" ++
  "  -V, --version          Print version"

/-- The line at the top of every report. -/
def banner : String :=
  line "Jack Compiler by kanade-k-1228"

/-- The lines of an error. -/
def diagnostic (e : Error) (file source : String) : String :=
  styledLines (Diagnostic.lines e file source)

/-- The result of a run that ends after what was reported, with an error that concerns a file. -/
def stopped (reported : String) (e : FileError) (file : String) : RunResult :=
  ⟨1, reported ++ diagnostic (.file e) file ""⟩

/-- The result of a run that crashes after what was reported. -/
def crashed (reported : String) : RunResult :=
  ⟨101, reported⟩

/-- The settings of a run: those of the configuration, with those of the command line over them. -/
def overrideWith (config : Config) (a : Arguments) : Config :=
  { config with
    output? := a.output?.or config.output?
    jobs := a.jobs?.getD config.jobs
    combine := config.combine || a.has .combine
    strict := config.strict || a.has .strict }

/-- What is wanted of each unit. -/
def unitOptions (config : Config) (a : Arguments) : UnitOptions :=
  ⟨config.strict, a.has .tokens, a.has .trace⟩

/-- The report on the sources. -/
def sourcesReport (sources : List Path) : String :=
  String.join (sources.map fun source => line ("  < " ++ source.text))

/-- The line of a unit that was compiled. -/
def compiledLine (c : CompiledClass) : StyledText :=
  [(.plain, "  "), (.ofColour .green, "ok"), (.plain, " " ++ c.name ++ " (" ++ toString c.code.length ++ " instructions)")]

/-- The report on one unit: what it was compiled to, listed when the report is verbose, and its trace, or its error. -/
def unitReport (verbose : Bool) (unit : SourceUnit) : String :=
  match unit.result with
  | .ok compiled =>
    styledLines (compiledLine compiled.compiledClass ::
      if verbose then ClassListing.lines compiled.compiledClass else []) ++ (compiled.trace?.map Trace.yaml).getD ""
  | .error e => diagnostic e unit.source.text unit.text

/-- The line of an output, after `failed` failures. -/
def outputReport (failed : Nat) : Output → String
  | .written path => line ("  > " ++ path.text)
  | .skipped path =>
    styledLines [[(.plain, "  "), (.ofColour .yellow, "skip"),
      (.plain, " " ++ path.text ++ ", " ++ toString failed ++ " unit(s) failed")]]
  | .failed label cause => diagnostic (.file cause) label ""

/-- Whether an output failed. -/
def isFailed : Output → Bool
  | .failed .. => true
  | .written _ | .skipped _ => false

/-- The report on outputs, after `failed` failures. -/
def outputsReport (failed : Nat) : List Output → String
  | [] => ""
  | output :: rest =>
    outputReport failed output ++ outputsReport (if isFailed output then failed + 1 else failed) rest

/-- The number of failures in a run. -/
def failures (units : List SourceUnit) (outputs : List Output) : Nat :=
  units.countP (fun unit => !unit.isCompiled) + outputs.countP isFailed

/-- The last line of a report. -/
def closing (input : String) (units failed : Nat) : String :=
  if failed = 0 then line ("Successfully compiled " ++ toString units ++ " unit(s) from " ++ input)
  else styledLines [[(.boldOf .red, "error"),
    (.plain, ": " ++ toString failed ++ " of " ++ toString units ++ " unit(s) failed")]]

/-- The result of a run whose stages all began. -/
def finished (input : String) (verbose : Bool) (reported : String) (units : List SourceUnit) (outputs : List Output) :
    RunResult :=
  let failed := failures units outputs
  ⟨if failed = 0 then 0 else 1,
    reported ++ String.join (units.map (unitReport verbose)) ++ line "3. Write Output" ++
      outputsReport (units.countP fun unit => !unit.isCompiled) outputs ++ closing input units.length failed⟩

/-- Reads a configuration file; without one all settings are as usual. A directory can be opened, but is none. -/
def loadConfig {m : Type → Type} [Monad m] [FileSystem m] (readers : Readers) :
    Option String → m (Except FileError Config)
  | none => return .ok {}
  | some path => do
    match ← FileSystem.look ⟨path⟩ with
    | .nothing => return .error (.unreadable path)
    | .directory _ => return .error (.invalidConfig path)
    | .file =>
      match ← FileSystem.read ⟨path⟩ with
      | none => return .error (.unreadable path)
      | some bytes => return readers.config path bytes

/-- Runs the compiler on an input. -/
def compileInput {m : Type → Type} [Monad m] [FileSystem m] (readers : Readers) (input : String) (a : Arguments) :
    m RunResult := do
  match ← loadConfig readers a.config? with
  | .error e => return stopped banner e (a.config?.getD "")
  | .ok config =>
    let config := overrideWith config a
    let reported := banner ++ line "1. Collect Sources"
    match ← collectSources ⟨input⟩ config.sourceExtension with
    | .error e => return stopped reported e input
    | .ok sources =>
      let reported := reported ++ sourcesReport sources ++ line ("2. Compile (" ++ toString config.workers ++ " jobs)")
      match ← compileFiles (unitOptions config a) config.workers sources with
      | .error _ => return crashed reported
      | .ok units =>
        let outputs ← writeOutputs config ⟨input⟩ units
        return finished input (a.has .verbose) reported units outputs

/-- Runs the program with the arguments of a command line. -/
def start {m : Type → Type} [Monad m] [FileSystem m] (readers : Readers) (args : List String) : m RunResult :=
  match readers.arguments args with
  | .ok (input, a) => compileInput readers input a
  | .error .usage => return ⟨2, ""⟩
  | .error .help => return ⟨0, line help⟩
  | .error .version => return ⟨0, line version⟩

end Run

/-- The readers of the program. -/
def Readers.usual : Readers where
  arguments := Arguments.read
  config path bytes :=
    match textOf? bytes with
    | none => .error (.invalidConfig path)
    | some text => Config.read path text

end JackCompiler
