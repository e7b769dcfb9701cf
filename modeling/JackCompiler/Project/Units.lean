import JackCompiler.Files.FileSystem
import JackCompiler.Generation.Compile
import JackCompiler.Token.Listing

/-!
# Compilation units

A unit is one source file and what became of it. Units are compiled in shares by workers that share nothing; the units come
back in the order of their sources, whatever the number of workers.
-/

namespace JackCompiler

/-- What is wanted of each unit. -/
structure UnitOptions where
  /-- Whether a scope allows each name only once. -/
  strict : Bool := false
  /-- Whether the tokens are listed. -/
  tokens : Bool := false
  /-- Whether the rules are traced. -/
  trace : Bool := false
  deriving DecidableEq, Repr

/-- What a unit was compiled to. -/
structure Compiled where
  compiledClass : CompiledClass
  listing? : Option String
  trace? : Option Trace

/-- A source file and what became of it. -/
structure SourceUnit where
  source : Path
  /-- The text of the source, empty when it could not be read. -/
  text : String
  result : Except Error Compiled

namespace SourceUnit

/-- Whether a unit was compiled. -/
def isCompiled (unit : SourceUnit) : Bool :=
  unit.result.isOk

/-- What a unit was compiled to, if it was. -/
def compiled? (unit : SourceUnit) : Option Compiled :=
  unit.result.toOption

end SourceUnit

/-- Compiles the text of a unit. -/
def compileUnitText (options : UnitOptions) (text : String) : Except Error Compiled :=
  match scan text with
  | .error e => .error (.lex e)
  | .ok tokens =>
    let compilation := compile options.strict options.trace tokens
    compilation.result.map fun compiledClass =>
      ⟨compiledClass, if options.tokens then some (listing tokens) else none, compilation.trace?⟩

/-- Compiles one source, given the bytes of its file if it can be read. -/
def compileSource (options : UnitOptions) (source : Path) (bytes? : Option ByteArray) : SourceUnit :=
  match bytes?.bind textOf? with
  | some text => ⟨source, text, compileUnitText options text⟩
  | none => ⟨source, "", .error (.file (.unreadable source.text))⟩

/-! ## Sharing work -/

/-- Why work cannot be shared. -/
inductive SharingFault where
  /-- It is to be divided by a number of workers that is 0. -/
  | noWorker
  /-- It is to be cut into shares of size 0. -/
  | emptyShares
  deriving DecidableEq, Repr

/-- The number of workers for a number of sources: at least one, and none without a source. -/
def workersFor (sources jobs : Nat) : Nat :=
  min (max jobs 1) (max sources 1)

/-- The largest share of one worker. -/
def shareSize (sources workers : Nat) : Except SharingFault Nat :=
  if workers = 0 then .error .noWorker else .ok ((sources + workers - 1) / workers)

/-- Cuts a list into shares of one item and up to `more` behind it; only the last may be smaller. -/
def cut {α : Type} (more : Nat) : List α → List (List α)
  | [] => []
  | a :: rest => (a :: rest.take more) :: cut more (rest.drop more)
termination_by items => items.length
decreasing_by simp only [List.length_drop, List.length_cons]; omega

/-- The shares of a size that a list is cut into. -/
def shares {α : Type} (size : Nat) (items : List α) : Except SharingFault (List (List α)) :=
  match size with
  | 0 => .error .emptyShares
  | more + 1 => .ok (cut more items)

/-- A worker that was started: its share, and the results that it comes to. -/
structure Worker (α β : Type) where
  share : List α
  task : Task (List β)

/-- Starts a worker that applies a function to each item of its share. -/
def Worker.start {α β : Type} (f : α → β) (share : List α) : Worker α β :=
  ⟨share, Task.spawn fun _ => share.map f⟩

/-- Work that was done: the workers that were started for it, and all results. -/
structure Work (α β : Type) where
  workers : List (Worker α β)
  results : List β

/-- Applies a function to all items with up to `jobs` workers at the same time, and keeps their order. No worker is started
where one is enough. -/
def mapShared {α β : Type} (jobs : Nat) (f : α → β) (items : List α) : Except SharingFault (Work α β) :=
  let count := workersFor items.length jobs
  if count = 1 then .ok ⟨[], items.map f⟩
  else do
    let size ← shareSize items.length count
    let workers := (← shares size items).map (Worker.start f)
    return ⟨workers, workers.flatMap fun worker => worker.task.get⟩

/-- Compiles sources, given what their files hold, with up to `jobs` workers. -/
def compileAll (read : Path → Option ByteArray) (options : UnitOptions) (jobs : Nat) (sources : List Path) :
    Except SharingFault (Work Path SourceUnit) :=
  mapShared jobs (fun source => compileSource options source (read source)) sources

/-- Compiles the source files at paths. -/
def compileFiles {m : Type → Type} [Monad m] [FileSystem m] (options : UnitOptions) (jobs : Nat)
    (sources : List Path) : m (Except SharingFault (List SourceUnit)) := do
  let contents ← sources.mapM fun source => do return (source, ← FileSystem.read source)
  return (compileAll (fun source => (contents.lookup source).join) options jobs sources).map Work.results

end JackCompiler
