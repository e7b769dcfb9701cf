import JackCompiler.Config.Basic
import JackCompiler.Project.Units

/-!
# Outputs

What a run writes. The code of a unit goes into a file beside its source or in the directory of outputs. When units are to
be combined and all were compiled, one file takes the code of all of them; when some failed, that file is skipped. The
listing of a unit's tokens stands beside its code file and is named for its class.
-/

namespace JackCompiler

/-- The path of a source's code file. -/
def outputPath (source : Path) (dir? : Option Path) (extension : String) : Path :=
  let path := match dir?, source.fileName? with
    | some dir, some name => dir.join ⟨name⟩
    | _, _ => source
  path.withExtension extension

/-- The path of the code file of all units, named for the root. -/
def combinedPath (root : Path) (dir? : Option Path) (extension : String) : Path :=
  (dir?.getD root).join ⟨root.fileName?.getD "out" ++ "." ++ extension⟩

/-- The path of the listing of a class's tokens, beside its code file. -/
def listingPath (output : Path) (className : String) : Path :=
  output.withFileName (className ++ "T.xml")

/-- The code of classes in one text. -/
def combine (classes : List CompiledClass) : String :=
  String.join (classes.map fun c => Vm.render c.code)

/-- A file that is to be written, or is skipped. -/
inductive Planned where
  /-- The code of all units is not written, as some failed. -/
  | skip (path : Path)
  /-- A text is to be written; `label` names the file in a message when that fails. -/
  | write (path : Path) (text label : String)
  deriving DecidableEq, Repr

/-- The files of one unit: its code, unless it is combined, and its listing, if there is one. -/
def planUnit (config : Config) (isCombined : Bool) (unit : SourceUnit) : List Planned :=
  match unit.compiled? with
  | none => []
  | some compiled =>
    let path := outputPath unit.source config.output? config.outputExtension
    let code := if isCombined then []
      else [.write path (Vm.render compiled.compiledClass.code) unit.source.text]
    let listing := compiled.listing?.toList.map fun text =>
      .write (listingPath path compiled.compiledClass.name) text unit.source.text
    code ++ listing

/-- All files of a run, in order. -/
def planOutputs (config : Config) (root : Path) (rootIsDirectory : Bool) (units : List SourceUnit) : List Planned :=
  let path := combinedPath root config.output? config.outputExtension
  if config.combine && rootIsDirectory then
    if units.all SourceUnit.isCompiled then
      .write path (combine ((units.filterMap SourceUnit.compiled?).map (·.compiledClass))) path.text ::
        units.flatMap (planUnit config true)
    else .skip path :: units.flatMap (planUnit config false)
  else units.flatMap (planUnit config false)

/-- What became of an output. -/
inductive Output where
  | written (path : Path)
  | skipped (path : Path)
  | failed (label : String) (cause : FileError)
  deriving DecidableEq, Repr

/-- Writes what was planned for one file. -/
def Planned.perform {m : Type → Type} [Monad m] [FileSystem m] : Planned → m Output
  | .skip path => return .skipped path
  | .write path text label => do
    match ← writeFile path text with
    | .ok () => return .written path
    | .error cause => return .failed label cause

/-- Writes all outputs of a run. -/
def writeOutputs {m : Type → Type} [Monad m] [FileSystem m] (config : Config) (root : Path)
    (units : List SourceUnit) : m (List Output) := do
  let found ← FileSystem.look root
  (planOutputs config root found.isDirectory units).mapM Planned.perform

end JackCompiler
