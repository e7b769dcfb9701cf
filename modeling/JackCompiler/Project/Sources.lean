import JackCompiler.Files.FileSystem

/-!
# Source files

The sources of a run: a file by itself, or the files of a directory with the extension of sources, in increasing order of
their names. The order in which the file system lists a directory does not matter.
-/

namespace JackCompiler

/-- Whether a name stands before another, or is the same. -/
def namesInOrder (a b : String) : Bool :=
  !decide (b < a)

/-- The names of the source files among the entries of a directory, in order. -/
def sourceNames (extension : String) (entries : List Entry) : List String :=
  ((entries.filter fun entry => entry.isFile && (Path.mk entry.name).extension? = some extension).map
    (·.name)).mergeSort namesInOrder

/-- The source files of what stands at a root. -/
def sourcesOf (root : Path) (extension : String) : Found → Except FileError (List Path)
  | .file => .ok [root]
  | .nothing => .error (.unlistable root.text)
  | .directory entries =>
    match sourceNames extension entries with
    | [] => .error (.noSources root.text extension)
    | names => .ok (names.map fun name => root.join ⟨name⟩)

/-- Looks for the source files at a root. -/
def collectSources {m : Type → Type} [Monad m] [FileSystem m] (root : Path) (extension : String) :
    m (Except FileError (List Path)) := do
  return sourcesOf root extension (← FileSystem.look root)

end JackCompiler
