import JackCompiler.CommandLine.Run

/-!
# The program

The command line program runs on the files of the machine.
-/

namespace JackCompiler

/-- The result of an action, or `fallback` if it fails. -/
def orElse {α : Type} (fallback : α) (action : IO α) : IO α := do
  try action catch _ => return fallback

/-- Whether an action works. -/
def works (action : IO Unit) : IO Bool :=
  orElse false do
    action
    return true

/-- The entries of a directory. -/
def entriesOf (entries : Array IO.FS.DirEntry) : IO (List Entry) :=
  entries.toList.mapM fun entry => do
    let isFile ← orElse false do return (← entry.path.metadata).type == .file
    return ⟨entry.fileName, isFile⟩

/-- What stands at a path on the machine. -/
def lookOnDisk (path : Path) : IO Found := do
  let place := (IO.FS.DirEntry.mk path.text "").root
  if path.text = "" then return .nothing
  orElse .nothing do
    match (← place.metadata).type with
    | .file => return .file
    | .dir => return .directory (← entriesOf (← place.readDir))
    | _ => return .nothing

/-- The files of the machine are a file system. -/
instance : FileSystem IO where
  look := lookOnDisk
  read path := orElse none do return some (← IO.FS.readBinFile path.text)
  makeDirectory path := works (IO.FS.createDirAll path.text)
  write path bytes := works (IO.FS.writeBinFile path.text bytes)

end JackCompiler

/-- Runs the program, prints its report, and hands on its exit status. -/
def main (args : List String) : IO UInt32 := do
  let result : JackCompiler.RunResult ← JackCompiler.Run.start .usual args
  (← IO.getStdout).putStr result.output
  return result.exit.toUInt32
