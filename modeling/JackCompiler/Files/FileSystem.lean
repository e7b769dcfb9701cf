import JackCompiler.Error
import JackCompiler.Files.Path

/-!
# File systems

What the program asks of a file system, whatever it is: what stands at a path, what a file holds, to make a directory, and
to write a file. A file is written together with the directories that lead to it.
-/

namespace JackCompiler

/-- A name in a directory, and whether a file stands there. -/
structure Entry where
  name : String
  isFile : Bool
  deriving DecidableEq, Repr

/-- What stands at a path. -/
inductive Found where
  | file
  /-- A directory, with its entries in no particular order. -/
  | directory (entries : List Entry)
  | nothing
  deriving DecidableEq, Repr

/-- Whether a directory stands at a path. -/
def Found.isDirectory : Found → Bool
  | .directory _ => true
  | .file | .nothing => false

/-- The operations on files, as actions of `m`. -/
class FileSystem (m : Type → Type) where
  /-- What stands at a path. -/
  look : Path → m Found
  /-- The bytes of the file at a path, if it can be read. -/
  read : Path → m (Option ByteArray)
  /-- Makes a directory and those that lead to it; tells whether it is there afterwards. -/
  makeDirectory : Path → m Bool
  /-- Puts a file with the given bytes at a path; tells whether it worked. -/
  write : Path → ByteArray → m Bool

/-- Writes a text into a file and makes the directories that lead to it. -/
def writeFile {m : Type → Type} [Monad m] [FileSystem m] (path : Path) (text : String) : m (Except FileError Unit) := do
  let dir? := path.parent?.filter fun dir => dir.text ≠ ""
  let made ← match dir? with
    | some dir => FileSystem.makeDirectory dir
    | none => pure true
  if made then
    let written ← FileSystem.write path text.toUTF8
    return if written then .ok () else .error (.unwritable path.text)
  else return .error (.unwritable (dir?.elim "" Path.text))

/-- The text in bytes, if they are one. -/
def textOf? (bytes : ByteArray) : Option String :=
  String.fromUTF8? bytes

end JackCompiler
