import JackCompiler.Files.FileSystem

/-!
# File trees

A file tree is a file system as a value: the directories below a top, the files with their bytes, and the directory that
the program works in. An absolute path leads from the top, any other one from the working directory, through directories
that exist; the top is its own parent. A name has at most 255 bytes, a path fewer than 4096, and neither holds a null
character. There are no links, and a file that cannot be written stays as it is.
-/

namespace JackCompiler

/-- A place in a file tree: the names that lead to it from the top. -/
abbrev Location := List String

/-- A file system as a value. -/
structure FileTree where
  /-- The directories below the top. -/
  directories : List Location := []
  /-- The files and their bytes, each place once. -/
  files : List (Location × ByteArray) := []
  /-- The directory that the program works in. -/
  working : Location := []

namespace FileTree

/-- Whether a directory stands at a place. -/
def isDirectory (tree : FileTree) (place : Location) : Bool :=
  place = [] || tree.directories.contains place

/-- The bytes of the file at a place. -/
def bytes? (tree : FileTree) (place : Location) : Option ByteArray :=
  tree.files.lookup place

/-- Whether a file stands at a place. -/
def isFile (tree : FileTree) (place : Location) : Bool :=
  (tree.bytes? place).isSome

/-- Adds a directory at a place. -/
def addDirectory (tree : FileTree) (place : Location) : FileTree :=
  { tree with directories := tree.directories ++ [place] }

/-- Puts bytes at a place, over those of the file there if there is one. -/
def setBytes (tree : FileTree) (place : Location) (bytes : ByteArray) : FileTree :=
  if tree.isFile place then
    { tree with files := tree.files.map fun file => if file.1 = place then (place, bytes) else file }
  else { tree with files := tree.files ++ [(place, bytes)] }

/-- The largest number of bytes in a name. -/
def maxName : Nat := 255

/-- The largest number of bytes in a path. -/
def maxPath : Nat := 4095

/-- Whether a name can be one. -/
def isName (name : String) : Bool :=
  name.utf8ByteSize ≤ maxName

/-- Whether a path can lead anywhere in a tree. -/
def isUsable (path : Path) : Bool :=
  path.text ≠ "" && path.text.utf8ByteSize ≤ maxPath && !path.chars.contains '\x00'

/-- Whether a name of a path changes nothing. -/
def isIdle (name : String) : Bool :=
  name = "" || name = "."

/-- The directory that a path leads on from. -/
def start (tree : FileTree) (path : Path) : Location :=
  if path.isAbsolute then [] else tree.working

/-- The place that names lead to from a directory. All but the last have to lead to directories. -/
def follow (tree : FileTree) (here : Location) : List String → Option Location
  | [] => some here
  | name :: names =>
    if !tree.isDirectory here then none
    else if isIdle name then tree.follow here names
    else if name = ".." then tree.follow here.dropLast names
    else if isName name then tree.follow (here ++ [name]) names
    else none

/-- The place that a path leads to, whether something stands there or not. -/
def locate? (tree : FileTree) (path : Path) : Option Location :=
  if isUsable path then tree.follow (tree.start path) path.names else none

/-- The entries of a directory that a path leads to: its directories, then its files. A file in a directory with so long a
path that its own path is none is not seen as one. -/
def entries (tree : FileTree) (path : Path) (place : Location) : List Entry :=
  (tree.directories.filterMap fun other =>
    if other.dropLast = place then other.getLast?.map (⟨·, false⟩) else none) ++
  (tree.files.filterMap fun file =>
    if file.1.dropLast = place then file.1.getLast?.map fun name => ⟨name, isUsable (path.join ⟨name⟩)⟩ else none)

/-- What stands at a path. -/
def look (tree : FileTree) (path : Path) : Found :=
  match tree.locate? path with
  | none => .nothing
  | some place =>
    if tree.isDirectory place then .directory (tree.entries path place)
    else if tree.isFile place then .file
    else .nothing

/-- The bytes of the file at a path, if one stands there. -/
def read? (tree : FileTree) (path : Path) : Option ByteArray :=
  (tree.locate? path).bind tree.bytes?

/-- Puts a file at a path, in a directory that has to be there; tells whether it worked. -/
def write (tree : FileTree) (path : Path) (bytes : ByteArray) : FileTree × Bool :=
  match tree.locate? path with
  | none => (tree, false)
  | some place => if tree.isDirectory place then (tree, false) else (tree.setBytes place bytes, true)

/-- Makes the directories that names lead to from a directory, as far as no file stands in the way; tells whether all are
there afterwards. -/
def makeFrom (tree : FileTree) (here : Location) : List String → FileTree × Bool
  | [] => (tree, true)
  | name :: names =>
    if isIdle name then tree.makeFrom here names
    else if name = ".." then tree.makeFrom here.dropLast names
    else
      let place := here ++ [name]
      if tree.isDirectory place then tree.makeFrom place names
      else if tree.isFile place || !isName name then (tree, false)
      else (tree.addDirectory place).makeFrom place names

/-- Makes the directory at a path and those that lead to it; tells whether it is there afterwards. -/
def makeDirectory (tree : FileTree) (path : Path) : FileTree × Bool :=
  if isUsable path then tree.makeFrom (tree.start path) path.names else (tree, false)

/-- A file tree is a file system: its operations read and change the tree. -/
instance : FileSystem (StateM FileTree) where
  look path := do return (← get).look path
  read path := do return (← get).read? path
  makeDirectory path := do
    let (tree, made) := (← get).makeDirectory path
    set tree
    return made
  write path bytes := do
    let (tree, written) := (← get).write path bytes
    set tree
    return written

end FileTree

end JackCompiler
