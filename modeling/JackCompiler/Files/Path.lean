/-!
# Paths

A path is a text with slashes between its names. Repeated slashes and names of a single dot change nothing, but stay in
the text. The last name of a path decides its file name, which splits at its last dot into a stem and an extension when
something stands before that dot. All operations work on the text alone and ask no file system.
-/

namespace JackCompiler

/-- The path of a file or a directory. -/
structure Path where
  text : String
  deriving DecidableEq, Repr

/-- A file name in two parts around its last dot; without extension the stem is the whole name. -/
structure FileName where
  stem : List Char
  extension? : Option (List Char)
  deriving DecidableEq, Repr

namespace FileName

/-- Splits a file name at its last dot, if something stands before that dot. -/
def ofName (name : List Char) : FileName :=
  let last := name.reverse.takeWhile (· ≠ '.')
  match name.reverse.drop last.length with
  | [] => ⟨name, none⟩
  | [_] => ⟨name, none⟩
  | _ :: stem => ⟨stem.reverse, some last.reverse⟩

end FileName

namespace Path

/-- The characters of a path. -/
def chars (path : Path) : List Char :=
  path.text.toList

/-- Whether a path begins at the root of all files. -/
def isAbsolute (path : Path) : Bool :=
  path.chars.head? = some '/'

/-- The head of a text that is no name to go by: the slash of an absolute path, or a leading single dot. -/
def lead : List Char → List Char
  | '/' :: _ => ['/']
  | ['.'] => ['.']
  | '.' :: '/' :: _ => ['.']
  | _ => []

/-- Finds the last name in a reversed text after its head, passing empty names and single dots: the reversed text before
the name, which keeps the slash, and the reversed name. -/
def lastName : List Char → Option (List Char × List Char)
  | [] => none
  | c :: cs =>
    let name := (c :: cs).takeWhile (· ≠ '/')
    if name.isEmpty || name = ['.'] then lastName (cs.drop name.length)
    else some ((c :: cs).drop name.length, name)
termination_by cs => cs.length
decreasing_by simp only [List.length_drop, List.length_cons]; omega

/-- The text of a path around its last name. -/
structure Split where
  /-- All that stands before the name, with the slash. -/
  before : List Char
  /-- The last name. -/
  name : List Char
  /-- What follows the name: slashes and single dots. -/
  after : List Char
  deriving DecidableEq, Repr

/-- Splits a path around its last name, if it has one. -/
def split? (path : Path) : Option Split :=
  let text := path.chars
  let head := lead text
  (lastName (text.drop head.length).reverse).map fun (before, name) =>
    let before := head ++ before.reverse
    ⟨before, name.reverse, text.drop (before.length + name.length)⟩

/-- Drops the slashes and single dots at the end of the text before a name. -/
def trimEnd (text : List Char) : List Char :=
  let head := lead text
  head ++ ((lastName (text.drop head.length).reverse).map fun (before, name) => before.reverse ++ name.reverse).getD []

/-- The last name of a path, unless it is the name of a parent. -/
def fileSplit? (path : Path) : Option Split :=
  path.split?.filter fun split => split.name ≠ ['.', '.']

/-- The name of the file or directory at a path. -/
def fileName? (path : Path) : Option String :=
  path.fileSplit?.map fun split => String.ofList split.name

/-- The extension of the file name. -/
def extension? (path : Path) : Option String :=
  path.fileSplit?.bind fun split => (FileName.ofName split.name).extension?.map String.ofList

/-- The path before the last name. -/
def parent? (path : Path) : Option Path :=
  match path.split? with
  | some split => some ⟨String.ofList (trimEnd split.before)⟩
  | none => if path.chars.head? = some '.' then some ⟨""⟩ else none

/-- The path that leads on from a directory; an absolute path leads away from it. -/
def join (dir path : Path) : Path :=
  if path.isAbsolute then path
  else if dir.chars = [] || dir.chars.getLast? = some '/' then ⟨dir.text ++ path.text⟩
  else ⟨dir.text ++ "/" ++ path.text⟩

/-- The path with another file name in place of its own, or after it when it has none. -/
def withFileName (path : Path) (name : String) : Path :=
  let dir := if path.fileSplit?.isSome then path.parent?.getD path else path
  dir.join ⟨name⟩

/-- An extension with its dot; the empty extension has none. -/
def dotted (extension : String) : List Char :=
  if extension = "" then [] else '.' :: extension.toList

/-- The path with another extension in place of the one of its file name, or after the name when it has none. A path
without file name stays as it is. A stem of one dot before an extension at the end of the path leaves two dots, which are
no file name and take no extension. -/
def withExtension (path : Path) (extension : String) : Path :=
  match path.fileSplit? with
  | none => path
  | some split =>
    let name := FileName.ofName split.name
    if name.stem = ['.'] && name.extension?.isSome && split.after = [] then
      ⟨String.ofList (split.before ++ ['.', '.'])⟩
    else ⟨String.ofList (split.before ++ name.stem ++ dotted extension)⟩

/-- The names in a text between slashes, empty ones included. -/
def splitSlashes : List Char → List (List Char)
  | [] => [[]]
  | c :: cs =>
    if c = '/' then [] :: splitSlashes cs
    else match splitSlashes cs with
      | [] => [[c]]
      | name :: names => (c :: name) :: names

/-- The names of a path between its slashes, empty ones included. -/
def names (path : Path) : List String :=
  (splitSlashes path.chars).map String.ofList

end Path

end JackCompiler
