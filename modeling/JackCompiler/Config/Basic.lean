import JackCompiler.Error
import JackCompiler.Files.Path
import JackCompiler.Text.Radix
import JackCompiler.Yaml.Mapping

/-!
# Configuration

The settings of a run, what they are unless said otherwise, and how they are read from a configuration file. Each setting
may be given once, and no other name may be given.
-/

namespace JackCompiler

/-- The settings of a run. -/
structure Config where
  /-- The extension of source files, without a dot. -/
  sourceExtension : String := "jack"
  /-- The extension of code files, without a dot. -/
  outputExtension : String := "vm"
  /-- How many workers compile; none counts as one. -/
  jobs : Nat := 1
  /-- Whether the code of all units goes into one file. -/
  combine : Bool := false
  /-- Whether a scope allows each name only once. -/
  strict : Bool := false
  /-- The directory of all outputs, in place of that of each source. -/
  output? : Option Path := none
  deriving DecidableEq, Repr

namespace Config

/-- The number of workers. -/
def workers (config : Config) : Nat :=
  max config.jobs 1

/-- The number above all that a count can be. -/
def countLimit : Nat := 0x10000000000000000

/-- The number that digits after a mark of their base stand for; decimal digits have no mark, and no leading zero. -/
def unsigned? : List Char → Option Nat
  | '0' :: 'x' :: digits => Radix.value? 16 digits
  | '0' :: 'o' :: digits => Radix.value? 8 digits
  | '0' :: 'b' :: digits => Radix.value? 2 digits
  | '0' :: _ :: _ => none
  | digits => Radix.value? 10 digits

/-- The count that a scalar stands for: a number below the limit, maybe after a plus. -/
def count? (value : Yaml.Scalar) : Option Nat :=
  let digits := match value.text.toList with
    | '+' :: digits => digits
    | digits => digits
  if value.standsFor "tag:yaml.org,2002:int" then (unsigned? digits).filter (· < countLimit) else none

/-- The truth value that a scalar stands for. -/
def truth? (value : Yaml.Scalar) : Option Bool :=
  if !value.standsFor "tag:yaml.org,2002:bool" then none
  else if ["true", "True", "TRUE"].contains value.text then some true
  else if ["false", "False", "FALSE"].contains value.text then some false
  else none

/-- The words for nothing. -/
def nothingWords : List String :=
  ["~", "null", "Null", "NULL"]

/-- The text of a scalar, unless it stands for nothing. A plain scalar without a tag does if it is absent or a word for
nothing; one with the tag for nothing must be such a word. -/
def text? (value : Yaml.Scalar) : Option (Option String) :=
  if value.style ≠ .plain then some (some value.text)
  else
    match value.tag? with
    | none => some (if value.isAbsent || nothingWords.contains value.text then none else some value.text)
    | some "tag:yaml.org,2002:null" => if nothingWords.contains value.text then some none else none
    | some _ => some (some value.text)

/-- The settings that have a name in a configuration file. -/
inductive Setting where
  | sourceExtension | outputExtension | jobs | combine | strict | output
  deriving DecidableEq, Repr

/-- The setting with the given name. -/
def Setting.ofName? : String → Option Setting
  | "source_ext" => some .sourceExtension
  | "output_ext" => some .outputExtension
  | "jobs" => some .jobs
  | "combine" => some .combine
  | "strict" => some .strict
  | "output" => some .output
  | _ => none

/-- Gives a setting the value in writing, if it is one. -/
def set? (config : Config) (setting : Setting) (value : Yaml.Scalar) : Option Config :=
  match setting with
  | .sourceExtension => some { config with sourceExtension := value.text }
  | .outputExtension => some { config with outputExtension := value.text }
  | .jobs => (count? value).map fun jobs => { config with jobs }
  | .combine => (truth? value).map fun combine => { config with combine }
  | .strict => (truth? value).map fun strict => { config with strict }
  | .output => (text? value).map fun text? => { config with output? := text?.map Path.mk }

/-- Gives the settings of a mapping their values, each once; `given` holds those that have one already. -/
def ofMapping? (config : Config) (given : List Setting) : Yaml.Mapping → Option Config
  | [] => some config
  | (name, value) :: rest =>
    (Setting.ofName? name.text).bind fun setting =>
      if given.contains setting then none
      else (config.set? setting value).bind fun config => config.ofMapping? (setting :: given) rest

/-- The settings that a text gives; `path` is for the message when it is no configuration. -/
def read (path text : String) : Except FileError Config :=
  match (Yaml.mapping? text).bind (ofMapping? {} []) with
  | some config => .ok config
  | none => .error (.invalidConfig path)

end Config

end JackCompiler
