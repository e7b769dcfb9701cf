import JackCompiler.Yaml.Outline

/-!
# Mappings

A document is one mapping of scalars to scalars, in lines or in braces; without content it is the empty mapping. An anchor
names a scalar, and an alias stands for the last scalar before it with that name. Reading fails on anything else.
-/

namespace JackCompiler.Yaml

/-- What stands for a scalar in a document: an alias, or a scalar, which may be anchored. -/
inductive Node where
  | alias (name : String)
  | scalar (anchor? : Option String) (value : Scalar)
  deriving DecidableEq, Repr

/-- The node where nothing is written. -/
def Node.absent : Node := .scalar none .absent

/-- The parts of a mapping. -/
inductive Piece where
  | node (node : Node)
  | mark (token : Token)
  deriving DecidableEq, Repr

/-! ## Nodes -/

/-- What handles stand for, each once. -/
abbrev Handles := List (String × String)

/-- What handles stand for in every document, unless it says otherwise. -/
def Handles.standard : Handles :=
  [("!", "!"), ("!!", "tag:yaml.org,2002:")]

/-- A tag with what its handle stands for in front. -/
def Handles.resolve? (handles : Handles) (handle? : Option String) (rest : String) : Option String :=
  match handle? with
  | some name => (handles.lookup name).map (· ++ rest)
  | none => some rest

/-- The pieces with an anchor before them. -/
def anchored (name : String) : List Piece → List Piece
  | .node (.scalar none value) :: rest => .node (.scalar (some name) value) :: rest
  | pieces => .node (.scalar (some name) .absent) :: pieces

/-- The pieces with a tag before them. -/
def tagged (tag : String) : List Piece → List Piece
  | .node (.scalar anchor? ⟨text, style, none⟩) :: rest => .node (.scalar anchor? ⟨text, style, some tag⟩) :: rest
  | pieces => .node (.scalar none { Scalar.absent with tag? := some tag }) :: pieces

/-- The pieces that tokens make up; anchors and tags belong to the scalar behind them, or else to an absent one. -/
def pieces? (handles : Handles) : List Token → Option (List Piece)
  | [] => some []
  | .alias name :: rest => (pieces? handles rest).map (.node (.alias name) :: ·)
  | .scalar value :: rest => (pieces? handles rest).map (.node (.scalar none value) :: ·)
  | .anchor name :: rest => (pieces? handles rest).map (anchored name)
  | .tag handle? tag :: rest =>
    (handles.resolve? handle? tag).bind fun tag => (pieces? handles rest).map (tagged tag)
  | token :: rest => (pieces? handles rest).map (.mark token :: ·)

/-! ## Entries -/

/-- A name and its value, as they stand in a document. -/
abbrev NodeEntry := Node × Node

/-- The name and the value behind the mark of a name, each of which may be absent, and the pieces behind them. -/
def entry : List Piece → NodeEntry × List Piece
  | .node name :: .mark .value :: .node value :: rest => ((name, value), rest)
  | .node name :: .mark .value :: rest => ((name, .absent), rest)
  | .node name :: rest => ((name, .absent), rest)
  | .mark .value :: .node value :: rest => ((.absent, value), rest)
  | .mark .value :: rest => ((.absent, .absent), rest)
  | rest => ((.absent, .absent), rest)

theorem length_entry_le (pieces : List Piece) : (entry pieces).2.length ≤ pieces.length := by
  unfold entry
  split <;> simp only [List.length_cons] <;> omega

/-- The entries of a block up to its end, each behind a mark, and the pieces behind it. -/
def blockEntries? : List Piece → Option (List NodeEntry × List Piece)
  | .mark .closeBlock :: rest => some ([], rest)
  | .mark .key :: rest =>
    have := length_entry_le rest
    (blockEntries? (entry rest).2).map fun (entries, rest') => ((entry rest).1 :: entries, rest')
  | _ => none
termination_by pieces => pieces.length
decreasing_by simp only [List.length_cons]; omega

/-- The entry between two commas. Without the mark of a name it is a name alone. -/
def braceEntry? : List Piece → Option (NodeEntry × List Piece)
  | .mark .key :: rest => some (entry rest)
  | .node name :: rest => some ((name, .absent), rest)
  | _ => none

theorem length_braceEntry?_lt {pieces rest : List Piece} {e : NodeEntry} (h : braceEntry? pieces = some (e, rest)) :
    rest.length < pieces.length := by
  unfold braceEntry? at h
  split at h
  · next rest' =>
    have := length_entry_le rest'
    simp only [Option.some.injEq] at h
    simp only [h] at this
    simp only [List.length_cons]
    omega
  · simp only [Option.some.injEq, Prod.mk.injEq] at h
    simp [← h.2]
  · simp at h

/-- The entries between braces, with commas between them and maybe one behind the last, and the pieces behind the closing
brace. -/
def braceEntries? (pieces : List Piece) : Option (List NodeEntry × List Piece) :=
  if pieces.head? = some (.mark .closeBrace) then some ([], pieces.drop 1)
  else
    match h : braceEntry? pieces with
    | some (e, .mark .comma :: rest) =>
      have := length_braceEntry?_lt h
      (braceEntries? rest).map fun (entries, rest) => (e :: entries, rest)
    | some (e, .mark .closeBrace :: rest) => some ([e], rest)
    | _ => none
termination_by pieces.length
decreasing_by simp only [List.length_cons] at this; omega

/-! ## Documents -/

/-- What stands before the mark that a document begins with: the version at most once, and each handle at most once; also the
tokens behind it, and whether anything stood there. -/
def directives? (handles : Handles) (hasVersion : Bool) : List Token → Option (Handles × Bool × List Token)
  | .version major minor :: rest =>
    if hasVersion || major ≠ 1 || minor ≠ 1 && minor ≠ 2 then none else directives? handles true rest
  | .handle name front :: rest =>
    if (handles.lookup name).isSome then none else directives? (handles ++ [(name, front)]) hasVersion rest
  | rest => some (handles, hasVersion || handles ≠ [], rest)

/-- The pieces behind the properties of a mapping, which count for nothing. -/
def withoutProperties : List Piece → List Piece
  | .node (.scalar anchor? value) :: rest => if value.isAbsent then rest else .node (.scalar anchor? value) :: rest
  | pieces => pieces

/-- The entries of a document, and the pieces behind it. Where nothing but properties stands there are none. -/
def entries? (pieces : List Piece) : Option (List NodeEntry × List Piece) :=
  match withoutProperties pieces with
  | .mark .openBlock :: rest => blockEntries? rest
  | .mark .openBrace :: rest => braceEntries? rest
  | rest => if rest.length < pieces.length then some ([], rest) else none

/-- The entries of the only document in a text; marks of its end may follow it. -/
def document? (tokens : List Token) : Option (List NodeEntry) :=
  (directives? [] false tokens).bind fun (handles, hasDirectives, tokens) =>
    let isMarked := tokens.head? = some .documentStart
    if hasDirectives && !isMarked then none
    else
      (pieces? (handles ++ Handles.standard) (if isMarked then tokens.drop 1 else tokens)).bind fun pieces =>
        let isEmpty := if isMarked then pieces.head?.all (· = .mark .documentEnd) else pieces.isEmpty
        (if isEmpty then some ([], pieces) else entries? pieces).bind fun (entries, rest) =>
          if rest.all (· = .mark .documentEnd) then some entries else none

/-! ## Aliases -/

/-- A name and its value. -/
abbrev Entry := Scalar × Scalar

/-- Settings as a list of names and values. -/
abbrev Mapping := List Entry

/-- The anchored scalars before a place in a document, the last one first. -/
abbrev Anchors := List (String × Scalar)

/-- The scalar that a node stands for, and the anchors behind it. The tag of a lone mark on a scalar says that it has none. -/
def Node.resolve? (anchors : Anchors) : Node → Option (Scalar × Anchors)
  | .alias name => (anchors.lookup name).map fun value => (value, anchors)
  | .scalar anchor? value =>
    let value := if value.tag? = some "!" && !value.isAbsent then { value with tag? := none } else value
    some (value, match anchor? with
      | some name => (name, value) :: anchors
      | none => anchors)

/-- The mapping that entries make up. -/
def resolve? (anchors : Anchors) : List NodeEntry → Option Mapping
  | [] => some []
  | (name, value) :: rest =>
    (name.resolve? anchors).bind fun (name, anchors) =>
      (value.resolve? anchors).bind fun (value, anchors) =>
        (resolve? anchors rest).map ((name, value) :: ·)

/-- The mapping that a document is. -/
def mapping? (text : String) : Option Mapping :=
  ((tokens? text).bind document?).bind (resolve? [])

end JackCompiler.Yaml
