import JackCompiler.Yaml.Gap

/-!
# Block scalars

After a bar or a closing angle bracket, the lines that are indented further are the text of a scalar: kept as they are after
the one, folded after the other. A header behind the mark says what becomes of the last line ends and, if the first line of
the text cannot show it, how far the text is indented.
-/

namespace JackCompiler.Yaml.Block

/-- What becomes of the line ends behind the last line: none stays, the first stays, all stay. -/
inductive Chomp where
  | strip | clip | keep
  deriving DecidableEq, Repr

/-- The mark that says what becomes of the last line ends. -/
def chomp? : Char → Option Chomp
  | '+' => some .keep
  | '-' => some .strip
  | _ => none

/-- The mark that says how much further than its surroundings a text is indented. -/
def increment? (c : Char) : Option Nat :=
  if '1' ≤ c && c ≤ '9' then some (c.toNat - '0'.toNat) else none

/-- What the marks of a header say, in either order. -/
def header? : List Char → Option (Chomp × Option Nat)
  | [] => some (.clip, none)
  | [a] => ((chomp? a).map fun chomp => (chomp, none)) <|> (increment? a).map fun n => (.clip, some n)
  | [a, b] =>
    ((chomp? a).bind fun chomp => (increment? b).map fun n => (chomp, some n)) <|>
      (chomp? b).bind fun chomp => (increment? a).map fun n => (chomp, some n)
  | _ => none

/-- The most blanks that the empty lines before the first line of a text, and that line, begin with. No tab may stand behind
them. -/
def deepest? (text : List Char) : Option Nat :=
  let margin := (text.takeWhile (· = ' ')).length
  match h : text.drop margin with
  | [] => some margin
  | c :: rest =>
    have := length_lt_of_drop_eq h
    if c = '\t' then none
    else if isBreak c then (deepest? rest).map (max margin)
    else some margin
termination_by text.length

/-- The lines of a text. -/
structure Lines where
  /-- The line ends of the empty lines before the first other line. -/
  start : List Char
  /-- Each line that is not empty, and its line end with those of the empty lines after it. -/
  content : List (List Char × List Char)
  /-- How many characters the lines take, and the blanks before the first character that is none of theirs. -/
  length : Nat
  deriving DecidableEq, Repr

/-- The lines that are indented by at least `indent`, and the empty lines. No tab may stand in their indentation. -/
def lines? (indent : Nat) (text : List Char) : Option Lines :=
  let margin := ((text.take indent).takeWhile (· = ' ')).length
  match h : text.drop margin with
  | [] => some ⟨[], [], margin⟩
  | c :: rest =>
    have := length_lt_of_drop_eq h
    if c = '\t' && margin < indent then none
    else if isBreak c then
      (lines? indent rest).map fun more => ⟨c :: more.start, more.content, margin + 1 + more.length⟩
    else if margin < indent then some ⟨[], [], margin⟩
    else
      let line := rest.takeWhile fun d => !isBreak d
      match rest.drop line.length with
      | [] => some ⟨[], [(c :: line, [])], margin + 1 + line.length⟩
      | d :: _ =>
        (lines? indent (rest.drop (line.length + 1))).map fun more =>
          ⟨[], (c :: line, d :: more.start) :: more.content, margin + line.length + 2 + more.length⟩
termination_by text.length
decreasing_by
  · exact this
  · simp only [List.length_drop]; omega

/-- Whether a line begins with a blank behind its indentation; no line end beside it is folded. -/
def isDeeper (line : List Char) : Bool :=
  line.head?.any isSpacing

/-- The text of lines. -/
def joined (isFolded : Bool) (chomp : Chomp) : List (List Char × List Char) → List Char
  | [] => []
  | [(line, breaks)] =>
    line ++ match chomp with
      | .strip => []
      | .clip => breaks.take 1
      | .keep => breaks
  | (line, breaks) :: next :: more =>
    let between := if isFolded && !isDeeper line && !isDeeper next.1 then foldBreaks breaks else breaks
    line ++ between ++ joined isFolded chomp (next :: more)

/-- The text of a block scalar. -/
def textOf (isFolded : Bool) (chomp : Chomp) (lines : Lines) : List Char :=
  if lines.content = [] && chomp ≠ .keep then []
  else lines.start ++ joined isFolded chomp lines.content

/-- The block scalar behind its mark, in a mapping whose names are indented by `around`: its text, and the number of
characters it takes. -/
def read? (isFolded : Bool) (around : Nat) (text : List Char) : Option (List Char × Nat) :=
  let marks := text.takeWhile fun c => (chomp? c).isSome || c.isDigit
  let header := text.takeWhile fun c => !isBreak c
  let body := text.drop (header.length + 1)
  (header? marks).bind fun (chomp, increment?) =>
    if !isIdle (header.drop marks.length) then none
    else
      let indent? := match increment? with
        | some n => some (around + n)
        | none => (deepest? body).map (max (around + 1))
      indent?.bind fun indent => (lines? indent body).map fun lines =>
        (textOf isFolded chomp lines, min text.length (header.length + 1) + lines.length)

end JackCompiler.Yaml.Block
