import JackCompiler.Yaml.Gap

/-!
# Plain scalars

A plain scalar is a run of words. It ends before a colon that layout follows, before a comment, before a line that is not
indented enough, before the mark of a document, and inside braces before their marks.
-/

namespace JackCompiler.Yaml.Plain

/-- The characters that begin no plain scalar. -/
def isIndicator (c : Char) : Bool :=
  isFlowMark c || "-?:#&*!|>'\"%@\x60".toList.contains c

/-- Whether a plain scalar begins at a character before a text. -/
def begins (inBraces : Bool) (c : Char) (rest : List Char) : Bool :=
  !isIndicator c && !isLayout c || c = '-' && !isOpenEnd rest || !inBraces && (c = '?' || c = ':') && !isOpenEnd rest

/-- The number of characters in the word that a text begins with, after `count` others. Inside braces a colon must not stand
between a word and a mark of braces or a question mark. -/
def wordLength? (inBraces : Bool) (count : Nat) : List Char → Option Nat
  | [] => some count
  | c :: rest =>
    if isLayout c then some count
    else if inBraces && c = ':' && rest.head?.any (fun d => isFlowMark d || d = '?') then none
    else if c = ':' && isOpenEnd rest || inBraces && isFlowMark c then some count
    else wordLength? inBraces (count + 1) rest

/-- What follows the first word of a plain scalar. -/
structure Tail where
  chars : List Char
  /-- How many characters it takes, the layout behind the last word included. -/
  length : Nat
  /-- Whether a line ends behind the last word. -/
  endsLine : Bool
  deriving DecidableEq, Repr

/-- The rest of a plain scalar after a word; its lines are indented by at least `indent`. -/
def tail? (inBraces : Bool) (indent : Nat) (text : List Char) : Option Tail :=
  let gap := Gap.read text
  if gap.hasTabWithin indent then none
  else
    match h : text.drop gap.length with
    | [] => some ⟨[], gap.length, gap.lines ≠ []⟩
    | c :: rest =>
      have := length_lt_of_drop_eq h
      if gap.endsBefore indent || gap.endsAtMark (c :: rest) || c = '#' then some ⟨[], gap.length, gap.lines ≠ []⟩
      else
        match wordLength? inBraces 0 (c :: rest) with
        | none => none
        | some 0 => some ⟨[], gap.length, gap.lines ≠ []⟩
        | some (n + 1) => (tail? inBraces indent (rest.drop n)).map fun tail =>
          ⟨gap.folded ++ c :: rest.take n ++ tail.chars, gap.length + n + 1 + tail.length, tail.endsLine⟩
termination_by text.length
decreasing_by simp only [List.length_drop]; omega

/-- The plain scalar that begins at a character: its text, and the tail after its first word. -/
def read? (inBraces : Bool) (indent : Nat) (c : Char) (rest : List Char) : Option (List Char × Tail) :=
  (wordLength? inBraces 0 (c :: rest)).bind fun n =>
    (tail? inBraces indent (rest.drop (n - 1))).map fun tail =>
      (c :: rest.take (n - 1) ++ tail.chars, { tail with length := n - 1 + tail.length })

end JackCompiler.Yaml.Plain
