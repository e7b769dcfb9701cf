import JackCompiler.Yaml.Character

/-!
# Gaps between words

A scalar may go on over blanks and line ends. Within a line the blanks between two words stay; a line end is folded into a
blank, and empty lines stand for line ends. `Gap.length_pos` says that a gap before which layout stands takes characters.
-/

namespace JackCompiler.Yaml

/-- What a run of line ends stands for: a newline alone is a blank, a newline before others adds nothing to them. -/
def foldBreaks : List Char → List Char
  | ['\n'] => [' ']
  | '\n' :: more => more
  | breaks => breaks

/-- Layout between two words: the blanks before its first line end, and each line end with the blanks after it. -/
structure Gap where
  blanks : List Char
  lines : List (Char × List Char)
  deriving DecidableEq, Repr

namespace Gap

/-- The line ends that a text begins with, each with the blanks after it. -/
def linesOf (text : List Char) : List (Char × List Char) :=
  match text with
  | [] => []
  | c :: rest =>
    if isBreak c then
      let margin := rest.takeWhile isSpacing
      (c, margin) :: linesOf (rest.drop margin.length)
    else []
termination_by text.length
decreasing_by simp only [List.length_drop, List.length_cons]; omega

/-- The layout that a text begins with. -/
def read (text : List Char) : Gap :=
  let blanks := text.takeWhile isSpacing
  ⟨blanks, linesOf (text.drop blanks.length)⟩

/-- The number of characters in a gap. -/
def length (gap : Gap) : Nat :=
  gap.lines.foldl (fun n line => n + line.2.length + 1) gap.blanks.length

/-- The line ends in a gap. -/
def breaks (gap : Gap) : List Char :=
  gap.lines.map (·.1)

/-- How many blanks stand after the last line end of a gap, if it has one. -/
def margin? (gap : Gap) : Option Nat :=
  gap.lines.getLast?.map (·.2.length)

/-- Whether the line after a gap is further left than an indentation. -/
def endsBefore (indent : Nat) (gap : Gap) : Bool :=
  gap.margin?.any (· < indent)

/-- Whether the line after a gap begins with the mark of a document, which `rest` begins with. -/
def endsAtMark (gap : Gap) (rest : List Char) : Bool :=
  gap.margin? = some 0 && isDocumentMark rest

/-- Whether a tab stands in the indentation of one of the lines of a gap. -/
def hasTabWithin (indent : Nat) (gap : Gap) : Bool :=
  gap.lines.any fun line => (line.2.take indent).contains '\t'

/-- What a gap stands for between two words. -/
def folded (gap : Gap) : List Char :=
  if gap.lines = [] then gap.blanks else foldBreaks gap.breaks

theorem le_foldl_length (lines : List (Char × List Char)) (n : Nat) :
    n + lines.length ≤ lines.foldl (fun n line => n + line.2.length + 1) n := by
  induction lines generalizing n with
  | nil => simp
  | cons line lines ih =>
    have := ih (n + line.2.length + 1)
    simp only [List.foldl_cons, List.length_cons]
    omega

/-- A text that begins with layout begins with a gap of at least one character. -/
theorem length_pos {c : Char} {rest : List Char} (h : isLayout c = true) : 0 < (read (c :: rest)).length := by
  have hle := le_foldl_length (read (c :: rest)).lines (read (c :: rest)).blanks.length
  unfold length
  by_cases hs : isSpacing c = true
  · have : 0 < (read (c :: rest)).blanks.length := by simp [read, hs]
    omega
  · have hb : isBreak c = true := by simpa [isLayout, hs] using h
    have : 0 < (read (c :: rest)).lines.length := by
      simp only [read, List.takeWhile_cons, hs]
      simp [linesOf, hb]
    omega

end Gap

end JackCompiler.Yaml
