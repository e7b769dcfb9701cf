import JackCompiler.Yaml.Token

/-!
# The outline of a document

Line ends and columns are turned into tokens here: where a mapping begins and ends whose names stand one below the other, and
which tokens make up a name. A name is known by the colon behind it, so the tokens that may turn out to be one are kept apart
until then. They must be on one line with the colon and not too far before it.
-/

namespace JackCompiler.Yaml

/-- Tokens that may turn out to be a name. -/
structure Candidate where
  /-- Where they begin. -/
  place : Place
  /-- Whether nothing but a name may stand there. -/
  isRequired : Bool
  /-- The tokens, last one first. -/
  tokens : List Token
  deriving DecidableEq, Repr

namespace Candidate

/-- How far behind its beginning the colon of a name may stand. -/
def reach : Nat := 1024

/-- Whether a colon at a place is too far away. -/
def isStale (candidate : Candidate) (place : Place) : Bool :=
  candidate.place.line < place.line || candidate.place.column + reach < place.column

end Candidate

/-- The tokens of the part of a document that was read, and what counts for the next one. -/
structure Outline where
  around : Surroundings := .nothing
  /-- Whether a name may begin at the next token. -/
  mayBegin : Bool := true
  /-- The tokens before the candidate, last one first. -/
  settled : List Token := []
  candidate? : Option Candidate := none
  deriving DecidableEq, Repr

namespace Outline

/-- Whether braces are open. -/
def inBraces (outline : Outline) : Bool :=
  outline.around = .braces

/-- The outline with one token more. -/
def push (token : Token) (outline : Outline) : Outline :=
  match outline.candidate? with
  | some candidate => { outline with candidate? := some { candidate with tokens := token :: candidate.tokens } }
  | none => { outline with settled := token :: outline.settled }

/-- The outline after a token, where a name may begin or not. -/
def pushed (token : Token) (mayBegin : Bool) (outline : Outline) : Outline :=
  { outline.push token with mayBegin }

/-- The candidate is no name; it must not have been required to be one. -/
def settle? (outline : Outline) : Option Outline :=
  match outline.candidate? with
  | some candidate =>
    if candidate.isRequired then none
    else some { outline with settled := candidate.tokens ++ outline.settled, candidate? := none }
  | none => some outline

/-- A candidate that is too far away from a place is no name. -/
def reach? (place : Place) (outline : Outline) : Option Outline :=
  if outline.candidate?.any (·.isStale place) then outline.settle? else some outline

/-- A block ends before a token that is further left. -/
def closeBefore (column : Nat) (outline : Outline) : Outline :=
  match outline.around with
  | .block first => if column < first then { outline.push .closeBlock with around := .nothing } else outline
  | _ => outline

/-- A block ends before a mark or the end of a document. -/
def close (outline : Outline) : Outline :=
  match outline.around with
  | .block _ => { outline.push .closeBlock with around := .nothing }
  | _ => outline

/-- A name begins in a column. Outside of everything a block begins with it; no block begins in another. -/
def open? (column : Nat) (outline : Outline) : Option Outline :=
  match outline.around with
  | .nothing => some { outline.push .openBlock with around := .block column }
  | .block first => if column ≤ first then some outline else none
  | .braces => some outline

/-- The next token may be the first of a name. -/
def propose? (place : Place) (outline : Outline) : Option Outline :=
  if outline.mayBegin then
    outline.settle?.map fun settled =>
      { settled with candidate? := some ⟨place, settled.around = .block place.column, []⟩ }
  else some outline

/-- The mark of a name, or of the value of one that is no candidate. -/
def mark? (token : Token) (place : Place) (outline : Outline) : Option Outline :=
  if outline.inBraces then some (outline.pushed token false)
  else if outline.mayBegin then (outline.open? place.column).map (·.pushed token true)
  else none

/-- The colon behind a name. -/
def nameEnds? (candidate : Candidate) (outline : Outline) : Option Outline :=
  let before : Outline := { outline with candidate? := none }
  (before.open? candidate.place.column).map fun opened =>
    { opened with settled := .value :: (candidate.tokens ++ .key :: opened.settled), mayBegin := false }

/-- The outline with a token that begins at a place. -/
def accept? (place : Place) (lexeme : Lexeme) (outline : Outline) : Option Outline :=
  match lexeme.token with
  | .openBrace =>
    if outline.around = .nothing then
      outline.settle?.map fun outline => { outline.pushed .openBrace true with around := .braces }
    else none
  | .closeBrace =>
    if outline.inBraces then
      outline.settle?.map fun outline => { outline.pushed .closeBrace false with around := .nothing }
    else none
  | .comma => if outline.inBraces then outline.settle?.map (·.pushed .comma true) else none
  | .key => outline.settle?.bind (·.mark? .key place)
  | .value =>
    match outline.candidate? with
    | some candidate => outline.nameEnds? candidate
    | none => outline.mark? .value place
  | .alias _ | .anchor _ | .tag .. => (outline.propose? place).map (·.pushed lexeme.token false)
  | .scalar value =>
    let before? := if value.style.isBlock then outline.settle? else outline.propose? place
    before?.map (·.pushed lexeme.token lexeme.endsLine)
  | _ => outline.settle?.map fun settled => settled.close.pushed lexeme.token false

/-- The layout before a token: how many characters it takes after `count` others, and whether a name may begin behind it. A
line may begin with a byte order mark. Outside of braces no tab stands where a name may begin, and a name may begin on each
line. -/
def layout (inBraces mayBegin isFirst : Bool) (count : Nat) (text : List Char) : Nat × Bool :=
  match text with
  | [] => (count, mayBegin)
  | c :: rest =>
    if isBreak c then layout inBraces (mayBegin || !inBraces) true (count + 1) rest
    else if c = ' ' || c = '\t' && (inBraces || !mayBegin) || c = '\ufeff' && isFirst then
      layout inBraces mayBegin false (count + 1) rest
    else if c = '#' then
      let comment := (rest.takeWhile fun d => !isBreak d).length
      layout inBraces mayBegin false (count + 1 + comment) (rest.drop comment)
    else (count, mayBegin)
termination_by text.length
decreasing_by all_goals simp only [List.length_drop, List.length_cons]; omega

/-- The tokens of a document; `text` is what is left of it from a place on. -/
def tokensFrom? (outline : Outline) (place : Place) (text : List Char) : Option (List Token) :=
  let (count, mayBegin) := layout outline.inBraces outline.mayBegin (place.column = 0) 0 text
  let start := place.past (text.take count)
  let behind : Outline := { outline with mayBegin }
  (behind.reach? start).bind fun outline =>
    match h : text.drop count with
    | [] => outline.settle?.map fun outline => outline.close.settled.reverse
    | c :: rest =>
      have := length_lt_of_drop_eq h
      let outline := outline.closeBefore start.column
      (Lexeme.read? outline.around start.column c rest).bind fun lexeme =>
        (outline.accept? start lexeme).bind fun outline =>
          outline.tokensFrom? (start.past (c :: rest.take lexeme.more)) (rest.drop lexeme.more)
termination_by text.length
decreasing_by simp only [List.length_drop]; omega

end Outline

/-- The tokens of a text, if it is made of nothing else and each is where it may be. -/
def tokens? (text : String) : Option (List Token) :=
  if text.toList.all isAllowed then Outline.tokensFrom? {} ⟨0, 0⟩ (unifyBreaks text.toList) else none

end JackCompiler.Yaml
