import JackCompiler.Text.Radix
import JackCompiler.Yaml.Gap

/-!
# Quoted scalars

In single quotes two quotes stand for one, in double quotes a backslash begins an escape. Either may go on over line ends,
which are folded; a backslash before a line end joins the lines. No line of either begins with the mark of a document.
-/

namespace JackCompiler.Yaml.Quoted

/-- The body of a scalar in single quotes, and the number of characters up to and with the closing quote. `taken` holds the
body so far, last character first, and `count` tells how many characters it took. -/
def single? (taken : List Char) (count : Nat) (text : List Char) : Option (List Char × Nat) :=
  match text with
  | [] => none
  | '\'' :: '\'' :: rest => single? ('\'' :: taken) (count + 2) rest
  | c :: rest =>
    if h : isLayout c then
      let gap := Gap.read (c :: rest)
      let after := (c :: rest).drop gap.length
      if gap.endsAtMark after then none
      else single? (gap.folded.reverse ++ taken) (count + gap.length) after
    else if c = '\'' then some (taken.reverse, count + 1)
    else single? (c :: taken) (count + 1) rest
termination_by text.length
decreasing_by
  · simp only [List.length_cons]; omega
  · have := @Gap.length_pos c rest h
    simp only [List.length_drop, List.length_cons]; omega
  · simp only [List.length_cons]; omega

/-- The character that a letter stands for after a backslash. -/
def namedEscape? : Char → Option Char
  | '0' => some '\x00'
  | 'a' => some '\x07'
  | 'b' => some '\x08'
  | 't' => some '\t'
  | '\t' => some '\t'
  | 'n' => some '\n'
  | 'v' => some '\x0b'
  | 'f' => some '\x0c'
  | 'r' => some '\r'
  | 'e' => some '\x1b'
  | ' ' => some ' '
  | '"' => some '"'
  | '/' => some '/'
  | '\\' => some '\\'
  | 'N' => some '\x85'
  | '_' => some '\xa0'
  | 'L' => some '\u2028'
  | 'P' => some '\u2029'
  | _ => none

/-- How many hexadecimal digits follow a letter after a backslash. -/
def escapeWidth? : Char → Option Nat
  | 'x' => some 2
  | 'u' => some 4
  | 'U' => some 8
  | _ => none

/-- The character with a code, if there is one. -/
def charOf? (code : Nat) : Option Char :=
  if code.isValidChar then some (Char.ofNat code) else none

/-- The character that stands after a backslash, and the number of characters it is written with. -/
def escape? (c : Char) (rest : List Char) : Option (Char × Nat) :=
  match escapeWidth? c with
  | some width =>
    let digits := rest.take width
    if digits.length < width then none
    else ((Radix.value? 16 digits).bind charOf?).map fun d => (d, width + 1)
  | none => (namedEscape? c).map fun d => (d, 1)

/-- The body of a scalar in double quotes, and the number of characters up to and with the closing quote. `taken` holds the
body so far, last character first, and `count` tells how many characters it took. -/
def double? (taken : List Char) (count : Nat) (text : List Char) : Option (List Char × Nat) :=
  match text with
  | [] => none
  | '\\' :: c :: rest =>
    if isBreak c then
      let gap := Gap.read (c :: rest)
      let after := (c :: rest).drop gap.length
      if gap.endsAtMark after then none
      else double? ((gap.breaks.drop 1).reverse ++ taken) (count + 1 + gap.length) after
    else (escape? c rest).bind fun (d, n) => double? (d :: taken) (count + 1 + n) ((c :: rest).drop n)
  | c :: rest =>
    if h : isLayout c then
      let gap := Gap.read (c :: rest)
      let after := (c :: rest).drop gap.length
      if gap.endsAtMark after then none
      else double? (gap.folded.reverse ++ taken) (count + gap.length) after
    else if c = '"' then some (taken.reverse, count + 1)
    else double? (c :: taken) (count + 1) rest
termination_by text.length
decreasing_by
  · simp only [List.length_drop, List.length_cons]; omega
  · simp only [List.length_drop, List.length_cons]; omega
  · have := @Gap.length_pos c rest h
    simp only [List.length_drop, List.length_cons]; omega
  · simp only [List.length_cons]; omega

end JackCompiler.Yaml.Quoted
