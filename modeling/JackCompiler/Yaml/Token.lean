import JackCompiler.Yaml.Block
import JackCompiler.Yaml.Plain
import JackCompiler.Yaml.Quoted
import JackCompiler.Yaml.Scalar

/-!
# Tokens of a document

What a document is made of, read from the character where a token begins. Which token begins there depends on what is open
around it, because braces change what a plain scalar may hold and blocks how far it is indented.
-/

namespace JackCompiler.Yaml

/-- The parts of a document. -/
inductive Token where
  /-- The version that a document is written for. -/
  | version (major minor : Nat)
  /-- What a handle stands for at the front of tags. -/
  | handle (name front : String)
  | documentStart
  | documentEnd
  /-- A mapping begins whose names are written one below the other. -/
  | openBlock
  | closeBlock
  | openBrace
  | closeBrace
  | comma
  /-- A name follows. -/
  | key
  /-- The value of a name follows. -/
  | value
  | alias (name : String)
  | anchor (name : String)
  /-- A tag: its rest behind a handle, or all of it. -/
  | tag (handle? : Option String) (rest : String)
  | scalar (value : Scalar)
  deriving DecidableEq, Repr

/-- What is open around a token: nothing, a mapping whose names stand in one column, or a mapping in braces. -/
inductive Surroundings where
  | nothing
  | block (column : Nat)
  | braces
  deriving DecidableEq, Repr

/-- How far the lines of a plain scalar are indented. -/
def Surroundings.indent : Surroundings → Nat
  | .block column => column + 1
  | _ => 0

/-- A token as it is written. -/
structure Lexeme where
  token : Token
  /-- How many characters it takes after its first. -/
  more : Nat
  /-- Whether its last line ends behind it. -/
  endsLine : Bool := false
  deriving DecidableEq, Repr

namespace Lexeme

/-! ## Names and tags -/

/-- A name behind an ampersand or an asterisk. -/
def name? (make : String → Token) (text : List Char) : Option Lexeme :=
  let name := text.takeWhile isNameChar
  let rest := text.drop name.length
  if name ≠ [] && (isOpenEnd rest || rest.head?.any "?:,]\x7d%@\x60".toList.contains) then
    some ⟨make (String.ofList name), name.length, false⟩
  else none

/-- The characters that tags are made of, escapes aside; between angle brackets there are more of them. -/
def isTagChar (isBracketed : Bool) (c : Char) : Bool :=
  isNameChar c || ";/?:@&=+$.!~*'()".toList.contains c || isBracketed && ",[]".toList.contains c

/-- How many octets of a character follow its first one. -/
def octetsAfter? (octet : Nat) : Option Nat :=
  if octet < 0x80 then some 0
  else if octet < 0xc0 then none
  else if octet < 0xe0 then some 1
  else if octet < 0xf0 then some 2
  else if octet < 0xf8 then some 3
  else none

/-- The octets of a tag, each as the character with its number, and the number of characters they are written with. An octet
may be escaped by a percent sign and two digits. `taken` holds the octets so far, last one first, `count` tells how many
characters they took, and `owed` how many octets a character lacks. -/
def octets? (isBracketed : Bool) (taken : List Char) (count owed : Nat) : List Char → Option (List Char × Nat)
  | '%' :: a :: b :: rest =>
    (Radix.value? 16 [a, b]).bind fun octet =>
      if owed = 0 then
        (octetsAfter? octet).bind fun owed =>
          octets? isBracketed (Char.ofNat octet :: taken) (count + 3) owed rest
      else if 0x80 ≤ octet && octet < 0xc0 then
        octets? isBracketed (Char.ofNat octet :: taken) (count + 3) (owed - 1) rest
      else none
  | c :: rest =>
    if owed ≠ 0 || c = '%' then none
    else if isTagChar isBracketed c then octets? isBracketed (c :: taken) (count + 1) 0 rest
    else some (taken.reverse, count)
  | [] => if owed = 0 then some (taken.reverse, count) else none

/-- A tag as a text; it ends before an octet of zero. -/
def tagText (octets : List Char) : String :=
  String.ofList (octets.takeWhile (· ≠ '\x00'))

/-- A tag behind its exclamation mark, without regard to what follows it. -/
def openTag? : List Char → Option Lexeme
  | '<' :: rest =>
    (octets? true [] 0 0 rest).bind fun (octets, n) =>
      if n ≠ 0 && (rest.drop n).head? = some '>' then some ⟨.tag none (tagText octets), n + 2, false⟩ else none
  | text =>
    let word := text.takeWhile isNameChar
    match text.drop word.length with
    | '!' :: rest =>
      (octets? false [] 0 0 rest).bind fun (octets, n) =>
        if n = 0 then none
        else some ⟨.tag (some (String.ofList ('!' :: word ++ ['!']))) (tagText octets), word.length + 1 + n, false⟩
    | rest =>
      (octets? false [] 0 0 rest).map fun (octets, n) =>
        let tag := tagText (word ++ octets)
        ⟨if tag = "" then .tag none "!" else .tag (some "!") tag, word.length + n, false⟩

/-- A tag behind its exclamation mark; layout ends it, or a comma inside braces. -/
def tag? (inBraces : Bool) (text : List Char) : Option Lexeme :=
  (openTag? text).filter fun lexeme =>
    let rest := text.drop lexeme.more
    isOpenEnd rest || inBraces && rest.head? = some ','

/-! ## Directives -/

/-- The number that a line begins with, of at most nine digits, and the rest of the line. -/
def number? (line : List Char) : Option (Nat × List Char) :=
  let digits := line.takeWhile Char.isDigit
  if digits.length ≤ 9 then (Radix.value? 10 digits).map fun n => (n, line.drop digits.length) else none

/-- A version: two numbers with a point between them. -/
def version? (line : List Char) : Option (Token × List Char) :=
  (number? (line.dropWhile isSpacing)).bind fun (major, rest) =>
    if rest.head? = some '.' then
      (number? (rest.drop 1)).map fun (minor, rest) => (.version major minor, rest)
    else none

/-- A handle and what it stands for. -/
def handle? (line : List Char) : Option (Token × List Char) :=
  match line.dropWhile isSpacing with
  | '!' :: rest =>
    let word := rest.takeWhile isNameChar
    let mark := if (rest.drop word.length).head? = some '!' then ['!'] else []
    let name := '!' :: word ++ mark
    let rest := rest.drop (word.length + mark.length)
    if (word ≠ [] && mark = []) || !rest.head?.any isSpacing then none
    else
      let rest := rest.dropWhile isSpacing
      (octets? true [] 0 0 rest).bind fun (octets, n) =>
        if n ≠ 0 && isOpenEnd (rest.drop n) then
          some (.handle (String.ofList name) (tagText octets), rest.drop n)
        else none
  | _ => none

/-- The line behind a percent sign at its beginning. -/
def directive? (text : List Char) : Option Lexeme :=
  let line := text.takeWhile fun c => !isBreak c
  let name := line.takeWhile isNameChar
  let rest := line.drop name.length
  if !isOpenEnd rest then none
  else
    let found? :=
      if name = "YAML".toList then version? rest
      else if name = "TAG".toList then handle? rest
      else none
    found?.bind fun (token, rest) =>
      if isIdle rest then some ⟨token, min text.length (line.length + 1), true⟩ else none

/-! ## Tokens -/

/-- A block scalar behind its mark; only a name or a value in a block is one. -/
def block? (around : Surroundings) (isFolded : Bool) (text : List Char) : Option Lexeme :=
  match around with
  | .block column =>
    (Block.read? isFolded column text).map fun (chars, n) =>
      ⟨.scalar ⟨String.ofList chars, if isFolded then .folded else .literal, none⟩, n, true⟩
  | _ => none

/-- A scalar in quotes, behind the first quote. -/
def quoted? (body? : Option (List Char × Nat)) : Option Lexeme :=
  body?.map fun (chars, n) => ⟨.scalar ⟨String.ofList chars, .quoted, none⟩, n, false⟩

/-- A plain scalar. -/
def plain? (around : Surroundings) (c : Char) (rest : List Char) : Option Lexeme :=
  (Plain.read? (around = .braces) around.indent c rest).map fun (chars, tail) =>
    ⟨.scalar ⟨String.ofList chars, .plain, none⟩, tail.length, tail.endsLine⟩

/-- The token that begins at the character `c` before `rest`, which stands in a column. -/
def read? (around : Surroundings) (column : Nat) (c : Char) (rest : List Char) : Option Lexeme :=
  let inBraces : Bool := around = .braces
  if column = 0 && c = '%' then directive? rest
  else if column = 0 && isTriple '-' (c :: rest) then some ⟨.documentStart, 2, false⟩
  else if column = 0 && isTriple '.' (c :: rest) then some ⟨.documentEnd, 2, false⟩
  else if c = '\x7b' then some ⟨.openBrace, 0, false⟩
  else if c = '\x7d' then some ⟨.closeBrace, 0, false⟩
  else if c = ',' then some ⟨.comma, 0, false⟩
  else if c = '?' && (inBraces || isOpenEnd rest) then some ⟨.key, 0, false⟩
  else if c = ':' && (inBraces || isOpenEnd rest) then some ⟨.value, 0, false⟩
  else if c = '*' then name? .alias rest
  else if c = '&' then name? .anchor rest
  else if c = '!' then tag? inBraces rest
  else if c = '|' && !inBraces then block? around false rest
  else if c = '>' && !inBraces then block? around true rest
  else if c = '\'' then quoted? (Quoted.single? [] 0 rest)
  else if c = '"' then quoted? (Quoted.double? [] 0 rest)
  else if Plain.begins inBraces c rest then plain? around c rest
  else none

end Lexeme

end JackCompiler.Yaml
