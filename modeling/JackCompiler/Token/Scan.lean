import JackCompiler.Text.Blank
import JackCompiler.Token.Classify

/-!
# Scanning

A source text is cut from the front into layout and lexemes: blanks and comments are skipped, a lexeme is the longest run
of its class. Each lexeme becomes a token at the position of its first character. `Front.taken_append_rest` says that
cutting loses nothing.
-/

namespace JackCompiler

/-- The rest of a block comment up to and with its closing mark, and the text after it. `taken` holds what was passed
already, last character first. -/
def closeComment (taken : List Char) : List Char → Option (List Char × List Char)
  | [] => none
  | '*' :: '/' :: rest => some (taken.reverseAux ['*', '/'], rest)
  | c :: rest => closeComment (c :: taken) rest

/-- The rest of a string constant up to and with its closing quote, and the text after it. The character read next stands
at `p`, and `count` characters, last one first in `taken`, were passed since the quote at `start`. -/
def closeString (start p : Position) (count : Nat) (taken : List Char) :
    List Char → Except LexError (List Char × List Char)
  | [] => .error (.unterminatedString start)
  | c :: rest =>
    if c = '"' then .ok (taken.reverseAux ['"'], rest)
    else if c = '\n' then .error (.unterminatedString start)
    else if maxConstant < c.toNat then .error (.stringCharOutOfRange c p)
    else if maxConstant ≤ count then .error (.stringTooLong start)
    else closeString start (p.next c) (count + 1) (c :: taken) rest

/-- The front of a text, cut off from the rest. -/
structure Front where
  /-- Whether the front is a lexeme; if not, it is layout. -/
  isLexeme : Bool
  taken : List Char
  rest : List Char

namespace Front

/-- A front of one character and all characters after it that a class holds. -/
def run (isLexeme : Bool) (c : Char) (cs : List Char) (inClass : Char → Bool) : Front :=
  ⟨isLexeme, c :: cs.takeWhile inClass, cs.dropWhile inClass⟩

/-- The front of the text `c :: cs` that begins at `p`. -/
def cut (p : Position) (c : Char) (cs : List Char) : Except LexError Front :=
  if isBlank c then .ok ⟨false, [c], cs⟩
  else if c = '/' && cs.head? = some '/' then .ok (run false c cs (· ≠ '\n'))
  else if c = '/' && cs.head? = some '*' then
    match closeComment [] (cs.drop 1) with
    | some (inside, rest) => .ok ⟨false, c :: '*' :: inside, rest⟩
    | none => .error (.unterminatedComment p)
  else if c = '"' then
    match closeString p (p.next c) 0 [] cs with
    | .ok (inside, rest) => .ok ⟨true, c :: inside, rest⟩
    | .error e => .error e
  else if c.isDigit then .ok (run true c cs Char.isDigit)
  else if isIdentifierStart c then .ok (run true c cs isIdentifierChar)
  else .ok ⟨true, [c], cs⟩

theorem closeComment_eq {taken text inside rest : List Char} (h : closeComment taken text = some (inside, rest)) :
    inside ++ rest = taken.reverse ++ text := by
  fun_induction closeComment taken text with
  | case1 => simp at h
  | case2 =>
    simp only [Option.some.injEq, Prod.mk.injEq] at h
    obtain ⟨rfl, rfl⟩ := h
    simp [List.reverseAux_eq]
  | case3 c rest' taken _ ih => simpa using ih h

theorem closeString_eq {start p : Position} {count : Nat} {taken text inside rest : List Char}
    (h : closeString start p count taken text = .ok (inside, rest)) : inside ++ rest = taken.reverse ++ text := by
  induction text generalizing p count taken with
  | nil => simp [closeString] at h
  | cons c cs ih =>
    simp only [closeString] at h
    split at h
    · next hc =>
      simp only [Except.ok.injEq, Prod.mk.injEq] at h
      obtain ⟨rfl, rfl⟩ := h
      simp [List.reverseAux_eq, hc]
    · split at h
      · simp at h
      · split at h
        · simp at h
        · split at h
          · simp at h
          · simpa using ih h

/-- Cutting off the front of a text loses nothing. -/
theorem taken_append_rest {p : Position} {c : Char} {cs : List Char} {front : Front} (h : cut p c cs = .ok front) :
    front.taken ++ front.rest = c :: cs := by
  unfold cut run at h
  split at h
  · simp only [Except.ok.injEq] at h
    simp [← h]
  split at h
  · simp only [Except.ok.injEq] at h
    simp [← h]
  split at h
  · next hc =>
    split at h
    · next inside rest hclose =>
      simp only [Except.ok.injEq] at h
      have := closeComment_eq hclose
      simp only [Bool.and_eq_true, decide_eq_true_eq, List.head?_eq_some_iff] at hc
      obtain ⟨-, t, rfl⟩ := hc
      simpa [← h] using this
    · simp at h
  split at h
  · split at h
    · next inside rest hclose =>
      simp only [Except.ok.injEq] at h
      simpa [← h] using closeString_eq hclose
    · simp at h
  split at h
  · simp only [Except.ok.injEq] at h
    simp [← h]
  split at h
  · simp only [Except.ok.injEq] at h
    simp [← h]
  · simp only [Except.ok.injEq] at h
    simp [← h]

/-- A front is never empty. -/
theorem rest_length_lt {p : Position} {c : Char} {cs : List Char} {front : Front} (h : cut p c cs = .ok front) :
    front.rest.length < (c :: cs).length := by
  have hne : front.taken ≠ [] := by
    unfold cut run at h
    split at h
    · cases h
      simp
    split at h
    · cases h
      simp
    split at h
    · split at h <;> cases h
      simp
    split at h
    · split at h <;> cases h
      simp
    split at h
    · cases h
      simp
    split at h <;> cases h <;> simp
  have hlen := congrArg List.length (taken_append_rest h)
  have hpos := List.length_pos_iff.mpr hne
  simp only [List.length_append] at hlen
  omega

end Front

/-- Scans a text that begins at `p`, after the tokens in `found`. -/
def scanFrom (p : Position) (text : List Char) (found : Array Token) : Except LexError (List Token) :=
  match text with
  | [] => .ok found.toList
  | c :: cs =>
    match h : Front.cut p c cs with
    | .error e => .error e
    | .ok front =>
      have := Front.rest_length_lt h
      if front.isLexeme then
        match classify (String.ofList front.taken) p with
        | .error e => .error e
        | .ok kind => scanFrom (p.after front.taken) front.rest (found.push ⟨kind, p⟩)
      else scanFrom (p.after front.taken) front.rest found
termination_by text.length
decreasing_by all_goals simp only [List.length_cons] at *; omega

/-! Scanning is a well-founded recursion, so each of its cases is unfolded once here. -/

section

variable {p : Position} {c : Char} {cs : List Char} {front : Front} {found : Array Token}

@[simp] theorem scanFrom_nil : scanFrom p [] found = .ok found.toList := by
  rw [scanFrom]

theorem scanFrom_of_error {e : LexError} (h : Front.cut p c cs = .error e) : scanFrom p (c :: cs) found = .error e := by
  rw [scanFrom]
  split <;> simp_all

theorem scanFrom_of_layout (h : Front.cut p c cs = .ok front) (hl : front.isLexeme = false) :
    scanFrom p (c :: cs) found = scanFrom (p.after front.taken) front.rest found := by
  rw [scanFrom]
  split <;> simp_all

theorem scanFrom_of_lexeme {kind : TokenKind} (h : Front.cut p c cs = .ok front) (hl : front.isLexeme = true)
    (hk : classify (String.ofList front.taken) p = .ok kind) :
    scanFrom p (c :: cs) found = scanFrom (p.after front.taken) front.rest (found.push ⟨kind, p⟩) := by
  rw [scanFrom]
  split <;> simp_all

theorem scanFrom_of_unclassified {e : LexError} (h : Front.cut p c cs = .ok front) (hl : front.isLexeme = true)
    (hk : classify (String.ofList front.taken) p = .error e) : scanFrom p (c :: cs) found = .error e := by
  rw [scanFrom]
  split <;> simp_all

end

/-- The tokens of a source text, or the first thing that is wrong with its characters. -/
def scan (text : String) : Except LexError (List Token) :=
  scanFrom .start text.toList #[]

end JackCompiler
