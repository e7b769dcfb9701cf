import JackCompiler.Proofs.Grammar.Places
import JackCompiler.Proofs.Scanning.Defects

/-!
# Texts one below the other

A newline ends every piece of a text but a block comment: what stands in front of a text goes on standing there when a
newline and more follow (`Front.Stands.append_newline`), and so does a defect other than an open comment
(`Defect.append_newline`). Scanning does not depend on where a text stands, only the places in its result do
(`scanFrom_below`). Main statement: a text and another below it are scanned to the tokens of both, those of the other
moved down, and the first error in either is the error of both (`scan_append_newline`).
-/

namespace JackCompiler

/-! ## Moving down -/

/-- The place a number of rows further down. -/
def Position.below (rows : Nat) (p : Position) : Position :=
  ⟨p.row + rows, p.col⟩

/-- Moves the place of an error in the characters. -/
def LexError.relocate (f : Position → Position) : LexError → LexError
  | .unexpectedChar char p => .unexpectedChar char (f p)
  | .unterminatedString start => .unterminatedString (f start)
  | .unterminatedComment start => .unterminatedComment (f start)
  | .integerOutOfRange digits p => .integerOutOfRange digits (f p)
  | .stringCharOutOfRange char p => .stringCharOutOfRange char (f p)
  | .stringTooLong start => .stringTooLong (f start)

/-- Moves the places of tokens, or of the error that was met, a number of rows down. -/
def scannedBelow (rows : Nat) : Except LexError (List Token) → Except LexError (List Token)
  | .ok tokens => .ok (tokens.map (Token.relocate (.below rows)))
  | .error e => .error (e.relocate (.below rows))

section

variable {p start : Position} {rows : Nat} {c : Char} {cs text : List Char} {found : Array Token}

theorem Position.below_next : (p.next c).below rows = (p.below rows).next c := by
  rw [next, next]
  split
  · rw [below, below, Nat.add_right_comm]
  · rfl

theorem Position.below_after : (p.after cs).below rows = (p.below rows).after cs := by
  induction cs generalizing p with
  | nil => rfl
  | cons c cs ih => rw [after_cons, ih, below_next, after_cons]

/-- Reading a string constant further down fails further down, or closes it in the same way. -/
theorem closeString_below {count : Nat} {taken : List Char} :
    closeString (start.below rows) (p.below rows) count taken text =
      (closeString start p count taken text).mapError (LexError.relocate (.below rows)) := by
  induction text generalizing p count taken with
  | nil => rfl
  | cons c cs ih =>
    rw [closeString, closeString, ← Position.below_next, ih]
    split_ifs <;> rfl

/-- What is cut off the front of a text does not depend on where the text stands. -/
theorem cut_below : Front.cut (p.below rows) c cs =
    (Front.cut p c cs).mapError (LexError.relocate (.below rows)) := by
  rw [Front.cut, Front.cut, ← Position.below_next, closeString_below]
  split_ifs
  all_goals first | rfl | skip
  · rcases closeComment [] (cs.drop 1) with _ | ⟨inside, rest⟩ <;> rfl
  · rcases closeString p (p.next c) 0 [] cs with _ | ⟨inside, rest⟩ <;> rfl

theorem classify_below {lexeme : String} : classify lexeme (p.below rows) =
    (classify lexeme p).mapError (LexError.relocate (.below rows)) := by
  rw [classify, classify]
  rcases Keyword.ofSpelling? lexeme with _ | word
  · rcases lexeme.toList with _ | ⟨c, cs⟩
    · rfl
    · dsimp only
      rcases stringBody? (c :: cs) with _ | body <;> dsimp only <;> split_ifs <;> rfl
  · rfl

/-- Scanning a text further down finds the same further down. -/
theorem scanFrom_below : scanFrom (p.below rows) text (found.map (Token.relocate (.below rows))) =
    scannedBelow rows (scanFrom p text found) := by
  fun_induction scanFrom p text found with
  | case1 => simp [scannedBelow]
  | case2 p found c cs e hcut =>
    rw [scanFrom_of_error (e := e.relocate (.below rows)) (by rw [cut_below, hcut]; rfl)]
    rfl
  | case3 p found c cs front hcut _ hl e hk =>
    rw [scanFrom_of_unclassified (e := e.relocate (.below rows)) (by rw [cut_below, hcut]; rfl) hl
      (by rw [classify_below, hk]; rfl)]
    rfl
  | case4 p found c cs front hcut _ hl kind hk ih =>
    have classified : classify (String.ofList front.taken) (p.below rows) = .ok kind := by
      rw [classify_below, hk]
      rfl
    rw [scanFrom_of_lexeme (by rw [cut_below, hcut]; rfl) hl classified, ← ih, Array.map_push, Position.below_after]
    rfl
  | case5 p found c cs front hcut _ hl ih =>
    rw [Bool.not_eq_true] at hl
    rw [scanFrom_of_layout (by rw [cut_below, hcut]; rfl) hl, ← ih, Position.below_after]

theorem scanFrom_start_below (rows : Nat) (text : String) :
    scanFrom (Position.start.below rows) text.toList #[] = scannedBelow rows (scan text) := by
  have moved : scanFrom (Position.start.below rows) text.toList (Array.map _ #[]) = _ := scanFrom_below
  rwa [Array.map_empty] at moved

/-- Tokens that were found before stay in front of those that are found. -/
theorem scanFrom_found (earlier : Array Token) :
    scanFrom p text (earlier ++ found) = (scanFrom p text found).map (earlier.toList ++ ·) := by
  fun_induction scanFrom p text found with
  | case1 => simp [Except.map]
  | case2 p found c cs e hcut =>
    rw [scanFrom_of_error hcut]
    rfl
  | case3 p found c cs front hcut _ hl e hk =>
    rw [scanFrom_of_unclassified hcut hl hk]
    rfl
  | case4 p found c cs front hcut _ hl kind hk ih => rw [scanFrom_of_lexeme hcut hl hk, ← Array.append_push, ih]
  | case5 p found c cs front hcut _ hl ih =>
    rw [Bool.not_eq_true] at hl
    rw [scanFrom_of_layout hcut hl, ih]

end

/-! ## Pieces and defects before a newline -/

section

variable {piece rest more before : List Char} {p : Position} {e : LexError}

/-- A text goes on as before, or with the newline behind its end. -/
theorem mem_head?_append_newline {d : Char} (h : d ∈ (rest ++ '\n' :: more).head?) : d ∈ rest.head? ∨ d = '\n' := by
  cases rest with
  | nil => exact .inr (Option.some.inj h).symm
  | cons c cs => exact .inl h

theorem Layout.append_newline (h : Layout piece rest) : Layout piece (rest ++ '\n' :: more) := by
  cases h with
  | blank hc => exact .blank hc
  | line hb hrest => exact .line hb fun d hd => (mem_head?_append_newline hd).elim (hrest d) id
  | block hb => exact .block hb

theorem Lexeme.append_newline (h : Lexeme piece rest) : Lexeme piece (rest ++ '\n' :: more) := by
  cases h with
  | word hc hcs hrest =>
    refine .word hc hcs fun d hd => ?_
    rcases mem_head?_append_newline hd with old | rfl
    · exact hrest d old
    · decide
  | digits hc hcs hv hrest =>
    refine .digits hc hcs hv fun d hd => ?_
    rcases mem_head?_append_newline hd with old | rfl
    · exact hrest d old
    · decide
  | symbol hc hrest =>
    refine .symbol hc fun slash d hd => ?_
    rcases mem_head?_append_newline hd with old | rfl
    · exact hrest slash d old
    · decide
  | string hb hl hc => exact .string hb hl hc

/-- A piece in front of a text goes on standing there when a newline follows the text. -/
theorem Front.Stands.append_newline {front : Front} (h : front.Stands) (more : List Char) :
    Front.Stands ⟨front.isLexeme, front.taken, front.rest ++ '\n' :: more⟩ := by
  obtain ⟨isLexeme, taken, rest⟩ := front
  cases isLexeme with
  | true =>
    have lexeme : Lexeme taken rest := h
    exact lexeme.append_newline.stands
  | false =>
    have layout : Layout taken rest := h
    exact layout.append_newline.stands

theorem Pieces.append_newline (h : Pieces before rest) (more : List Char) : Pieces before (rest ++ '\n' :: more) := by
  induction h with
  | nil => exact .nil
  | cons hp _ ih =>
    have stands := hp.append_newline more
    rw [List.append_assoc] at stands
    exact .cons stands ih

theorem BreaksOff.append_newline {start : Position} {count : Nat} (h : BreaksOff start p count rest e) :
    BreaksOff start p count (rest ++ '\n' :: more) e := by
  cases h with
  | outOfRange hc => exact .outOfRange hc
  | tooLong hs hc hcount => exact .tooLong hs hc hcount
  | unterminated hrest => exact .unterminated fun d hd => (mem_head?_append_newline hd).elim (hrest d) id

/-- A defect other than an open comment is one with or without a newline behind the text. -/
theorem Defect.append_newline (h : Defect p rest e) (he : ∀ start, e ≠ .unterminatedComment start) :
    Defect p (rest ++ '\n' :: more) e := by
  cases h with
  | comment => exact absurd rfl (he p)
  | string hb hc hl breaks =>
    rw [List.cons_append, List.append_assoc]
    exact .string hb hc hl breaks.append_newline
  | integer hc hcs hrest hv =>
    rw [List.append_assoc]
    refine .integer hc hcs (fun d hd => ?_) hv
    rcases mem_head?_append_newline hd with old | rfl
    · exact hrest d old
    · decide
  | char hb hs hq hd hw => exact .char hb hs hq hd hw

end

/-! ## A text and another below it -/

section

variable {p : Position} {text more : List Char} {found : Array Token} {tokens : List Token} {e : LexError}

/-- Behind a text that is scanned, and a newline, scanning goes on in the next row. -/
theorem scanFrom_append_newline (h : scanFrom p text found = .ok tokens) :
    scanFrom p (text ++ '\n' :: more) found = scanFrom ((p.after text).next '\n') more tokens.toArray := by
  fun_induction scanFrom p text found with
  | case1 p found =>
    cases h
    have newline : Layout ['\n'] more := .blank (by decide)
    exact newline.scanFrom_append
  | case2 => cases h
  | case3 => cases h
  | case4 p found c cs front hcut _ hl kind hk ih =>
    have stands := (Front.stands_of_cut hcut fun _ => ⟨kind, hk⟩).append_newline more
    rw [← Front.taken_append_rest hcut, List.append_assoc, Position.after_append, ← ih h]
    obtain ⟨isLexeme, taken, rest⟩ := front
    obtain rfl : isLexeme = true := hl
    exact Lexeme.scanFrom_append stands hk
  | case5 p found c cs front hcut _ hl ih =>
    have stands := (Front.stands_of_cut hcut fun isLexeme => absurd isLexeme hl).append_newline more
    rw [← Front.taken_append_rest hcut, List.append_assoc, Position.after_append, ← ih h]
    obtain ⟨isLexeme, taken, rest⟩ := front
    obtain rfl : isLexeme = false := Bool.not_eq_true _ ▸ hl
    exact Layout.scanFrom_append stands

/-- An error other than an open comment is met whatever stands in the next row. -/
theorem scanFrom_append_newline_of_error (h : scanFrom p text found = .error e)
    (he : ∀ start, e ≠ .unterminatedComment start) : scanFrom p (text ++ '\n' :: more) found = .error e := by
  obtain ⟨⟨before, rest⟩, rfl, pieces, stuck⟩ := exists_halt text
  dsimp only at *
  obtain ⟨between, scanned⟩ := pieces.scanFrom_append p found
  rw [scanned] at h
  have nonempty : rest ≠ [] := by
    rintro rfl
    rw [scanFrom_nil] at h
    cases h
  obtain ⟨e', defect⟩ := stuck.exists_defect nonempty (p.after before)
  obtain rfl : e' = e := by
    rw [defect.scanFrom_eq] at h
    exact Except.error.inj h
  obtain ⟨_, scanned⟩ := (pieces.append_newline more).scanFrom_append p found
  rw [List.append_assoc, scanned, (defect.append_newline he).scanFrom_eq]

/-- The first character behind a text and a newline stands below the beginning of the text. -/
theorem Position.next_after_start (text : List Char) :
    (start.after text).next '\n' = start.below (1 + text.count '\n') := by
  rw [after_start, behind, next, if_pos rfl, below, start, Nat.add_right_comm, Nat.add_assoc]

end

/-- A text and another below it are scanned to the tokens of the first and those of the other, moved down by the rows of
the first, or to the error of the other, moved down. An error in the first text is that of both, unless it is a comment
that is left open, which can be closed further down. -/
theorem scan_append_newline (first second : String) :
    (∀ tokens, scan first = .ok tokens →
      scan (first ++ "\n" ++ second) =
        (scannedBelow (1 + first.toList.count '\n') (scan second)).map (tokens ++ ·)) ∧
    ∀ e, scan first = .error e → (∀ start, e ≠ .unterminatedComment start) →
      scan (first ++ "\n" ++ second) = .error e := by
  have chars : (first ++ "\n" ++ second).toList = first.toList ++ '\n' :: second.toList := by
    rw [String.toList_append, String.toList_append, List.append_assoc]
    rfl
  constructor
  · intro tokens h
    rw [scan, chars, scanFrom_append_newline h, Position.next_after_start, ← tokens.toArray.append_empty, scanFrom_found,
      scanFrom_start_below]
  · intro e h he
    rw [scan, chars, scanFrom_append_newline_of_error h he]

/-- A comment that a text leaves open is closed below it. -/
example : scan "x /*" = .error (.unterminatedComment ⟨1, 3⟩) ∧ scan "x /*\n*/" = .ok [⟨.identifier "x", ⟨1, 1⟩⟩] := by
  decide +kernel

end JackCompiler
