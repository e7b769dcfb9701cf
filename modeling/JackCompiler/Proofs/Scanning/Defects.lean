import JackCompiler.Proofs.Scanning.Decomposition

/-!
# The first defect of a text

Pieces are cut off the front of a text as long as there is one. Where this halts before the end of the text, the rest has a
defect: a comment that is never closed, a string constant that breaks off, a number that is too large, or a character that
begins nothing (`Defect`). A defect is said by the characters alone and makes scanning fail with its error
(`Defect.scanFrom_eq`), a rest that no piece can be cut off has one (`Stuck.exists_defect`), and a text halts at one place
only (`Halt.Of.eq`). Main statement: scanning fails exactly at the place where a text halts, with the error of the one
defect that stands there (`scan_reports_first_defect`).
-/

namespace JackCompiler

/-! ## Where a text halts -/

/-- Pieces one after another in front of the rest of a text, each a piece of layout or a lexeme. -/
inductive Pieces : List Char → List Char → Prop
  | nil {rest : List Char} : Pieces [] rest
  | cons {isLexeme : Bool} {piece others rest : List Char} (hp : Front.Stands ⟨isLexeme, piece, others ++ rest⟩)
    (h : Pieces others rest) : Pieces (piece ++ others) rest

/-- A text begins with no piece of layout and with no lexeme. -/
def Stuck (text : List Char) : Prop :=
  ∀ front : Front, front.Stands → text ≠ front.taken ++ front.rest

/-- A text in two: what is cut into pieces, and the rest. -/
@[ext] structure Halt where
  before : List Char
  rest : List Char

/-- A text is cut into pieces up to a place where no piece can be cut off. -/
structure Halt.Of (halt : Halt) (text : List Char) : Prop where
  text_eq : halt.before ++ halt.rest = text
  pieces : Pieces halt.before halt.rest
  stuck : Stuck halt.rest

/-! ## Defects -/

/-- What ends the reading of a string constant before its closing quote. The constant begins at `start`; `count` of its
characters were read, and the text stands behind them, at `p`. -/
inductive BreaksOff (start p : Position) (count : Nat) : List Char → LexError → Prop
  /-- The next character is out of range. -/
  | outOfRange {c : Char} {rest : List Char} (hc : maxConstant < c.toNat) :
    BreaksOff start p count (c :: rest) (.stringCharOutOfRange c p)
  /-- The next character is one more than a constant holds. -/
  | tooLong {c : Char} {rest : List Char} (hs : isStringChar c = true) (hc : c.toNat ≤ maxConstant)
    (hcount : count = maxConstant) : BreaksOff start p count (c :: rest) (.stringTooLong start)
  /-- The line or the text ends. -/
  | unterminated {rest : List Char} (hrest : ∀ c ∈ rest.head?, c = '\n') :
    BreaksOff start p count rest (.unterminatedString start)

/-- The defect at the front of a text that stands at a position, with its error. -/
inductive Defect (p : Position) : List Char → LexError → Prop
  /-- A comment that is never closed. -/
  | comment {inside : List Char} (h : ¬['*', '/'] <:+: inside) :
    Defect p ('/' :: '*' :: inside) (.unterminatedComment p)
  /-- A string constant that breaks off behind characters that keep to the limits. -/
  | string {body rest : List Char} {e : LexError} (hb : body.all isStringChar = true)
    (hc : ∀ c ∈ body, c.toNat ≤ maxConstant) (hl : body.length ≤ maxConstant)
    (he : BreaksOff p (p.after ('"' :: body)) body.length rest e) : Defect p ('"' :: (body ++ rest)) e
  /-- A whole run of digits whose value is above the limit. -/
  | integer {c : Char} {cs rest : List Char} (hc : c.isDigit = true) (hcs : cs.all Char.isDigit = true)
    (hrest : ∀ d ∈ rest.head?, d.isDigit = false) (hv : maxConstant < Decimal.value (c :: cs)) :
    Defect p (c :: cs ++ rest) (.integerOutOfRange (String.ofList (c :: cs)) p)
  /-- A character that begins no piece. -/
  | char {c : Char} {rest : List Char} (hb : isBlank c = false) (hs : c ∉ symbolChars) (hq : c ≠ '"')
    (hd : c.isDigit = false) (hw : isIdentifierStart c = false) : Defect p (c :: rest) (.unexpectedChar c p)

/-! ## A defect makes scanning fail -/

section

variable {start p : Position} {count : Nat} {taken body text rest inside : List Char} {e : LexError}

/-- A comment without a closing mark is not closed. -/
theorem closeComment_eq_none (h : ¬['*', '/'] <:+: inside) : closeComment taken inside = none := by
  rcases hclose : closeComment taken inside with _ | ⟨others, rest⟩
  · rfl
  · obtain ⟨body, -, rfl, -⟩ := exists_body_of_closeComment hclose
    exact absurd ⟨body, rest, by simp⟩ h

/-- A comment that is not closed has no closing mark. -/
theorem not_infix_of_closeComment (h : closeComment taken inside = none) : ¬['*', '/'] <:+: inside := by
  fun_induction closeComment taken inside with
  | case1 => decide
  | case2 => cases h
  | case3 taken c text hne ih =>
    intro hin
    rcases List.infix_cons_iff.mp hin with ⟨others, ho⟩ | hin
    · cases ho
      exact hne _ rfl rfl
    · exact ih h hin

/-- Reading a string constant fails where it breaks off. -/
theorem BreaksOff.closeString_eq (he : BreaksOff start p count text e) : closeString start p count taken text = .error e := by
  cases he with
  | @outOfRange c rest hc =>
    have quote : c ≠ '"' := by
      rintro rfl
      exact absurd hc (by decide)
    have newline : c ≠ '\n' := by
      rintro rfl
      exact absurd hc (by decide)
    rw [closeString, if_neg quote, if_neg newline, if_pos hc]
  | tooLong hs hc hcount =>
    rw [isStringChar, Bool.and_eq_true, decide_eq_true_eq, decide_eq_true_eq] at hs
    rw [closeString, if_neg hs.1, if_neg hs.2, if_neg (Nat.not_lt.mpr hc), if_pos (Nat.le_of_eq hcount.symm)]
  | unterminated hrest =>
    cases text with
    | nil => rfl
    | cons c rest =>
      obtain rfl : c = '\n' := hrest c rfl
      rfl

/-- What reading a string constant fails at: it breaks off behind characters that keep to the limits. -/
theorem exists_breaksOff_of_closeString (h : closeString start p count taken text = .error e)
    (hmax : count ≤ maxConstant) :
    ∃ body rest, text = body ++ rest ∧ body.all isStringChar = true ∧ (∀ c ∈ body, c.toNat ≤ maxConstant) ∧
      count + body.length ≤ maxConstant ∧ BreaksOff start (p.after body) (count + body.length) rest e := by
  induction text generalizing p count taken with
  | nil =>
    cases h
    exact ⟨[], [], rfl, rfl, List.forall_mem_nil _, hmax, .unterminated (by simp)⟩
  | cons c cs ih =>
    rw [closeString] at h
    split at h
    · cases h
    next quote =>
    split at h
    · next newline =>
      cases h
      exact ⟨[], c :: cs, rfl, rfl, List.forall_mem_nil _, hmax, .unterminated (by simpa using newline)⟩
    next newline =>
    have plain : isStringChar c = true := by
      rw [isStringChar, Bool.and_eq_true, decide_eq_true_eq, decide_eq_true_eq]
      exact ⟨quote, newline⟩
    split at h
    · next large =>
      cases h
      exact ⟨[], c :: cs, rfl, rfl, List.forall_mem_nil _, hmax, .outOfRange large⟩
    next large =>
    have small : c.toNat ≤ maxConstant := Nat.le_of_not_lt large
    split at h
    · next full =>
      cases h
      exact ⟨[], c :: cs, rfl, rfl, List.forall_mem_nil _, hmax, .tooLong plain small (Nat.le_antisymm hmax full)⟩
    next room =>
    obtain ⟨body, rest, rfl, hb, hc, hl, he⟩ := ih h (Nat.lt_of_not_le room)
    have longer : count + (c :: body).length = count + 1 + body.length := by
      rw [List.length_cons]
      omega
    refine ⟨c :: body, rest, rfl, by rw [List.all_cons, plain, hb]; rfl, List.forall_mem_cons.mpr ⟨small, hc⟩, ?_, ?_⟩
    · rw [longer]
      exact hl
    · rw [longer]
      exact he

/-- A character that begins no piece is of no kind. -/
theorem classify_unexpected {c : Char} (hs : c ∉ symbolChars) (hq : c ≠ '"') (hd : c.isDigit = false)
    (hw : isIdentifierStart c = false) : classify (String.ofList [c]) p = .error (.unexpectedChar c p) := by
  have notSymbol : symbolChars.contains c = false := by
    rw [Bool.eq_false_iff, ne_eq, List.contains_iff_mem]
    exact hs
  rw [classify, ofSpelling?_eq_none hw, String.toList_ofList]
  simp only [notSymbol, Bool.and_false, Bool.false_eq_true, if_false, stringBody?_eq_none hq, hw, Bool.false_and,
    List.all_cons, hd]

/-- Nothing can be cut off at a defect, or nothing that can be classified. -/
theorem Defect.cut (h : Defect p text e) :
    ∃ c cs, text = c :: cs ∧ (Front.cut p c cs = .error e ∨
      ∃ front, Front.cut p c cs = .ok front ∧ front.isLexeme = true ∧
        classify (String.ofList front.taken) p = .error e) := by
  cases h with
  | comment h =>
    refine ⟨_, _, rfl, .inl ?_⟩
    rw [cut_block, closeComment_eq_none h]
  | string hb hc hl he =>
    refine ⟨_, _, rfl, .inl ?_⟩
    rw [Position.after_cons] at he
    rw [cut_quote, closeString_pass hb hc (by omega), Nat.zero_add, he.closeString_eq]
  | @integer c cs rest hc hcs hrest hv =>
    refine ⟨c, cs ++ rest, rfl, .inr ⟨_, (cut_digit hc).trans (congrArg Except.ok (run_append hcs hrest)), rfl, ?_⟩⟩
    rw [classify_digits hc hcs, if_neg (Nat.not_le.mpr hv)]
  | @char c rest hb hs hq hd hw =>
    have slash : c ≠ '/' := by
      rintro rfl
      exact hs (by decide)
    have alone : Front.cut p c rest = _ := cut_other hb (fun h => absurd h slash) (fun h => absurd h slash) hq hd hw
    exact ⟨c, rest, rfl, .inr ⟨_, alone, rfl, classify_unexpected hs hq hd hw⟩⟩

/-- Scanning fails at a defect. -/
theorem Defect.scanFrom_eq {found : Array Token} (h : Defect p text e) : scanFrom p text found = .error e := by
  obtain ⟨c, cs, rfl, failed | ⟨front, hcut, hl, failed⟩⟩ := h.cut
  · exact scanFrom_of_error failed
  · exact scanFrom_of_unclassified hcut hl failed

/-- No piece stands where a defect does. -/
theorem Defect.stuck (h : Defect p text e) : Stuck text := by
  rintro ⟨isLexeme, taken, rest⟩ stands rfl
  obtain ⟨c, cs, htaken, hcut⟩ := stands.cut
  obtain ⟨d, ds, htext, defective⟩ := h.cut
  dsimp only at htaken hcut htext
  rw [htaken, List.cons_append, List.cons.injEq] at htext
  rw [← htext.1, ← htext.2, hcut p] at defective
  rcases defective with failed | ⟨front, same, hl, failed⟩
  · cases failed
  · cases same
    obtain rfl : isLexeme = true := hl
    obtain ⟨kind, hk⟩ := Lexeme.exists_kind stands
    rw [hk p] at failed
    cases failed

end

/-! ## A rest without a piece has a defect -/

section

variable {p : Position} {c : Char} {cs text : List Char}

/-- What is cut off where there is no piece is a lexeme of no kind. -/
theorem Stuck.unclassified (h : Stuck (c :: cs)) {front : Front} (hcut : Front.cut p c cs = .ok front) :
    front.isLexeme = true ∧ ∀ kind, classify (String.ofList front.taken) p ≠ .ok kind := by
  have whole := (Front.taken_append_rest hcut).symm
  refine ⟨?_, fun kind hk => h front (Front.stands_of_cut hcut fun _ => ⟨kind, hk⟩) whole⟩
  rw [← Bool.not_eq_false]
  intro layout
  refine h front (Front.stands_of_cut hcut fun lexeme => ?_) whole
  rw [layout] at lexeme
  cases lexeme

/-- Where no piece can be cut off before the end of a text, there is a defect. -/
theorem Stuck.exists_defect (h : Stuck text) (hne : text ≠ []) (p : Position) : ∃ e, Defect p text e := by
  obtain ⟨c, cs, rfl⟩ := List.exists_cons_of_ne_nil hne
  -- the cases are those of the scanner; a front that it cuts off would be a piece
  by_cases blank : isBlank c = true
  · cases (h.unclassified (p := p) (cut_blank blank)).1
  by_cases line : c = '/' ∧ cs.head? = some '/'
  · obtain ⟨rfl, hcs⟩ := line
    obtain ⟨cs, rfl⟩ := List.head?_eq_some_iff.mp hcs
    cases (h.unclassified (p := p) cut_line).1
  by_cases block : c = '/' ∧ cs.head? = some '*'
  · obtain ⟨rfl, hcs⟩ := block
    obtain ⟨cs, rfl⟩ := List.head?_eq_some_iff.mp hcs
    rcases hclose : closeComment [] cs with _ | ⟨inside, rest⟩
    · exact ⟨_, .comment (not_infix_of_closeComment hclose)⟩
    · cases (h.unclassified (p := p) (by rw [cut_block, hclose])).1
  by_cases quote : c = '"'
  · subst quote
    rcases hclose : closeString p (p.next '"') 0 [] cs with e | ⟨inside, rest⟩
    · obtain ⟨body, rest, rfl, hb, hc, hl, he⟩ := exists_breaksOff_of_closeString hclose (Nat.zero_le _)
      rw [Nat.zero_add] at hl he
      exact ⟨e, .string hb hc hl he⟩
    · obtain ⟨body, rfl, -, hb, -, -⟩ := exists_body_of_closeString hclose (Nat.zero_le _)
      exact absurd (classify_string hb) ((h.unclassified (p := p) (by rw [cut_quote, hclose])).2 _)
  by_cases digit : c.isDigit = true
  · have digits : (cs.takeWhile Char.isDigit).all Char.isDigit = true := List.all_takeWhile
    have found := (h.unclassified (p := p) (cut_digit digit)).2
    rw [Front.run, classify_digits digit digits] at found
    split at found
    · exact absurd rfl (found _)
    next large =>
    have defect := Defect.integer (p := p) digit digits (head?_dropWhile_eq_false _ cs) (Nat.lt_of_not_le large)
    rw [List.cons_append, List.takeWhile_append_dropWhile] at defect
    exact ⟨_, defect⟩
  by_cases letter : isIdentifierStart c = true
  · have found := (h.unclassified (p := p) (cut_letter letter)).2
    rw [Front.run, classify_word letter List.all_takeWhile] at found
    exact absurd rfl (found _)
  simp only [Bool.not_eq_true] at blank digit letter
  rw [not_and] at line block
  have found := (h.unclassified (p := p) (cut_other blank line block quote digit letter)).2
  exact ⟨_, .char blank (fun symbol => found _ (classify_symbol symbol)) quote digit letter⟩

end

/-! ## There is one place where a text halts -/

section

variable {before before' rest rest' text : List Char}

/-- Scanning passes pieces. -/
theorem Pieces.scanFrom_append (h : Pieces before rest) (p : Position) (found : Array Token) :
    ∃ more, scanFrom p (before ++ rest) found = scanFrom (p.after before) rest more := by
  induction h generalizing p found with
  | nil => exact ⟨found, rfl⟩
  | @cons isLexeme piece others rest hp _ ih =>
    rw [List.append_assoc, Position.after_append]
    cases isLexeme with
    | true =>
      have lexeme : Lexeme piece (others ++ rest) := hp
      obtain ⟨kind, hk⟩ := lexeme.exists_kind
      rw [lexeme.scanFrom_append (hk p)]
      exact ih _ _
    | false =>
      have layout : Layout piece (others ++ rest) := hp
      rw [layout.scanFrom_append]
      exact ih _ _

/-- Pieces go on as far as they can, so where they end is determined by the text. -/
theorem Pieces.eq (h : Pieces before rest) (h' : Pieces before' rest') (hs : Stuck rest) (hs' : Stuck rest')
    (ht : before ++ rest = before' ++ rest') : before = before' ∧ rest = rest' := by
  induction h generalizing before' with
  | nil =>
    cases h' with
    | nil => exact ⟨rfl, ht⟩
    | cons hp' _ =>
      rw [List.nil_append, List.append_assoc] at ht
      exact absurd ht (hs _ hp')
  | cons hp _ ih =>
    cases h' with
    | nil =>
      rw [List.nil_append, List.append_assoc] at ht
      exact absurd ht.symm (hs' _ hp)
    | cons hp' h' =>
      rw [List.append_assoc, List.append_assoc] at ht
      have fronts := hp.eq hp' ht
      rw [Front.mk.injEq] at fronts
      obtain ⟨-, rfl, others⟩ := fronts
      obtain ⟨rfl, rest_eq⟩ := ih h' hs others
      exact ⟨rfl, rest_eq⟩

theorem Halt.Of.eq {halt halt' : Halt} (h : halt.Of text) (h' : halt'.Of text) : halt = halt' := by
  obtain ⟨before_eq, rest_eq⟩ := h.pieces.eq h'.pieces h.stuck h'.stuck (h.text_eq.trans h'.text_eq.symm)
  exact Halt.ext before_eq rest_eq

theorem Front.Stands.taken_ne_nil {front : Front} (h : front.Stands) : front.taken ≠ [] := by
  obtain ⟨c, cs, taken, -⟩ := h.cut
  rw [taken]
  exact List.cons_ne_nil c cs

/-- Every text halts: cutting off a piece leaves a shorter text. -/
theorem exists_halt (text : List Char) : ∃ halt : Halt, halt.Of text := by
  induction hn : text.length using Nat.strongRecOn generalizing text with
  | ind n ih =>
    by_cases stuck : Stuck text
    · exact ⟨⟨[], text⟩, rfl, .nil, stuck⟩
    · simp only [Stuck, not_forall, not_not] at stuck
      obtain ⟨⟨isLexeme, piece, rest⟩, stands, rfl⟩ := stuck
      have shorter : rest.length < n := by
        have piece_pos := List.length_pos_iff.mpr stands.taken_ne_nil
        rw [List.length_append] at hn
        dsimp only at hn piece_pos
        omega
      obtain ⟨halt, text_eq, pieces, stuck⟩ := ih _ shorter rest rfl
      subst text_eq
      exact ⟨⟨piece ++ halt.before, halt.rest⟩, List.append_assoc .., .cons stands pieces, stuck⟩

end

/-! ## Scanning and the place where a text halts -/

section

variable {text : String} {halt : Halt}

/-- Scanning comes to the place where a text halts. -/
theorem Halt.Of.exists_scan_eq (h : halt.Of text.toList) :
    ∃ found, scan text = scanFrom (.behind halt.before) halt.rest found := by
  rw [scan, ← h.text_eq, ← Position.after_start]
  exact h.pieces.scanFrom_append .start #[]

/-- The defect at the place where a text halts is what scanning reports. -/
theorem Defect.scan_eq {e : LexError} (hd : Defect (.behind halt.before) halt.rest e) (h : halt.Of text.toList) :
    scan text = .error e := by
  obtain ⟨found, scan_eq⟩ := h.exists_scan_eq
  rw [scan_eq, hd.scanFrom_eq]

/-- A text that halts at its end is scanned. -/
theorem Halt.Of.exists_tokens (h : halt.Of text.toList) (hr : halt.rest = []) : ∃ tokens, scan text = .ok tokens := by
  obtain ⟨found, scan_eq⟩ := h.exists_scan_eq
  rw [hr, scanFrom_nil] at scan_eq
  exact ⟨_, scan_eq⟩

end

/-- A text halts at one place. It is scanned when that place is its end. If not, one defect stands there, and scanning
fails with the error of this defect and no other. -/
theorem scan_reports_first_defect (text : String) :
    (∃! halt : Halt, halt.Of text.toList) ∧
      ∀ halt : Halt, halt.Of text.toList →
        (halt.rest = [] ↔ ∃ tokens, scan text = .ok tokens) ∧
        (halt.rest ≠ [] → ∃! e, Defect (.behind halt.before) halt.rest e) ∧
        ∀ e, scan text = .error e ↔ Defect (.behind halt.before) halt.rest e := by
  obtain ⟨halt, h⟩ := exists_halt text.toList
  refine ⟨⟨halt, h, fun other ho => ho.eq h⟩, fun halt h => ?_⟩
  have defects (hr : halt.rest ≠ []) : ∃ e, Defect (.behind halt.before) halt.rest e ∧ scan text = .error e := by
    obtain ⟨e, hd⟩ := h.stuck.exists_defect hr (.behind halt.before)
    exact ⟨e, hd, hd.scan_eq h⟩
  refine ⟨⟨h.exists_tokens, fun ⟨tokens, hscan⟩ => ?_⟩, fun hr => ?_, fun e => ⟨fun hscan => ?_, fun hd => hd.scan_eq h⟩⟩
  · by_contra hr
    obtain ⟨e, -, failed⟩ := defects hr
    rw [hscan] at failed
    cases failed
  · obtain ⟨e, hd, failed⟩ := defects hr
    refine ⟨e, hd, fun other ho => ?_⟩
    rw [ho.scan_eq h] at failed
    exact Except.error.inj failed
  · have hr : halt.rest ≠ [] := by
      intro hr
      obtain ⟨tokens, scanned⟩ := h.exists_tokens hr
      rw [hscan] at scanned
      cases scanned
    obtain ⟨e', hd, failed⟩ := defects hr
    rw [hscan] at failed
    cases failed
    exact hd

/-- A piece of layout and a word, a comment with a quote in it, and a string constant with an opening mark in it that the
text ends in. -/
def sampleHalt : Halt :=
  ⟨" x/*\"*/\n".toList, "\"/*".toList⟩

theorem sampleHalt_pieces (rest : List Char) : Pieces sampleHalt.before rest := by
  have block (rest : List Char) : Layout ("/*\"*/".toList) rest := by
    change Layout ('/' :: '*' :: (['"'] ++ ['*', '/'])) rest
    exact .block (by decide)
  have word (rest : List Char) : Lexeme ['x'] ('/' :: rest) :=
    .word (by decide) (by decide) (by rintro _ ⟨⟩; decide)
  exact .cons (Layout.blank (by decide)).stands (.cons (word _).stands
    (.cons (block _).stands (.cons (Layout.blank (by decide)).stands .nil)))

theorem sampleHalt_defect : Defect ⟨2, 1⟩ sampleHalt.rest (.unterminatedString ⟨2, 1⟩) := by
  have codes : ['/', '*'].all (fun c => c.toNat ≤ maxConstant) = true := by decide
  have text : sampleHalt.rest = '"' :: (['/', '*'] ++ []) := rfl
  rw [text]
  exact .string (by decide) (by simpa using codes) (by decide) (.unterminated (by simp))

/-- A string constant of as many characters as one holds, without its closing quote, and what follows. -/
def fullString (rest : List Char) : List Char :=
  '"' :: (List.replicate maxConstant 'a' ++ rest)

theorem fullString_defect {rest : List Char} {e : LexError}
    (he : BreaksOff ⟨1, 1⟩ (Position.start.after ('"' :: List.replicate maxConstant 'a')) maxConstant rest e) :
    Defect ⟨1, 1⟩ (fullString rest) e := by
  have length : (List.replicate maxConstant 'a').length = maxConstant := List.length_replicate
  refine .string ?_ ?_ (Nat.le_of_eq length) (by rw [length]; exact he)
  · rw [List.all_eq_true]
    intro c hc
    rw [List.eq_of_mem_replicate hc]
    decide
  · intro c hc
    rw [List.eq_of_mem_replicate hc]
    decide

/-- Characters that are no newlines stand in one row. -/
theorem Position.after_of_notMem {cs : List Char} (h : '\n' ∉ cs) (p : Position) :
    p.after cs = ⟨p.row, p.col + cs.length⟩ := by
  induction cs generalizing p with
  | nil => rfl
  | cons c cs ih =>
    rw [List.mem_cons, not_or] at h
    rw [after_cons, ih h.2, next, if_neg (Ne.symm h.1), List.length_cons, Nat.add_assoc, Nat.add_comm 1]

theorem Position.after_replicate {c : Char} (hc : c ≠ '\n') (p : Position) (n : Nat) :
    p.after (List.replicate n c) = ⟨p.row, p.col + n⟩ := by
  rw [after_of_notMem fun h => hc (List.eq_of_mem_replicate h).symm, List.length_replicate]

/-- A text breaks off in a string constant on its second line. Behind as many characters as a constant holds, the next
one decides: out of range, one too many, or the end of the line. -/
theorem scan_reports_first_defect_samples :
    (sampleHalt.Of (sampleHalt.before ++ sampleHalt.rest) ∧
      scan (String.ofList (sampleHalt.before ++ sampleHalt.rest)) = .error (.unterminatedString ⟨2, 1⟩)) ∧
    scan (String.ofList (fullString ['\u8000', '"'])) = .error (.stringCharOutOfRange '\u8000' ⟨1, 32769⟩) ∧
    scan (String.ofList (fullString ['a', '"'])) = .error (.stringTooLong ⟨1, 1⟩) ∧
    scan (String.ofList (fullString ['\n', '"'])) = .error (.unterminatedString ⟨1, 1⟩) := by
  have sample : sampleHalt.Of (sampleHalt.before ++ sampleHalt.rest) :=
    ⟨rfl, sampleHalt_pieces _, sampleHalt_defect.stuck⟩
  have full {rest : List Char} {e : LexError} (hd : Defect ⟨1, 1⟩ (fullString rest) e) :
      scan (String.ofList (fullString rest)) = .error e := by
    have halt : (Halt.mk [] (fullString rest)).Of (String.ofList (fullString rest)).toList :=
      ⟨String.toList_ofList.symm, .nil, hd.stuck⟩
    exact (((scan_reports_first_defect _).2 _ halt).2.2 e).mpr hd
  have column : Position.start.after ('"' :: List.replicate maxConstant 'a') = ⟨1, 32769⟩ := by
    rw [Position.after_cons, Position.after_replicate (by decide)]
    rfl
  refine ⟨⟨sample, ?_⟩, full (fullString_defect ?_), full (fullString_defect ?_), full (fullString_defect ?_)⟩
  · rw [← String.toList_ofList (l := sampleHalt.before ++ sampleHalt.rest)] at sample
    exact (((scan_reports_first_defect _).2 _ sample).2.2 _).mpr sampleHalt_defect
  · rw [column]
    exact .outOfRange (by decide)
  · exact .tooLong (by decide) (by decide) rfl
  · exact .unterminated (by rintro _ ⟨⟩; rfl)

end JackCompiler
