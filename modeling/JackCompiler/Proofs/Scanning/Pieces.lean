import JackCompiler.Proofs.Scanning.Constants

/-!
# The pieces of a text

What may stand at the front of a text is said here without a scanner: a piece of layout, or a lexeme (`Layout`,
`Lexeme`). Both depend on what follows, since runs and comments go as far as they can. The scanner cuts off exactly these
pieces (`Front.Stands.cut`, `Front.stands_of_cut`), so a text begins with at most one of them (`Front.Stands.eq`).
-/

namespace JackCompiler

/-! ## Pieces -/

/-- A piece of layout in front of the rest of a text. -/
inductive Layout : List Char → List Char → Prop
  /-- A blank. -/
  | blank {c : Char} {rest : List Char} (hc : isBlank c = true) : Layout [c] rest
  /-- A comment up to the next newline, which is not part of it, or to the end of the text. -/
  | line {body rest : List Char} (hb : '\n' ∉ body) (hrest : ∀ d ∈ rest.head?, d = '\n') :
    Layout ('/' :: '/' :: body) rest
  /-- A comment through the first closing mark after its opening mark. -/
  | block {body rest : List Char} (hb : ¬['*', '/'] <:+: body ++ ['*']) :
    Layout ('/' :: '*' :: (body ++ ['*', '/'])) rest

/-- A lexeme in front of the rest of a text. -/
inductive Lexeme : List Char → List Char → Prop
  /-- A reserved word or an identifier, not followed by a character that would go on with it. -/
  | word {c : Char} {cs rest : List Char} (hc : isIdentifierStart c = true) (hcs : cs.all isIdentifierChar = true)
    (hrest : ∀ d ∈ rest.head?, isIdentifierChar d = false) : Lexeme (c :: cs) rest
  /-- A run of digits within the limit, not followed by another digit. -/
  | digits {c : Char} {cs rest : List Char} (hc : c.isDigit = true) (hcs : cs.all Char.isDigit = true)
    (hv : Decimal.value (c :: cs) ≤ maxConstant) (hrest : ∀ d ∈ rest.head?, d.isDigit = false) : Lexeme (c :: cs) rest
  /-- A symbol; a slash does not begin a comment. -/
  | symbol {c : Char} {rest : List Char} (hc : c ∈ symbolChars)
    (hrest : c = '/' → ∀ d ∈ rest.head?, d ≠ '/' ∧ d ≠ '*') : Lexeme [c] rest
  /-- A string constant within the limits. -/
  | string {body rest : List Char} (hb : body.all isStringChar = true) (hl : body.length ≤ maxConstant)
    (hc : ∀ c ∈ body, c.toNat ≤ maxConstant) : Lexeme ('"' :: (body ++ ['"'])) rest

/-- A front is what it says it is. -/
def Front.Stands : Front → Prop
  | ⟨true, taken, rest⟩ => Lexeme taken rest
  | ⟨false, taken, rest⟩ => Layout taken rest

theorem Lexeme.stands {lexeme rest : List Char} (h : Lexeme lexeme rest) : Front.Stands ⟨true, lexeme, rest⟩ := h

theorem Layout.stands {piece rest : List Char} (h : Layout piece rest) : Front.Stands ⟨false, piece, rest⟩ := h

/-! ## Characters -/

section

variable {c : Char}

/-- The code of a character that is tested to be between two others is between theirs. -/
theorem code_between (first last : Char)
    (h : (decide (first.val ≤ c.val) && decide (c.val ≤ last.val)) = true) :
    first.toNat ≤ c.toNat ∧ c.toNat ≤ last.toNat := by
  rw [Bool.and_eq_true, decide_eq_true_eq, decide_eq_true_eq] at h
  exact h

theorem code_of_isDigit (h : c.isDigit = true) : 48 ≤ c.toNat ∧ c.toNat ≤ 57 :=
  code_between '0' '9' h

theorem code_of_isIdentifierStart (h : isIdentifierStart c = true) :
    (65 ≤ c.toNat ∧ c.toNat ≤ 90) ∨ (97 ≤ c.toNat ∧ c.toNat ≤ 122) ∨ c.toNat = 95 := by
  rw [isIdentifierStart, Bool.or_eq_true, decide_eq_true_eq] at h
  rcases h with h | rfl
  · rcases (Bool.or_eq_true _ _).mp h with upper | lower
    · have between : 'A'.val ≤ c.val ∧ c.val ≤ 'Z'.val := of_decide_eq_true upper
      exact .inl between
    · exact .inr (.inl (code_between 'a' 'z' lower))
  · decide

theorem code_of_isIdentifierChar (h : isIdentifierChar c = true) : 48 ≤ c.toNat ∧ c.toNat ≤ 122 := by
  rw [isIdentifierChar, Bool.or_eq_true] at h
  rcases h with h | h
  · rcases (Bool.or_eq_true _ _).mp h with letter | digit
    · have start : isIdentifierStart c = true := by rw [isIdentifierStart, letter, Bool.true_or]
      have code := code_of_isIdentifierStart start
      omega
    · have code := code_of_isDigit digit
      omega
  · rw [of_decide_eq_true h]
    decide

/-- No visible ASCII character is blank. -/
theorem isBlank_eq_false (h : 32 < c.toNat) (h' : c.toNat < 127) : isBlank c = false := by
  simp only [isBlank, blankRanges, List.any_cons, List.any_nil, Bool.or_false, Bool.or_eq_false_iff,
    Bool.and_eq_false_iff, decide_eq_false_iff_not]
  omega

theorem isBlank_of_isDigit (h : c.isDigit = true) : isBlank c = false := by
  have code := code_of_isDigit h
  exact isBlank_eq_false (by omega) (by omega)

theorem isBlank_of_isIdentifierStart (h : isIdentifierStart c = true) : isBlank c = false := by
  have code := code_of_isIdentifierStart h
  exact isBlank_eq_false (by omega) (by omega)

theorem isDigit_of_isIdentifierStart (h : isIdentifierStart c = true) : c.isDigit = false := by
  rw [Bool.eq_false_iff]
  intro hd
  have start := code_of_isIdentifierStart h
  have digit := code_of_isDigit hd
  omega

/-- A digit or letter is not a character of lower code. -/
theorem ne_of_isDigit (h : c.isDigit = true) (d : Char) (hd : d.toNat < 48) : c ≠ d := by
  rintro rfl
  have code := code_of_isDigit h
  omega

theorem ne_of_isIdentifierStart (h : isIdentifierStart c = true) (d : Char) (hd : d.toNat < 65) : c ≠ d := by
  rintro rfl
  have code := code_of_isIdentifierStart h
  omega

/-- A symbol is of no other class. -/
theorem class_of_symbol (h : c ∈ symbolChars) :
    isBlank c = false ∧ c ≠ '"' ∧ c.isDigit = false ∧ isIdentifierStart c = false := by
  have all : symbolChars.all (fun c => !isBlank c && c ≠ '"' && !c.isDigit && !isIdentifierStart c) = true := by decide
  have own := List.all_eq_true.mp all c h
  simp only [Bool.and_eq_true, Bool.not_eq_true', decide_eq_true_eq] at own
  exact ⟨own.1.1.1, own.1.1.2, own.1.2, own.2⟩

end

/-! ## Classes of whole lexemes -/

section

variable {c : Char} {cs : List Char} {p : Position}

/-- A reserved word is a word. -/
theorem spelling_eq_cons (word : Keyword) :
    ∃ c cs, word.spelling.toList = c :: cs ∧ isIdentifierStart c = true ∧ cs.all isIdentifierChar = true := by
  cases word <;> exact ⟨_, _, rfl, by decide, by decide⟩

/-- A text that begins with another character is no reserved word. -/
theorem ofSpelling?_eq_none (hc : isIdentifierStart c = false) :
    Keyword.ofSpelling? (String.ofList (c :: cs)) = none := by
  rcases hw : Keyword.ofSpelling? (String.ofList (c :: cs)) with _ | word
  · rfl
  · have spelt : word.spelling = String.ofList (c :: cs) := by simpa using List.find?_some hw
    obtain ⟨d, ds, hl, hd, -⟩ := spelling_eq_cons word
    rw [spelt, String.toList_ofList] at hl
    cases hl
    rw [hc] at hd
    cases hd

/-- A text that begins with another character is no string constant. -/
theorem stringBody?_eq_none (hc : c ≠ '"') : stringBody? (c :: cs) = none := by
  unfold stringBody?
  split
  · next rest h =>
    cases h
    exact absurd rfl hc
  · rfl

/-- A word is a reserved word or an identifier. -/
theorem classify_word (hc : isIdentifierStart c = true) (hcs : cs.all isIdentifierChar = true) :
    classify (String.ofList (c :: cs)) p =
      .ok ((Keyword.ofSpelling? (String.ofList (c :: cs))).elim (.identifier (String.ofList (c :: cs))) .keyword) := by
  rcases hw : Keyword.ofSpelling? (String.ofList (c :: cs)) with _ | word
  · have notSymbol : symbolChars.contains c = false := by
      rw [Bool.eq_false_iff, ne_eq, List.contains_iff_mem]
      intro h
      have other := (class_of_symbol h).2.2.2
      rw [hc] at other
      cases other
    have notString : stringBody? (c :: cs) = none :=
      stringBody?_eq_none (ne_of_isIdentifierStart hc _ (by decide))
    rw [classify, hw, String.toList_ofList]
    simp only [notSymbol, Bool.and_false, Bool.false_eq_true, if_false, notString, hc, hcs, Bool.and_self, if_true]
    rfl
  · rw [classify, hw]
    rfl

theorem classify_symbol (hc : c ∈ symbolChars) : classify (String.ofList [c]) p = .ok (.symbol c) := by
  rw [classify, ofSpelling?_eq_none (class_of_symbol hc).2.2.2, String.toList_ofList]
  simp [hc]

theorem classify_string {body : List Char} (hb : body.all isStringChar = true) :
    classify (String.ofList ('"' :: (body ++ ['"']))) p = .ok (.string (String.ofList body)) := by
  have quoted : stringBody? ('"' :: (body ++ ['"'])) = some body := by simp [stringBody?, hb]
  have more : body ++ ['"'] ≠ [] := by simp
  rw [classify, ofSpelling?_eq_none (by decide), String.toList_ofList]
  simp only [more, decide_false, Bool.false_and, Bool.false_eq_true, if_false, quoted]

/-- A run of digits is an integer constant when its value is within the limit. -/
theorem classify_digits (hc : c.isDigit = true) (hcs : cs.all Char.isDigit = true) :
    classify (String.ofList (c :: cs)) p =
      if Decimal.value (c :: cs) ≤ maxConstant then .ok (.integer (Decimal.value (c :: cs)).toUInt16)
      else .error (.integerOutOfRange (String.ofList (c :: cs)) p) := by
  have notWord : isIdentifierStart c = false := by
    rw [Bool.eq_false_iff]
    intro h
    rw [isDigit_of_isIdentifierStart h] at hc
    cases hc
  have notSymbol : symbolChars.contains c = false := by
    rw [Bool.eq_false_iff, ne_eq, List.contains_iff_mem]
    intro h
    have other := (class_of_symbol h).2.2.1
    rw [hc] at other
    cases other
  have notString : stringBody? (c :: cs) = none := stringBody?_eq_none (ne_of_isDigit hc _ (by decide))
  rw [classify, ofSpelling?_eq_none notWord, String.toList_ofList]
  simp only [notSymbol, Bool.and_false, Bool.false_eq_true, if_false, notString, notWord, Bool.false_and,
    List.all_cons, hc, hcs, Bool.and_self, if_true]

/-- A character that begins no other class is a lexeme only if it is a symbol. -/
theorem mem_symbolChars_of_classify {kind : TokenKind} (hw : isIdentifierStart c = false) (hd : c.isDigit = false)
    (h : classify (String.ofList [c]) p = .ok kind) : c ∈ symbolChars := by
  have spelt := spelt_of_classify h
  rw [String.toList_ofList] at spelt
  generalize hl : [c] = lexeme at spelt
  cases spelt with
  | keyword word =>
    obtain ⟨d, ds, hs, hstart, -⟩ := spelling_eq_cons word
    rw [hs] at hl
    cases hl
    rw [hw] at hstart
    cases hstart
  | symbol hc =>
    cases hl
    exact hc
  | string hb => simp at hl
  | identifier hc =>
    cases hl
    rw [hw] at hc
    cases hc
  | integer hc =>
    cases hl
    rw [hd] at hc
    cases hc

end

/-- A lexeme is classified, wherever it stands. -/
theorem Lexeme.exists_kind {lexeme rest : List Char} (h : Lexeme lexeme rest) :
    ∃ kind, ∀ p, classify (String.ofList lexeme) p = .ok kind := by
  cases h with
  | word hc hcs => exact ⟨_, fun _ => classify_word hc hcs⟩
  | digits hc hcs hv => exact ⟨_, fun _ => (classify_digits hc hcs).trans (if_pos hv)⟩
  | symbol hc => exact ⟨_, fun _ => classify_symbol hc⟩
  | string hb => exact ⟨_, fun _ => classify_string hb⟩

/-! ## Runs, comments and quoted texts -/

section

variable {c : Char} {cs rest : List Char}

/-- A run goes up to a character that its class does not hold. -/
theorem run_append {isLexeme : Bool} {inClass : Char → Bool} (h : cs.all inClass = true)
    (hrest : ∀ d ∈ rest.head?, inClass d = false) :
    Front.run isLexeme c (cs ++ rest) inClass = ⟨isLexeme, c :: cs, rest⟩ := by
  rw [List.all_eq_true] at h
  rw [Front.run, List.takeWhile_append_of_pos h, List.dropWhile_append_of_pos h]
  cases rest with
  | nil => simp
  | cons d rest => simp [hrest d rfl]

/-- What is left after a run does not begin with a character of its class. -/
theorem head?_dropWhile_eq_false (inClass : Char → Bool) (cs : List Char) :
    ∀ d ∈ (cs.dropWhile inClass).head?, inClass d = false := by
  intro d hd
  have := List.head?_dropWhile_not inClass cs
  rw [Option.mem_def.mp hd] at this
  exact this

/-- A line comment goes up to the next newline. -/
theorem stands_run_line (cs : List Char) : (Front.run false '/' ('/' :: cs) (· ≠ '\n')).Stands := by
  have slash : decide ('/' ≠ '\n') = true := by decide
  rw [Front.run, List.takeWhile_cons, List.dropWhile_cons, if_pos slash, if_pos slash]
  refine Layout.line (fun h => ?_) fun d hd => ?_
  · simpa using List.all_eq_true.mp List.all_takeWhile _ h
  · simpa using head?_dropWhile_eq_false (fun d => decide (d ≠ '\n')) cs d hd

/-- A comment is closed at the first closing mark. -/
theorem closeComment_append {taken body : List Char} (hb : ¬['*', '/'] <:+: body ++ ['*']) :
    closeComment taken (body ++ '*' :: '/' :: rest) = some (taken.reverse ++ body ++ ['*', '/'], rest) := by
  induction body generalizing taken with
  | nil => simp [closeComment, List.reverseAux_eq]
  | cons c body ih =>
    have later : ¬['*', '/'] <:+: body ++ ['*'] := fun h => hb (h.trans (List.suffix_cons c _).isInfix)
    have goesOn : closeComment taken (c :: (body ++ '*' :: '/' :: rest)) =
        closeComment (c :: taken) (body ++ '*' :: '/' :: rest) := by
      rw [closeComment]
      -- a star right before a slash would be an earlier closing mark
      rintro others rfl hs
      apply hb
      cases body with
      | nil => cases hs
      | cons d body =>
        cases hs
        exact ⟨[], body ++ ['*'], rfl⟩
    rw [List.cons_append, goesOn, ih later]
    simp

/-- What closes a comment is the first closing mark. -/
theorem exists_body_of_closeComment {taken text inside : List Char}
    (h : closeComment taken text = some (inside, rest)) :
    ∃ body, inside = taken.reverse ++ body ++ ['*', '/'] ∧ text = body ++ '*' :: '/' :: rest ∧
      ¬['*', '/'] <:+: body ++ ['*'] := by
  fun_induction closeComment taken text with
  | case1 => cases h
  | case2 =>
    cases h
    exact ⟨[], by simp [List.reverseAux_eq], rfl, by decide⟩
  | case3 taken c text hne ih =>
    obtain ⟨body, hi, rfl, hb⟩ := ih h
    refine ⟨c :: body, by simp [hi], rfl, fun hin => ?_⟩
    rcases List.infix_cons_iff.mp hin with hp | hin
    · obtain ⟨others, ho⟩ := hp
      cases body with
      | nil => cases ho
      | cons d body =>
        cases ho
        exact hne _ rfl rfl
    · exact hb hin

/-- Reading passes the characters of a string constant that keep to the limits. -/
theorem closeString_pass {start p : Position} {count : Nat} {taken body text : List Char}
    (hb : body.all isStringChar = true) (hc : ∀ c ∈ body, c.toNat ≤ maxConstant)
    (hcount : count + body.length ≤ maxConstant) :
    closeString start p count taken (body ++ text) =
      closeString start (p.after body) (count + body.length) (body.reverse ++ taken) text := by
  induction body generalizing p count taken with
  | nil => rfl
  | cons c cs ih =>
    rw [List.all_cons, Bool.and_eq_true, isStringChar, Bool.and_eq_true, decide_eq_true_eq, decide_eq_true_eq] at hb
    rw [List.forall_mem_cons] at hc
    rw [List.length_cons] at hcount
    rw [List.cons_append, closeString, if_neg hb.1.1, if_neg hb.1.2, if_neg (Nat.not_lt.mpr hc.1), if_neg (by omega),
      ih hb.2 hc.2 (by omega), List.reverse_cons, List.append_assoc, List.singleton_append, List.length_cons,
      Position.after_cons, Nat.add_assoc, Nat.add_comm 1]

/-- A string constant within the limits is closed at its second quote. -/
theorem closeString_append {start p : Position} {count : Nat} {taken body : List Char}
    (hb : body.all isStringChar = true) (hc : ∀ c ∈ body, c.toNat ≤ maxConstant)
    (hcount : count + body.length ≤ maxConstant) :
    closeString start p count taken (body ++ '"' :: rest) = .ok (taken.reverse ++ body ++ ['"'], rest) := by
  rw [closeString_pass hb hc hcount, closeString, if_pos rfl, List.reverseAux_eq, List.reverse_append,
    List.reverse_reverse]

/-- What closes a string constant is the next quote, before any newline and within the limits on the length and on the
characters. -/
theorem exists_body_of_closeString {start p : Position} {count : Nat} {taken text inside : List Char}
    (h : closeString start p count taken text = .ok (inside, rest)) (hmax : count ≤ maxConstant) :
    ∃ body, inside = taken.reverse ++ body ++ ['"'] ∧ text = body ++ '"' :: rest ∧ body.all isStringChar = true ∧
      count + body.length ≤ maxConstant ∧ ∀ c ∈ body, c.toNat ≤ maxConstant := by
  induction text generalizing p count taken with
  | nil => cases h
  | cons c cs ih =>
    rw [closeString] at h
    split at h
    · next hq =>
      cases h
      exact ⟨[], by rw [List.reverseAux_eq, List.append_nil], by rw [hq]; rfl, rfl, hmax, List.forall_mem_nil _⟩
    · next hq =>
      split at h
      · cases h
      · next hn =>
        split at h
        · cases h
        · next hc =>
          split at h
          · cases h
          · next hlt =>
            obtain ⟨body, rfl, rfl, hb, hl, hcodes⟩ := ih h (Nat.lt_of_not_le hlt)
            refine ⟨c :: body, by simp, rfl, ?_, ?_, List.forall_mem_cons.mpr ⟨Nat.le_of_not_lt hc, hcodes⟩⟩
            · rw [List.all_cons, hb, Bool.and_true, isStringChar, Bool.and_eq_true, decide_eq_true_eq, decide_eq_true_eq]
              exact ⟨hq, hn⟩
            · rw [List.length_cons]
              omega

end

/-! ## Pieces are cut off -/

section

variable {p : Position} {c : Char} {cs rest : List Char}

theorem cut_blank (hc : isBlank c = true) : Front.cut p c cs = .ok ⟨false, [c], cs⟩ := by
  rw [Front.cut, if_pos hc]

theorem cut_line : Front.cut p '/' ('/' :: cs) = .ok (Front.run false '/' ('/' :: cs) (· ≠ '\n')) := rfl

theorem cut_block :
    Front.cut p '/' ('*' :: cs) =
      match closeComment [] cs with
      | some (inside, rest) => .ok ⟨false, '/' :: '*' :: inside, rest⟩
      | none => .error (.unterminatedComment p) := rfl

theorem cut_quote :
    Front.cut p '"' cs =
      match closeString p (p.next '"') 0 [] cs with
      | .ok (inside, rest) => .ok ⟨true, '"' :: inside, rest⟩
      | .error e => .error e := rfl

theorem cut_digit (hc : c.isDigit = true) : Front.cut p c cs = .ok (Front.run true c cs Char.isDigit) := by
  simp only [Front.cut, isBlank_of_isDigit hc, ne_of_isDigit hc '/' (by decide), ne_of_isDigit hc '"' (by decide), hc,
    decide_false, Bool.false_and, Bool.false_eq_true, if_false, if_true]

theorem cut_letter (hc : isIdentifierStart c = true) :
    Front.cut p c cs = .ok (Front.run true c cs isIdentifierChar) := by
  simp only [Front.cut, isBlank_of_isIdentifierStart hc, ne_of_isIdentifierStart hc '/' (by decide),
    ne_of_isIdentifierStart hc '"' (by decide), isDigit_of_isIdentifierStart hc, hc, decide_false, Bool.false_and,
    Bool.false_eq_true, if_false, if_true]

/-- A character that begins nothing longer is cut off alone. -/
theorem cut_other (blank : isBlank c = false) (line : c = '/' → cs.head? ≠ some '/')
    (block : c = '/' → cs.head? ≠ some '*') (quote : c ≠ '"') (digit : c.isDigit = false)
    (letter : isIdentifierStart c = false) : Front.cut p c cs = .ok ⟨true, [c], cs⟩ := by
  simp only [Front.cut, blank, quote, digit, letter, Bool.and_eq_true, decide_eq_true_eq, Bool.false_eq_true, if_false]
  rw [if_neg fun h => line h.1 h.2, if_neg fun h => block h.1 h.2]

theorem cut_symbol (hc : c ∈ symbolChars) (hcs : c = '/' → ∀ d ∈ cs.head?, d ≠ '/' ∧ d ≠ '*') :
    Front.cut p c cs = .ok ⟨true, [c], cs⟩ := by
  obtain ⟨blank, quote, digit, letter⟩ := class_of_symbol hc
  exact cut_other blank (fun h hd => (hcs h _ hd).1 rfl) (fun h hd => (hcs h _ hd).2 rfl) quote digit letter

end

/-- A piece is cut off the front of its text as a whole. -/
theorem Front.Stands.cut {front : Front} (h : front.Stands) :
    ∃ c cs, front.taken = c :: cs ∧ ∀ p, Front.cut p c (cs ++ front.rest) = .ok front := by
  obtain ⟨isLexeme, taken, rest⟩ := front
  cases isLexeme with
  | true =>
    change Lexeme taken rest at h
    cases h with
    | word hc hcs hrest => exact ⟨_, _, rfl, fun p => by rw [cut_letter hc, run_append hcs hrest]⟩
    | digits hc hcs hv hrest => exact ⟨_, _, rfl, fun p => by rw [cut_digit hc, run_append hcs hrest]⟩
    | symbol hc hrest => exact ⟨_, [], rfl, fun p => cut_symbol hc hrest⟩
    | @string body _ hb hl hc =>
      refine ⟨_, _, rfl, fun p => ?_⟩
      rw [List.append_assoc, List.singleton_append, cut_quote, closeString_append hb hc (by omega)]
      rfl
  | false =>
    change Layout taken rest at h
    cases h with
    | blank hc => exact ⟨_, [], rfl, fun p => cut_blank hc⟩
    | @line body _ hb hrest =>
      refine ⟨_, _, rfl, fun p => ?_⟩
      rw [List.cons_append, cut_line, ← List.cons_append, run_append]
      · simp only [List.all_cons, List.all_eq_true, Bool.and_eq_true, decide_eq_true_eq]
        refine ⟨by decide, fun d hd => ?_⟩
        rintro rfl
        exact hb hd
      · intro d hd
        simp [hrest d hd]
    | @block body _ hb =>
      refine ⟨_, _, rfl, fun p => ?_⟩
      rw [List.cons_append, List.append_assoc, List.cons_append, List.singleton_append, cut_block,
        closeComment_append hb]
      rfl

/-- What is cut off the front of a text is a piece of layout, or a lexeme if it can be classified. -/
theorem Front.stands_of_cut {p : Position} {c : Char} {cs : List Char} {front : Front}
    (h : Front.cut p c cs = .ok front)
    (hk : front.isLexeme = true → ∃ kind, classify (String.ofList front.taken) p = .ok kind) : front.Stands := by
  by_cases blank : isBlank c = true
  · rw [cut_blank blank] at h
    cases h
    exact Layout.blank blank
  by_cases line : c = '/' ∧ cs.head? = some '/'
  · obtain ⟨rfl, hcs⟩ := line
    obtain ⟨cs, rfl⟩ := List.head?_eq_some_iff.mp hcs
    rw [cut_line] at h
    cases h
    exact stands_run_line cs
  by_cases block : c = '/' ∧ cs.head? = some '*'
  · obtain ⟨rfl, hcs⟩ := block
    obtain ⟨cs, rfl⟩ := List.head?_eq_some_iff.mp hcs
    rw [cut_block] at h
    split at h
    · next inside rest hclose =>
      cases h
      obtain ⟨body, rfl, -, hb⟩ := exists_body_of_closeComment hclose
      exact Layout.block hb
    · cases h
  by_cases quote : c = '"'
  · subst quote
    rw [cut_quote] at h
    split at h
    · next inside rest hclose =>
      cases h
      obtain ⟨body, rfl, -, hb, hl, hcodes⟩ := exists_body_of_closeString hclose (Nat.zero_le _)
      exact Lexeme.string hb (by simpa using hl) hcodes
    · cases h
  by_cases digit : c.isDigit = true
  · rw [cut_digit digit] at h
    cases h
    obtain ⟨kind, hk⟩ := hk rfl
    have digits : (cs.takeWhile Char.isDigit).all Char.isDigit = true := List.all_takeWhile
    rw [Front.run, classify_digits digit digits] at hk
    split at hk
    · next hv => exact Lexeme.digits digit digits hv (head?_dropWhile_eq_false _ cs)
    · cases hk
  by_cases letter : isIdentifierStart c = true
  · rw [cut_letter letter] at h
    cases h
    exact Lexeme.word letter List.all_takeWhile (head?_dropWhile_eq_false _ cs)
  simp only [Bool.not_eq_true] at blank digit letter
  rw [not_and] at line block
  rw [cut_other blank line block quote digit letter] at h
  cases h
  obtain ⟨kind, hk⟩ := hk rfl
  refine Lexeme.symbol (mem_symbolChars_of_classify letter digit hk) fun hc d hd => ⟨?_, ?_⟩
  · rintro rfl
    exact line hc hd
  · rintro rfl
    exact block hc hd

/-- A text begins with at most one piece. -/
theorem Front.Stands.eq {f g : Front} (hf : f.Stands) (hg : g.Stands)
    (h : f.taken ++ f.rest = g.taken ++ g.rest) : f = g := by
  obtain ⟨c, cs, htf, hcf⟩ := hf.cut
  obtain ⟨d, ds, htg, hcg⟩ := hg.cut
  rw [htf, htg, List.cons_append, List.cons_append, List.cons.injEq] at h
  have cutf := hcf .start
  rw [h.1, h.2, hcg .start] at cutf
  exact (Except.ok.inj cutf).symm

end JackCompiler
