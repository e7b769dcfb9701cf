import JackCompiler.Proofs.Scanning.Defects
import JackCompiler.Proofs.Scanning.RoundTrip

/-!
# Single lexemes

A lexeme is read twice, character by character while it is cut off a text, and as a whole while it is classified, and the
two have to agree on every text. A text that is classified stands as a lexeme of its own (`lexeme_of_classify`), unless it
is a string constant that breaks a limit, which only the scanner knows (`Oversteps`). Spelling a token again gives back its
text, but for zeros in front of a number (`lexeme_eq_of_classify`). Main statement: what is classified is scanned as this
one token, and a text that is scanned as one token and nothing else is classified as this token
(`classify_agrees_with_scan`).
-/

namespace JackCompiler

/-- A run of more than one digit that begins with a zero. -/
def Decimal.leadsWithZero (text : List Char) : Bool :=
  isRun text && text.head? = some '0' && text.length ≠ 1

/-- A string constant that breaks a limit: it is too long, or a character in it has too large a code. -/
def TokenKind.Oversized : TokenKind → Prop
  | .string body => maxConstant < body.length ∨ ∃ c ∈ body.toList, maxConstant < c.toNat
  | _ => False

/-- How the body of a string constant at the beginning of a text breaks the limits first, with the error. -/
inductive Oversteps : List Char → LexError → Prop
  /-- A character is out of range, and no more are in front of it than a constant holds. -/
  | outOfRange {fit others : List Char} {c : Char} (hfit : ∀ d ∈ fit, d.toNat ≤ maxConstant)
    (hl : fit.length ≤ maxConstant) (hc : maxConstant < c.toNat) :
    Oversteps (fit ++ c :: others) (.stringCharOutOfRange c ⟨1, 2 + fit.length⟩)
  /-- As many characters as a constant holds and one more are in range. -/
  | tooLong {fit others : List Char} {c : Char} (hfit : ∀ d ∈ fit, d.toNat ≤ maxConstant)
    (hl : fit.length = maxConstant) (hc : c.toNat ≤ maxConstant) :
    Oversteps (fit ++ c :: others) (.stringTooLong ⟨1, 1⟩)

/-- A text without gaps: a lexeme that it is divided into is all of it. -/
def Bare (text : String) : Prop :=
  ∀ division : Division, division.Divides text.toList → ∀ part ∈ division.parts, part.lexeme = text.toList

/-! ## Digits of numbers -/

section

variable {c : Char} {cs : List Char}

theorem digit_of_isDigit (h : c.isDigit = true) : c.toNat = 48 + Decimal.digit c ∧ Decimal.digit c < 10 := by
  have code := code_of_isDigit h
  have digit : Decimal.digit c = c.toNat - 48 := rfl
  omega

theorem toDigits_digit (h : c.isDigit = true) : Nat.toDigits 10 (Decimal.digit c) = [c] := by
  obtain ⟨code, small⟩ := digit_of_isDigit h
  have char : (Decimal.digit c).digitChar = c := by
    rw [← Char.toNat_inj, Nat.toNat_digitChar_of_lt_ten small, code]
  rw [Nat.toDigits_of_lt_base small, char]

/-- Digits that are read after a number are written behind its digits. -/
theorem toDigits_append_run {n : Nat} (hn : 0 < n) (h : cs.all Char.isDigit = true) :
    Nat.toDigits 10 n ++ cs = Nat.toDigits 10 (cs.foldl (fun n c => 10 * n + Decimal.digit c) n) := by
  induction cs generalizing n with
  | nil => rw [List.append_nil, List.foldl_nil]
  | cons c cs ih =>
    rw [List.all_cons, Bool.and_eq_true] at h
    have behind : Nat.toDigits 10 n ++ [c] = Nat.toDigits 10 (10 * n + Decimal.digit c) := by
      rw [← Nat.toDigits_append_toDigits (by decide) hn (digit_of_isDigit h.1).2, toDigits_digit h.1]
    rw [List.foldl_cons, ← ih (by omega) h.2, ← behind, List.append_assoc, List.singleton_append]

theorem leadsWithZero_eq_false (hc : c ≠ '0') : Decimal.leadsWithZero (c :: cs) = false := by
  simp [Decimal.leadsWithZero, hc]

/-- A run of digits without zeros in front is what its value is written as. -/
theorem toDigits_value (hc : c.isDigit = true) (hcs : cs.all Char.isDigit = true)
    (h : Decimal.leadsWithZero (c :: cs) = false) : Nat.toDigits 10 (Decimal.value (c :: cs)) = c :: cs := by
  by_cases zero : c = '0'
  · subst zero
    cases cs with
    | nil => rfl
    | cons d ds => simp [Decimal.leadsWithZero, Decimal.isRun, hcs, hc] at h
  · have positive : 0 < Decimal.digit c := by
      have code := (digit_of_isDigit hc).1
      have other : c.toNat ≠ 48 := fun h => zero (Char.toNat_inj.mp h)
      omega
    have run := toDigits_append_run positive hcs
    have value : Decimal.value (c :: cs) = cs.foldl (fun n c => 10 * n + Decimal.digit c) (Decimal.digit c) := by
      rw [Decimal.value, List.foldl_cons, Nat.mul_zero, Nat.zero_add]
    rw [value, ← run, toDigits_digit hc, List.singleton_append]

end

/-! ## Whole lexemes -/

section

variable {text : String} {p : Position} {kind : TokenKind}

/-- What is classified is made of characters that spell its kind. -/
theorem exists_spelt_of_classify (h : classify text p = .ok kind) :
    ∃ lexeme, text = String.ofList lexeme ∧ Spelt lexeme kind :=
  ⟨text.toList, String.ofList_toList.symm, spelt_of_classify h⟩

/-- Where a lexeme stands does not matter for its kind. -/
theorem classify_eq_of_classify (h : classify text p = .ok kind) (q : Position) : classify text q = .ok kind := by
  obtain ⟨lexeme, rfl, spelt⟩ := exists_spelt_of_classify h
  cases spelt with
  | keyword word =>
    rw [String.ofList_toList]
    exact (writable_keyword word).2 q
  | symbol hc => exact classify_symbol hc
  | string hb => exact classify_string hb
  | identifier hc hcs =>
    rw [classify_word hc hcs] at h ⊢
    exact h
  | integer hc hcs hv => exact (classify_digits hc hcs).trans (if_pos hv)

/-- A lexeme is spelt as it was, without zeros in front of a number. -/
theorem lexeme_eq_of_classify (h : classify text p = .ok kind) :
    kind.lexeme = if Decimal.leadsWithZero text.toList then toString (Decimal.value text.toList) else text := by
  obtain ⟨lexeme, rfl, spelt⟩ := exists_spelt_of_classify h
  rw [String.toList_ofList]
  have same (plain : Decimal.leadsWithZero lexeme = false) (h : kind.lexeme = String.ofList lexeme) :
      kind.lexeme = if Decimal.leadsWithZero lexeme then toString (Decimal.value lexeme) else String.ofList lexeme := by
    rw [plain, if_neg Bool.false_ne_true, h]
  cases spelt with
  | keyword word =>
    obtain ⟨c, cs, hl, hc, -⟩ := spelling_eq_cons word
    refine same ?_ String.ofList_toList.symm
    rw [hl]
    exact leadsWithZero_eq_false (ne_of_isIdentifierStart hc _ (by decide))
  | @symbol c hc =>
    refine same (leadsWithZero_eq_false ?_) rfl
    rintro rfl
    exact absurd hc (by decide)
  | string hb => exact same (leadsWithZero_eq_false (by decide)) (by rw [lexeme_string, String.toList_ofList])
  | identifier hc hcs => exact same (leadsWithZero_eq_false (ne_of_isIdentifierStart hc _ (by decide))) rfl
  | @integer c cs hc hcs hv =>
    have number : (TokenKind.integer (Decimal.value (c :: cs)).toUInt16).lexeme = toString (Decimal.value (c :: cs)) := by
      rw [TokenKind.lexeme, toNat_toUInt16 hv]
    cases zeros : Decimal.leadsWithZero (c :: cs) with
    | true => exact number
    | false => exact number.trans (by rw [Nat.toString_eq_ofList_toDigits, toDigits_value hc hcs zeros]; rfl)

/-- The lexeme of what was classified is classified as the same. -/
theorem classify_lexeme (h : classify text p = .ok kind) (q : Position) : classify kind.lexeme q = .ok kind := by
  obtain ⟨lexeme, rfl, spelt⟩ := exists_spelt_of_classify h
  cases spelt with
  | keyword word => exact (writable_keyword word).2 q
  | symbol hc => exact (writable_symbol hc).2 q
  | string hb =>
    rw [lexeme_string, String.toList_ofList]
    exact classify_string hb
  | identifier hc hcs => exact classify_eq_of_classify h q
  | integer hc hcs hv =>
    rw [← toNat_toUInt16 hv] at hv
    exact (writable_integer hv).2 q

/-- A string constant alone can break a limit when it is classified. -/
theorem pushable_of_classify (h : classify text p = .ok kind) (fits : ¬kind.Oversized) : kind.Pushable := by
  obtain ⟨lexeme, rfl, spelt⟩ := exists_spelt_of_classify h
  cases spelt with
  | keyword | symbol | identifier => trivial
  | string hb =>
    rw [TokenKind.Oversized, not_or, Nat.not_lt] at fits
    exact ⟨fits.1, fun c hc => Nat.le_of_not_lt fun large => fits.2 ⟨c, hc, large⟩⟩
  | integer hc hcs hv =>
    rw [TokenKind.Pushable, toNat_toUInt16 hv]
    exact hv

/-- What is classified stands as a lexeme of its own, if it keeps to the limits. -/
theorem lexeme_of_classify (h : classify text p = .ok kind) (fits : ¬kind.Oversized) : Lexeme text.toList [] :=
  (spelt_of_classify h).stands (pushable_of_classify h fits) (by simp)

/-- A lexeme is scanned as one token. -/
theorem scan_of_lexeme (h : Lexeme text.toList []) (hk : classify text .start = .ok kind) :
    scan text = .ok [⟨kind, .start⟩] := by
  rw [← String.ofList_toList (s := text)] at hk
  have passed : scanFrom .start (text.toList ++ []) #[] = _ := h.scanFrom_append hk
  rw [List.append_nil, scanFrom_nil] at passed
  exact passed

/-- A lexeme is divided into itself only. -/
theorem bare_of_lexeme (h : Lexeme text.toList []) : Bare text := by
  have divides : Division.Divides ⟨[], [⟨text.toList, []⟩]⟩ text.toList := ⟨by simp, .nil, h, .nil, trivial⟩
  intro division hd part hp
  rw [hd.eq divides, List.mem_singleton] at hp
  rw [hp]

/-- A text that is scanned as one token, with nothing around it, is classified as this token. -/
theorem classify_of_scan {token : Token} (h : scan text = .ok [token]) (bare : Bare text) (p : Position) :
    classify text p = .ok token.kind := by
  obtain ⟨division, hd, hr⟩ := exists_reports_of_scan h
  obtain ⟨part, hp⟩ := List.length_eq_one_iff.mp hr.length_eq.symm
  have reported := hr.kind_eq 0 part token (by rw [hp]; rfl) rfl p
  have whole := bare division hd part (by rw [hp]; exact List.mem_singleton_self part)
  rwa [whole, String.ofList_toList] at reported

end

/-! ## String constants that break a limit -/

section

variable {body : List Char} {e : LexError}

/-- What breaks a limit does so first in one of the two ways. -/
theorem exists_oversteps (h : maxConstant < body.length ∨ ∃ c ∈ body, maxConstant < c.toNat) :
    ∃ e, Oversteps body e := by
  -- as many characters as the scanner looks at before it is sure to fail
  rcases hf : (body.take (maxConstant + 1)).find? (fun c => decide (maxConstant < c.toNat)) with _ | c
  · have fit : ∀ c ∈ body.take (maxConstant + 1), c.toNat ≤ maxConstant := by
      simpa using List.find?_eq_none.mp hf
    have long : maxConstant < body.length := by
      rcases h with long | ⟨c, hc, large⟩
      · exact long
      · by_contra short
        rw [List.take_of_length_le (by omega)] at fit
        exact absurd (fit c hc) (Nat.not_le.mpr large)
    rw [List.take_succ_eq_append_getElem long, List.forall_mem_append, List.forall_mem_singleton] at fit
    rw [← List.take_append_drop maxConstant body, List.drop_eq_getElem_cons long]
    exact ⟨_, .tooLong fit.1 (List.length_take_of_le (Nat.le_of_lt long)) fit.2⟩
  · obtain ⟨large, fit, others, split, hfit⟩ := List.find?_eq_some_iff_append.mp hf
    have short : fit.length ≤ maxConstant := by
      have taken := List.length_take_le (maxConstant + 1) body
      rw [split, List.length_append, List.length_cons] at taken
      omega
    rw [← List.take_append_drop (maxConstant + 1) body, split, List.append_assoc, List.cons_append]
    exact ⟨_, .outOfRange (by simpa using hfit) short (by simpa using large)⟩

/-- A text that is a string constant which breaks a limit has a defect at its beginning. -/
theorem Oversteps.defect (h : Oversteps body e) (hb : body.all isStringChar = true) :
    Defect .start ('"' :: (body ++ ['"'])) e := by
  have column {fit : List Char} (hfit : fit.all isStringChar = true) :
      Position.start.after ('"' :: fit) = ⟨1, 2 + fit.length⟩ := by
    have row : '\n' ∉ fit := fun h => by simpa [isStringChar] using List.all_eq_true.mp hfit _ h
    rw [Position.after_cons, Position.after_of_notMem row]
    rfl
  cases h with
  | @outOfRange fit others c hfit hl hc =>
    rw [List.all_append, Bool.and_eq_true] at hb
    rw [List.append_assoc, List.cons_append]
    refine .string hb.1 hfit hl ?_
    rw [column hb.1]
    exact .outOfRange hc
  | @tooLong fit others c hfit hl hc =>
    rw [List.all_append, Bool.and_eq_true, List.all_cons, Bool.and_eq_true] at hb
    rw [List.append_assoc, List.cons_append]
    exact .string hb.1 hfit (Nat.le_of_eq hl) (.tooLong hb.2.1 hc hl)

/-- A string constant that breaks a limit is classified, but not scanned. -/
theorem scan_of_oversized {text : String} {p : Position} {kind : TokenKind} (h : classify text p = .ok kind)
    (large : kind.Oversized) :
    ∃ body e, kind = .string body ∧ Oversteps body.toList e ∧ scan text = .error e := by
  obtain ⟨lexeme, rfl, spelt⟩ := exists_spelt_of_classify h
  cases spelt with
  | keyword | symbol | identifier | integer => exact large.elim
  | @string body hb =>
    rw [TokenKind.Oversized, String.length_ofList, String.toList_ofList] at large
    obtain ⟨e, he⟩ := exists_oversteps large
    refine ⟨_, e, rfl, by rwa [String.toList_ofList], ?_⟩
    rw [scan, String.toList_ofList]
    exact (he.defect hb).scanFrom_eq

end

/-- Classification and scanning agree on single lexemes. A text that is classified, wherever it stands, is scanned as this
one token, at the beginning of the text, unless it is a string constant that breaks a limit, which the scanner refuses for
the limit that is broken first. The token is classified again from its lexeme, which is the text itself but for zeros in
front of a number. Conversely, a text that is scanned as one token, with nothing around the lexeme, is classified as this
token. -/
theorem classify_agrees_with_scan (text : String) :
    (∀ p kind, classify text p = .ok kind →
      (¬kind.Oversized → scan text = .ok [⟨kind, ⟨1, 1⟩⟩] ∧ Bare text) ∧
      (kind.Oversized → ∃ body e, kind = .string body ∧ Oversteps body.toList e ∧ scan text = .error e) ∧
      (∀ q, classify kind.lexeme q = .ok kind) ∧
      kind.lexeme = if Decimal.leadsWithZero text.toList then toString (Decimal.value text.toList) else text) ∧
    ∀ token, scan text = .ok [token] → Bare text ∨ token.kind.lexeme = text →
      ∀ p, classify text p = .ok token.kind := by
  refine ⟨fun p kind h => ⟨fun fits => ?_, scan_of_oversized h, classify_lexeme h, lexeme_eq_of_classify h⟩,
    fun token h whole p => ?_⟩
  · have lexeme := lexeme_of_classify h fits
    exact ⟨scan_of_lexeme lexeme (classify_eq_of_classify h .start), bare_of_lexeme lexeme⟩
  · rcases whole with bare | spelt
    · exact classify_of_scan h bare p
    · have formed := wellFormed_of_scan h token (List.mem_singleton_self token)
      rw [← spelt]
      exact formed.writable.2 p

/-- A number with zeros in front, both ways, and a string constant with a character out of range. -/
theorem classify_agrees_with_scan_samples :
    (classify "007" ⟨4, 2⟩ = .ok (.integer 7) ∧ scan "007" = .ok [⟨.integer 7, ⟨1, 1⟩⟩] ∧ Bare "007" ∧
        (TokenKind.integer 7).lexeme = toString (Decimal.value "007".toList)) ∧
      (classify "\"a\u8000\"" ⟨4, 2⟩ = .ok (.string "a\u8000") ∧
        ∃ body e, TokenKind.string "a\u8000" = .string body ∧ Oversteps body.toList e ∧
          scan "\"a\u8000\"" = .error e) ∧
      ∀ p, classify "007" p = .ok (.integer 7) := by
  have number : classify "007" ⟨4, 2⟩ = .ok (.integer 7) := by decide +kernel
  have constant : classify "\"a\u8000\"" ⟨4, 2⟩ = .ok (.string "a\u8000") := by decide +kernel
  obtain ⟨fits, -, -, spelt⟩ := (classify_agrees_with_scan "007").1 _ _ number
  obtain ⟨-, large, -, -⟩ := (classify_agrees_with_scan "\"a\u8000\"").1 _ _ constant
  obtain ⟨scanned, bare⟩ := fits id
  have beyond : maxConstant < '\u8000'.toNat := by decide
  exact ⟨⟨number, scanned, bare, spelt.trans (if_pos (by decide))⟩,
    ⟨constant, large (.inr ⟨'\u8000', by decide, beyond⟩)⟩,
    (classify_agrees_with_scan "007").2 _ scanned (.inl bare)⟩

end JackCompiler
