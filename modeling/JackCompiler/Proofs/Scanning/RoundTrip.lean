import JackCompiler.Proofs.Scanning.Written

/-!
# Tokens are scanned again from what they are spelt as

A token is well formed when its lexeme is one of a source text: its word, its digits or its quoted body keep to the
limits. What ends a comment inside a separator belongs to the separator, so a separator is a gap whatever stands behind
it (`Filler.gap`). Well-formed tokens are writable (`TokenKind.WellFormed.writable`), and a lexeme that stands in a text
is classified as a well-formed token (`Lexeme.wellFormed`). Main statement: scanning undoes the spelling of well-formed
tokens, whatever separates them, and finds no others (`scan_separated`).
-/

namespace JackCompiler

/-- The tokens that a source text can hold. -/
def TokenKind.WellFormed : TokenKind → Prop
  | .keyword _ => True
  | .symbol c => c ∈ symbolChars
  | .identifier name =>
    (∀ word : Keyword, word.spelling ≠ name) ∧
      ∃ c cs, name.toList = c :: cs ∧ isIdentifierStart c = true ∧ cs.all isIdentifierChar = true
  | .integer value => value.toNat ≤ maxConstant
  | .string body =>
    body.toList.all isStringChar = true ∧ body.length ≤ maxConstant ∧ ∀ c ∈ body.toList, c.toNat ≤ maxConstant

/-- Blanks, line comments with the newlines behind them, and block comments. -/
inductive Filler : List Char → Prop
  | nil : Filler []
  | blank {c : Char} {others : List Char} (hc : isBlank c = true) (h : Filler others) : Filler (c :: others)
  | line {body others : List Char} (hb : '\n' ∉ body) (h : Filler others) :
    Filler ('/' :: '/' :: body ++ '\n' :: others)
  | block {body others : List Char} (hb : ¬['*', '/'] <:+: body ++ ['*']) (h : Filler others) :
    Filler ('/' :: '*' :: (body ++ ['*', '/']) ++ others)

/-- What may stand between two lexemes: a blank, then any filler. -/
def Separates (separator : List Char) : Prop :=
  ∃ c filler, separator = c :: filler ∧ isBlank c = true ∧ Filler filler

/-- The lexemes of tokens one after another, the separators between them. -/
def separated : List TokenKind → (Nat → List Char) → List Char
  | [], _ => []
  | [kind], _ => kind.lexeme.toList
  | kind :: next :: kinds, separator =>
    kind.lexeme.toList ++ (separator 0 ++ separated (next :: kinds) fun i => separator (i + 1))

/-! ## Separators -/

/-- A filler is a gap in front of any text. -/
theorem Filler.gap {filler : List Char} (h : Filler filler) (rest : List Char) : Gap filler rest := by
  induction h with
  | nil => exact .nil
  | blank hc _ ih => exact Gap.of_blank hc ih
  | line hb _ ih => exact .cons (.line hb (by simp)) (Gap.of_blank (by decide) ih)
  | block hb _ ih => exact .cons (.block hb) ih

theorem Separates.gap {separator : List Char} (h : Separates separator) (rest : List Char) : Gap separator rest := by
  obtain ⟨c, filler, rfl, hc, hf⟩ := h
  exact (Filler.blank hc hf).gap rest

theorem Separates.isBlank_of_head? {separator : List Char} (h : Separates separator) (rest : List Char) :
    ∀ d ∈ (separator ++ rest).head?, isBlank d = true := by
  obtain ⟨c, filler, rfl, hc, -⟩ := h
  rintro d hd
  cases hd
  exact hc

/-! ## Well-formed tokens -/

/-- The digits of a number have its value. -/
theorem value_toDigits (n : Nat) : Decimal.value (Nat.toDigits 10 n) = n := by
  have digits : Nat.ofDigitChars 10 (Nat.toDigits 10 n) 0 = n := Nat.ofDigitChars_ten_toDigits
  rw [Nat.ofDigitChars_eq_foldl] at digits
  exact digits

/-- The digits of a number are digits, at least one. -/
theorem isRun_toDigits (n : Nat) : Decimal.isRun (Nat.toDigits 10 n) = true := by
  have nonempty : (Nat.toDigits 10 n).isEmpty = false := by
    rw [List.isEmpty_eq_false_iff]
    exact Nat.toDigits_ne_nil
  rw [Decimal.isRun, nonempty, Bool.not_false, Bool.true_and, List.all_eq_true]
  exact fun c hc => Nat.isDigit_of_mem_toDigits (by decide) (by decide) hc

/-- The number of sixteen bits that a text writes in decimal digits, if it writes one. -/
def Decimal.word? (text : String) : Option UInt16 :=
  if isRun text.toList && value text.toList < UInt16.size then some (UInt16.ofNat (value text.toList)) else none

/-- A number of sixteen bits is read from its digits. -/
theorem Decimal.word?_toString (n : UInt16) : word? (toString n.toNat) = some n := by
  have small : n.toNat < UInt16.size := n.toNat_lt
  rw [word?, Nat.toString_eq_ofList_toDigits, String.toList_ofList, value_toDigits, isRun_toDigits, Bool.true_and,
    if_pos (decide_eq_true small), UInt16.ofNat_toNat]

/-- A number within the limit is one of sixteen bits. -/
theorem toNat_toUInt16 {n : Nat} (h : n ≤ maxConstant) : n.toUInt16.toNat = n :=
  UInt16.toNat_ofNat_of_lt' (Nat.lt_of_le_of_lt h (by decide))

/-- An integer is classified by the number that its digits are. -/
theorem writable_integer {value : UInt16} (h : value.toNat ≤ maxConstant) : (TokenKind.integer value).Writable := by
  refine ⟨h, fun p => ?_⟩
  have all : (Nat.toDigits 10 value.toNat).all Char.isDigit = true :=
    (Bool.and_eq_true_iff.mp (isRun_toDigits value.toNat)).2
  have number := value_toDigits value.toNat
  rw [TokenKind.lexeme, Nat.toString_eq_ofList_toDigits]
  obtain ⟨c, cs, hcs⟩ := List.exists_cons_of_ne_nil (Nat.toDigits_ne_nil (n := value.toNat) (b := 10))
  rw [hcs] at all number ⊢
  rw [List.all_cons, Bool.and_eq_true] at all
  rw [classify_digits all.1 all.2, number, if_pos h, Nat.toUInt16, UInt16.ofNat_toNat]

/-- The lexeme of a string constant is its body between quotes. -/
theorem lexeme_string (body : String) :
    (TokenKind.string body).lexeme = String.ofList ('"' :: (body.toList ++ ['"'])) := by
  rw [TokenKind.lexeme, ← String.toList_inj]
  simp

theorem writable_string {body : String} (hb : body.toList.all isStringChar = true) (hl : body.length ≤ maxConstant)
    (hc : ∀ c ∈ body.toList, c.toNat ≤ maxConstant) : (TokenKind.string body).Writable := by
  refine ⟨⟨hl, hc⟩, fun p => ?_⟩
  rw [lexeme_string, classify_string hb, String.ofList_toList]

/-- A well-formed token is scanned from its lexeme. -/
theorem TokenKind.WellFormed.writable {kind : TokenKind} (h : kind.WellFormed) : kind.Writable := by
  cases kind with
  | keyword word => exact writable_keyword word
  | symbol c => exact writable_symbol h
  | identifier name =>
    obtain ⟨free, c, cs, hl, hc, hcs⟩ := h
    refine writable_identifier ?_ hl hc hcs
    rw [Keyword.ofSpelling?, List.find?_eq_none]
    intro word _
    simpa using free word
  | integer value => exact writable_integer h
  | string body => exact writable_string h.1 h.2.1 h.2.2

/-- A word that no reserved word is found for is not reserved. -/
theorem spelling_ne_of_ofSpelling? {name : String} (h : Keyword.ofSpelling? name = none) (word : Keyword) :
    word.spelling ≠ name := by
  rintro rfl
  cases word <;> cases h

/-- A lexeme that stands in a text is classified as a well-formed token. -/
theorem Lexeme.wellFormed {lexeme rest : List Char} {p : Position} {kind : TokenKind} (h : Lexeme lexeme rest)
    (hk : classify (String.ofList lexeme) p = .ok kind) : kind.WellFormed := by
  cases h with
  | @word c cs _ hc hcs =>
    rw [classify_word hc hcs] at hk
    rcases hw : Keyword.ofSpelling? (String.ofList (c :: cs)) with _ | word
    · rw [hw] at hk
      cases hk
      exact ⟨spelling_ne_of_ofSpelling? hw, c, cs, String.toList_ofList, hc, hcs⟩
    · rw [hw] at hk
      cases hk
      trivial
  | @digits c cs _ hc hcs hv =>
    rw [classify_digits hc hcs, if_pos hv] at hk
    cases hk
    rw [TokenKind.WellFormed, toNat_toUInt16 hv]
    exact hv
  | symbol hc =>
    rw [classify_symbol hc] at hk
    cases hk
    exact hc
  | string hb hl hc =>
    rw [classify_string hb] at hk
    cases hk
    rw [TokenKind.WellFormed, String.length_ofList, String.toList_ofList]
    exact ⟨hb, hl, hc⟩

/-! ## Scanning undoes spelling -/

/-- Well-formed tokens are found again behind any others. -/
theorem scanFrom_separated {kinds : List TokenKind} (h : ∀ kind ∈ kinds, kind.Writable) {separator : Nat → List Char}
    (hs : ∀ i, Separates (separator i)) (p : Position) (found : Array Token) :
    ∃ tokens, scanFrom p (separated kinds separator) found = .ok (found.toList ++ tokens) ∧
      tokens.map (·.kind) = kinds := by
  fun_induction separated kinds separator generalizing p found with
  | case1 => exact ⟨[], by simp, rfl⟩
  | case2 kind separator =>
    rw [List.forall_mem_singleton] at h
    refine ⟨[⟨kind, p⟩], ?_, rfl⟩
    rw [← List.append_nil kind.lexeme.toList, h.scanFrom_append (by simp), scanFrom_nil, Array.toList_push]
  | case3 kind next kinds separator ih =>
    rw [List.forall_mem_cons] at h
    obtain ⟨tokens, htokens, hkinds⟩ :=
      ih h.2 (fun i => hs (i + 1)) ((p.after kind.lexeme.toList).after (separator 0)) (found.push ⟨kind, p⟩)
    refine ⟨⟨kind, p⟩ :: tokens, ?_, by rw [List.map_cons, hkinds]⟩
    rw [h.1.scanFrom_append ((hs 0).isBlank_of_head? _), ((hs 0).gap _).scanFrom_append, htokens]
    simp

theorem WellCut.exists_lexeme {parts : List Part} (h : WellCut parts) {part : Part} (hp : part ∈ parts) :
    ∃ rest, Lexeme part.lexeme rest := by
  induction parts with
  | nil => cases hp
  | cons first parts ih =>
    rcases List.mem_cons.mp hp with rfl | hp
    · exact ⟨_, h.1⟩
    · exact ih h.2.2 hp

/-- Every token that is scanned is well formed. -/
theorem wellFormed_of_scan {text : String} {tokens : List Token} (h : scan text = .ok tokens) :
    ∀ token ∈ tokens, token.kind.WellFormed := by
  obtain ⟨division, hd, hr⟩ := exists_reports_of_scan h
  intro token ht
  obtain ⟨i, hi, hti⟩ := List.getElem_of_mem ht
  have hip : i < division.parts.length := hr.length_eq ▸ hi
  obtain ⟨rest, hl⟩ := hd.parts.exists_lexeme (List.getElem_mem hip)
  exact hl.wellFormed (hr.kind_eq i _ token (List.getElem?_eq_getElem hip) (List.getElem?_eq_some_iff.mpr ⟨hi, hti⟩) .start)

theorem forall_wellFormed_of_scan {text : String} {tokens : List Token} (h : scan text = .ok tokens) :
    ∀ kind ∈ tokens.map (·.kind), kind.WellFormed :=
  List.forall_mem_map.mpr (wellFormed_of_scan h)

/-- A character that no identifier has is not in a name. -/
theorem TokenKind.WellFormed.notMem {name : String} (h : (TokenKind.identifier name).WellFormed) {c : Char}
    (hstart : isIdentifierStart c = false) (hchar : isIdentifierChar c = false) : c ∉ name.toList := by
  obtain ⟨-, first, others, heq, hfirst, hothers⟩ := h
  rw [heq, List.mem_cons, not_or]
  refine ⟨?_, fun hc => ?_⟩
  · rintro rfl
    rw [hfirst] at hstart
    cases hstart
  · rw [List.all_eq_true.mp hothers c hc] at hchar
    cases hchar

/-- The constants of a well-formed token are in range. -/
theorem TokenKind.WellFormed.pushable {kind : TokenKind} (h : kind.WellFormed) : kind.Pushable :=
  h.writable.1

/-- Every token that is scanned can be pushed. -/
theorem pushable_of_scan {text : String} {tokens : List Token} (h : scan text = .ok tokens) :
    ∀ t ∈ tokens, t.kind.Pushable :=
  fun t ht => (wellFormed_of_scan h t ht).pushable

/-- The lexemes of well-formed tokens, joined by separators, are scanned to these tokens. Conversely every token that is
scanned is well formed, so the tokens of a text are scanned again from their lexemes. -/
theorem scan_separated :
    (∀ (kinds : List TokenKind) (separator : Nat → List Char), (∀ kind ∈ kinds, kind.WellFormed) →
      (∀ i, Separates (separator i)) →
      ∃ tokens, scan (String.ofList (separated kinds separator)) = .ok tokens ∧ tokens.map (·.kind) = kinds) ∧
    (∀ text tokens, scan text = .ok tokens → ∀ token ∈ tokens, token.kind.WellFormed) ∧
    ∀ text tokens (separator : Nat → List Char), scan text = .ok tokens → (∀ i, Separates (separator i)) →
      ∃ again, scan (String.ofList (separated (tokens.map (·.kind)) separator)) = .ok again ∧
        again.map (·.kind) = tokens.map (·.kind) := by
  have forward (kinds : List TokenKind) (separator : Nat → List Char) (h : ∀ kind ∈ kinds, kind.WellFormed)
      (hs : ∀ i, Separates (separator i)) :
      ∃ tokens, scan (String.ofList (separated kinds separator)) = .ok tokens ∧ tokens.map (·.kind) = kinds := by
    obtain ⟨tokens, htokens, hkinds⟩ := scanFrom_separated (fun kind hk => (h kind hk).writable) hs .start #[]
    refine ⟨tokens, ?_, hkinds⟩
    rw [scan, String.toList_ofList, htokens]
    rfl
  refine ⟨forward, fun text tokens h => wellFormed_of_scan h, fun text tokens separator h hs => forward _ _ ?_ hs⟩
  simpa using wellFormed_of_scan h

/-- A blank, a block comment with a quote in it, and a line comment with the newline behind it. -/
def sampleSeparator : List Char :=
  " /*\"*///\"\n".toList

theorem sampleSeparator_separates : Separates sampleSeparator := by
  have comments : Filler ('/' :: '*' :: (['"'] ++ ['*', '/']) ++ ('/' :: '/' :: ['"'] ++ '\n' :: [])) :=
    .block (by decide) (.line (by decide) .nil)
  exact ⟨' ', _, rfl, by decide, comments⟩

/-- A word that begins like a reserved one, a slash and the opening mark of a comment in quotes are scanned again, and so
are the tokens of a text that spells a number with leading zeros. -/
theorem scan_separated_samples :
    let kinds : List TokenKind := [.keyword .«class», .identifier "classic", .symbol '/', .string "/*"]
    (∃ tokens, scan (String.ofList (separated kinds fun _ => sampleSeparator)) = .ok tokens ∧
        tokens.map (·.kind) = kinds) ∧
      (TokenKind.integer 7).WellFormed ∧
      ∃ again, scan (String.ofList (separated [.integer 7, .identifier "x"] fun _ => sampleSeparator)) = .ok again ∧
        again.map (·.kind) = [.integer 7, .identifier "x"] := by
  intro kinds
  obtain ⟨forward, formed, again⟩ := scan_separated
  have scanned : scan "007 x" = .ok [⟨.integer 7, ⟨1, 1⟩⟩, ⟨.identifier "x", ⟨1, 5⟩⟩] := by decide +kernel
  have integer := formed _ _ scanned _ List.mem_cons_self
  have rescanned := again _ _ (fun _ => sampleSeparator) scanned fun _ => sampleSeparator_separates
  refine ⟨forward kinds _ ?_ fun _ => sampleSeparator_separates, integer, rescanned⟩
  simp only [kinds, List.forall_mem_cons]
  have symbol : '/' ∈ symbolChars := by decide
  have codes : "/*".toList.all (fun c => c.toNat ≤ maxConstant) = true := by decide
  refine ⟨trivial, ⟨?_, 'c', _, rfl, by decide, by decide⟩, symbol, ⟨by decide, by decide, ?_⟩, by simp⟩
  · intro word
    cases word <;> decide
  · simpa using codes

end JackCompiler
