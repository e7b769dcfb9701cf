import JackCompiler.Proofs.Scanning.Decomposition

/-!
# Tokens that are written and scanned again

A token is writable when its lexeme is classified as the token itself and all its constants are in range. Nothing that
begins with a blank goes on with a lexeme, so that of a writable token stands in front of a blank as a whole
(`TokenKind.Writable.stands`), and writable tokens that are written one after another, each with a blank after it, are
scanned again (`scan_written`). In other words, a source text exists for every list of such tokens.
-/

namespace JackCompiler

/-- A token that can be written so that it is scanned again. -/
def TokenKind.Writable (kind : TokenKind) : Prop :=
  kind.Pushable ∧ ∀ p, classify kind.lexeme p = .ok kind

/-- Tokens one after another, each with a blank after it. -/
def written (kinds : List TokenKind) : List Char :=
  kinds.flatMap fun kind => kind.lexeme.toList ++ [' ']

/-! ## In front of a blank -/

/-- A blank goes on with no lexeme. -/
theorem class_of_isBlank {c : Char} (h : isBlank c = true) :
    isIdentifierChar c = false ∧ c.isDigit = false ∧ c ≠ '/' ∧ c ≠ '*' := by
  have visible : ¬(32 < c.toNat ∧ c.toNat < 127) := by
    rintro ⟨low, high⟩
    rw [isBlank_eq_false low high] at h
    cases h
  refine ⟨?_, ?_, ?_, ?_⟩
  · rw [Bool.eq_false_iff]
    intro hc
    have code := code_of_isIdentifierChar hc
    omega
  · rw [Bool.eq_false_iff]
    intro hc
    have code := code_of_isDigit hc
    omega
  · rintro rfl
    exact visible (by decide)
  · rintro rfl
    exact visible (by decide)

/-- What is spelt like a token whose constants are in range stands in front of a blank, and at the end of a text. -/
theorem Spelt.stands {lexeme rest : List Char} {kind : TokenKind} (h : Spelt lexeme kind) (pushable : kind.Pushable)
    (hrest : ∀ d ∈ rest.head?, isBlank d = true) : Lexeme lexeme rest := by
  have ends : ∀ d ∈ rest.head?, isIdentifierChar d = false := fun d hd => (class_of_isBlank (hrest d hd)).1
  cases h with
  | keyword word =>
    obtain ⟨c, cs, h, hc, hcs⟩ := spelling_eq_cons word
    rw [h]
    exact .word hc hcs ends
  | symbol hc => exact .symbol hc fun _ d hd => (class_of_isBlank (hrest d hd)).2.2
  | string hb =>
    rw [TokenKind.Pushable, String.length_ofList, String.toList_ofList] at pushable
    exact .string hb pushable.1 pushable.2
  | identifier hc hcs => exact .word hc hcs ends
  | integer hc hcs hv => exact .digits hc hcs hv fun d hd => (class_of_isBlank (hrest d hd)).2.1

/-- The lexeme of a writable token stands in front of a blank, and at the end of a text. -/
theorem TokenKind.Writable.stands {kind : TokenKind} (h : kind.Writable) {rest : List Char}
    (hrest : ∀ d ∈ rest.head?, isBlank d = true) : Lexeme kind.lexeme.toList rest :=
  (spelt_of_classify (h.2 .start)).stands h.1 hrest

/-- Scanning finds a written token first and goes on behind its lexeme. -/
theorem TokenKind.Writable.scanFrom_append {kind : TokenKind} (h : kind.Writable) {p : Position} {rest : List Char}
    {found : Array Token} (hrest : ∀ d ∈ rest.head?, isBlank d = true) :
    scanFrom p (kind.lexeme.toList ++ rest) found =
      scanFrom (p.after kind.lexeme.toList) rest (found.push ⟨kind, p⟩) := by
  refine (h.stands hrest).scanFrom_append ?_
  rw [String.ofList_toList]
  exact h.2 p

/-! ## Writable tokens -/

theorem writable_keyword (word : Keyword) : (TokenKind.keyword word).Writable := by
  cases word <;> exact ⟨trivial, fun _ => rfl⟩

theorem writable_symbol {c : Char} (hc : c ∈ symbolChars) : (TokenKind.symbol c).Writable :=
  ⟨trivial, fun _ => classify_symbol hc⟩

/-- A word that is not reserved is writable. -/
theorem writable_identifier {name : String} {c : Char} {cs : List Char} (hr : Keyword.ofSpelling? name = none)
    (hl : name.toList = c :: cs) (hc : isIdentifierStart c = true) (hcs : cs.all isIdentifierChar = true) :
    (TokenKind.identifier name).Writable := by
  obtain rfl : name = String.ofList (c :: cs) := by rw [← hl, String.ofList_toList]
  refine ⟨trivial, fun p => ?_⟩
  rw [TokenKind.lexeme, classify_word hc hcs, hr]
  rfl

/-! ## Written tokens -/

theorem scanFrom_written {kinds : List TokenKind} (h : ∀ kind ∈ kinds, kind.Writable) (p : Position)
    (found : Array Token) :
    ∃ tokens, scanFrom p (written kinds) found = .ok (found.toList ++ tokens) ∧ tokens.map (·.kind) = kinds := by
  induction kinds generalizing p found with
  | nil => exact ⟨[], by simp [written], rfl⟩
  | cons kind kinds ih =>
    rw [List.forall_mem_cons] at h
    have blank : Gap [' '] (written kinds) := .of_blank (by decide) .nil
    have split : written (kind :: kinds) = kind.lexeme.toList ++ ([' '] ++ written kinds) := by
      rw [written, List.flatMap_cons, List.append_assoc]
      rfl
    obtain ⟨tokens, htokens, hkinds⟩ := ih h.2 ((p.after kind.lexeme.toList).after [' ']) (found.push ⟨kind, p⟩)
    refine ⟨⟨kind, p⟩ :: tokens, ?_, by rw [List.map_cons, hkinds]⟩
    rw [split, h.1.scanFrom_append (by rintro _ ⟨⟩; decide), blank.scanFrom_append, htokens]
    simp

/-- Writable tokens are scanned again from the text that they are written as. -/
theorem scan_written {kinds : List TokenKind} (h : ∀ kind ∈ kinds, kind.Writable) :
    ∃ tokens, scan (String.ofList (written kinds)) = .ok tokens ∧ tokens.map (·.kind) = kinds := by
  obtain ⟨tokens, htokens, hkinds⟩ := scanFrom_written h .start #[]
  refine ⟨tokens, ?_, hkinds⟩
  rw [scan, String.toList_ofList, htokens]
  rfl

end JackCompiler
