import JackCompiler.Token.Scan

/-!
# Lexemes and the constants in them

A lexeme that is classified has one of five forms (`Spelt`). The code of an integer token pushes its value, that of a
string token its length and its characters, so these have to be in range (`TokenKind.Pushable`). A run of digits is
compared as a whole when it is classified, a string constant character by character while it is cut off.
-/

namespace JackCompiler

/-! ## The forms of lexemes -/

/-- How the tokens of each kind are spelt. -/
inductive Spelt : List Char → TokenKind → Prop
  | keyword (word : Keyword) : Spelt word.spelling.toList (.keyword word)
  | symbol {c : Char} (hc : c ∈ symbolChars) : Spelt [c] (.symbol c)
  | string {body : List Char} (hb : body.all isStringChar = true) :
    Spelt ('"' :: (body ++ ['"'])) (.string (String.ofList body))
  | identifier {c : Char} {cs : List Char} (hc : isIdentifierStart c = true) (hcs : cs.all isIdentifierChar = true) :
    Spelt (c :: cs) (.identifier (String.ofList (c :: cs)))
  | integer {c : Char} {cs : List Char} (hc : c.isDigit = true) (hcs : cs.all Char.isDigit = true)
    (hv : Decimal.value (c :: cs) ≤ maxConstant) : Spelt (c :: cs) (.integer (Decimal.value (c :: cs)).toUInt16)

/-- The body of a string constant stands between its quotes. -/
theorem eq_of_stringBody? {lexeme body : List Char} (h : stringBody? lexeme = some body) :
    lexeme = '"' :: (body ++ ['"']) ∧ body.all isStringChar = true := by
  unfold stringBody? at h
  split at h
  · next rest =>
    split at h
    · next hr =>
      cases h
      rw [Bool.and_eq_true, decide_eq_true_eq] at hr
      obtain ⟨body, rfl⟩ := List.getLast?_eq_some_iff.mp hr.1
      rw [List.dropLast_concat] at hr ⊢
      exact ⟨rfl, hr.2⟩
    · cases h
  · cases h

/-- A lexeme is spelt like the token that it is. -/
theorem spelt_of_classify {lexeme : String} {p : Position} {kind : TokenKind} (h : classify lexeme p = .ok kind) :
    Spelt lexeme.toList kind := by
  unfold classify at h
  split at h
  · next word hw =>
    cases h
    have : word.spelling = lexeme := by simpa using List.find?_some hw
    exact this ▸ .keyword word
  · split at h
    · cases h
    · next c cs hl =>
      rw [hl]
      split at h
      · next hc =>
        cases h
        rw [Bool.and_eq_true, decide_eq_true_eq, List.contains_iff_mem] at hc
        exact hc.1 ▸ .symbol hc.2
      · split at h
        · next body hb =>
          cases h
          obtain ⟨hl, hb⟩ := eq_of_stringBody? hb
          exact hl ▸ .string hb
        · split at h
          · next hc =>
            cases h
            rw [Bool.and_eq_true] at hc
            rw [← String.ofList_toList (s := lexeme), hl]
            exact .identifier hc.1 hc.2
          · split at h
            · next hd =>
              simp only at h
              split at h
              · next hv =>
                cases h
                rw [List.all_cons, Bool.and_eq_true] at hd
                exact .integer hd.1 hd.2 hv
              · cases h
            · cases h

/-! ## Constants -/

/-- Whether all constants that the code of a token pushes are in range. -/
def TokenKind.Pushable : TokenKind → Prop
  | .integer value => value.toNat ≤ maxConstant
  | .string body => body.length ≤ maxConstant ∧ ∀ c ∈ body.toList, c.toNat ≤ maxConstant
  | _ => True

end JackCompiler
