import JackCompiler.Proofs.Generation.Located
import JackCompiler.Proofs.Scanning.SingleLexemes

/-!
# String constants behind the scanner

The limits of a string constant are checked twice. The scanner counts the characters of the constant while it reads them and
compares each code on its own; the generator compares the length of the whole constant, then looks for a code that no
instruction can push. Both let the same constants through (`scans_quoted_iff`, `exists_stringCode_iff`). Every string that
a generator is given is that of a token, so tokens that were scanned have none that it refuses. Main statement, with both:
`compile_scanned_in_range`.
-/

namespace JackCompiler

/-! ## The two checks -/

/-- The generator has code for the constants in range, and for no others. -/
theorem exists_stringCode_iff (body : String) (p : Position) :
    (∃ code, stringCode body p = .ok code) ↔ (TokenKind.string body).Pushable := by
  rw [TokenKind.Pushable, stringCode]
  by_cases hl : maxConstant < body.length
  · rw [if_pos hl]
    constructor
    · rintro ⟨_, ⟨⟩⟩
    · rintro ⟨short, -⟩
      exact absurd hl (Nat.not_lt.mpr short)
  rw [if_neg hl]
  split
  · next c hf =>
    have large : maxConstant < c.toNat := by simpa using List.find?_some hf
    constructor
    · rintro ⟨_, ⟨⟩⟩
    · rintro ⟨-, codes⟩
      exact absurd large (Nat.not_lt.mpr (codes c (List.mem_of_find?_eq_some hf)))
  · next hf =>
    rw [List.find?_eq_none] at hf
    refine iff_of_true ⟨_, rfl⟩ ⟨Nat.le_of_not_lt hl, fun c hc => ?_⟩
    simpa using hf c hc

/-- The text of a string constant: the characters between two quotes. -/
def quoted (body : String) : String :=
  String.ofList ('"' :: (body.toList ++ ['"']))

/-- The scanner takes the constants in range, and no others. -/
theorem scans_quoted_iff {body : String} (hb : body.toList.all isStringChar = true) :
    (∃ tokens, scan (quoted body) = .ok tokens) ↔ (TokenKind.string body).Pushable := by
  have classified : classify (quoted body) .start = .ok (.string body) := by
    rw [quoted, classify_string hb, String.ofList_toList]
  constructor
  · rintro ⟨tokens, scanned⟩
    refine pushable_of_classify classified fun large => ?_
    obtain ⟨_, e, -, -, failed⟩ := scan_of_oversized classified large
    rw [scanned] at failed
    cases failed
  · intro pushable
    exact ⟨_, scan_of_lexeme ((spelt_of_classify classified).stands pushable (by simp)) classified⟩

/-! ## Through a compilation -/

/-- Only a string constant makes a generator fail with an error of the characters. -/
theorem Generator.string_of_step {g : Generator} {step : Step} {cause : LexError} (h : g.step step = .error (.lex cause)) :
    ∃ body p, step = .string body p ∧ stringCode body p = .error cause := by
  cases step with
  | string body p =>
    refine ⟨body, p, rfl, ?_⟩
    simp only [Generator.step] at h
    split at h
    · cases h
    · next hs =>
      cases h
      exact hs
  | declare =>
    rcases error_of_declare h with ⟨-, he⟩ | ⟨-, he⟩
    · cases he
    · cases he
  | beginSubroutine kind => exact absurd h (beginSubroutine_ne_error kind)
  | read | use | element | elementAddress | assign => cases (error_of_emitWith h).2
  | argument | «call» =>
    simp only [Generator.step] at h
    split at h <;> cases h
  | _ => cases h

/-- A compilation that fails with an error of the characters does so at a string token out of range. -/
theorem exists_string_of_compile {strict record : Bool} {tokens : List Token} {cause : LexError}
    (h : (compile strict record tokens).result = .error (.lex cause)) :
    ∃ token ∈ tokens, ¬token.kind.Pushable := by
  rcases cause_of_compile h with ⟨g, step, comes, hs⟩ | ⟨cause, -, ⟨⟩⟩
  obtain ⟨body, p, rfl, failed⟩ := Generator.string_of_step hs
  refine ⟨⟨.string body, p⟩, standsIn_of_readClass tokens _ comes.mem, fun pushable => ?_⟩
  obtain ⟨code, compiled⟩ := (exists_stringCode_iff body p).mpr pushable
  rw [failed] at compiled
  cases compiled

/-- The generator has code for every string constant among the steps of tokens that were scanned, so compiling them never
ends with an error of the characters. Of all constants that can stand between quotes, it has code for those that the scanner
takes. -/
theorem compile_scanned_in_range {text : String} {tokens : List Token} (h : scan text = .ok tokens) :
    (∀ body p, .string body p ∈ (readClass tokens).steps → ∃ code, stringCode body p = .ok code) ∧
      (∀ (strict record : Bool) (e : Error), (compile strict record tokens).result = .error e → e.category ≠ "lex") ∧
      ∀ body p, body.toList.all isStringChar = true →
        ((∃ code, stringCode body p = .ok code) ↔ ∃ tokens, scan (quoted body) = .ok tokens) := by
  have pushable := pushable_of_scan h
  refine ⟨?_, ?_, fun body p hb => (exists_stringCode_iff body p).trans (scans_quoted_iff hb).symm⟩
  · intro body p hm
    exact (exists_stringCode_iff body p).mpr (pushable _ (standsIn_of_readClass tokens _ hm))
  · intro strict record e he
    cases e with
    | lex cause =>
      obtain ⟨token, ht, large⟩ := exists_string_of_compile he
      exact absurd (pushable token ht) large
    | grammar | name | file => simp [Error.category]

/-- A string constant at both limits: as many characters as one holds, each with the largest code. -/
def largestString : String :=
  String.ofList (List.replicate maxConstant '\u7fff')

theorem largestString_writable : (TokenKind.string largestString).Writable := by
  have all {c : Char} (hc : c ∈ largestString.toList) : c = '\u7fff' := by
    rw [largestString, String.toList_ofList] at hc
    exact List.eq_of_mem_replicate hc
  refine writable_string ?_ ?_ fun c hc => ?_
  · rw [List.all_eq_true]
    intro c hc
    rw [all hc]
    decide
  · rw [largestString, String.length_ofList, List.length_replicate]
  · rw [all hc]
    decide

/-- Behind a constant with the largest code a name is not declared, and that is the error. The constant at both limits is
scanned alone, and no step about it fails. -/
theorem compile_scanned_in_range_samples :
    (∃ tokens e, scan "class A \x7b function int f() \x7b return \"\u7fff\" + x; \x7d \x7d" = .ok tokens ∧
      (compile true false tokens).result = .error e ∧ e = .name (.undefined "x" (some ⟨1, 43⟩)) ∧ e.category ≠ "lex") ∧
    ∃ tokens, scan (String.ofList (written [.string largestString])) = .ok tokens ∧
      tokens.map (·.kind) = [.string largestString] ∧
      ∀ (strict record : Bool) (e : Error), (compile strict record tokens).result = .error e → e.category ≠ "lex" := by
  constructor
  · have failed : compileText true "class A \x7b function int f() \x7b return \"\u7fff\" + x; \x7d \x7d" =
        .error (.name (.undefined "x" (some ⟨1, 43⟩))) := by decide +kernel
    unfold compileText at failed
    split at failed
    · next tokens scanned =>
      exact ⟨tokens, _, scanned, failed, rfl, (compile_scanned_in_range scanned).2.1 _ _ _ failed⟩
    · cases failed
  · obtain ⟨tokens, scanned, kinds⟩ := scan_written (List.forall_mem_singleton.mpr largestString_writable)
    exact ⟨tokens, scanned, kinds, (compile_scanned_in_range scanned).2.1⟩

end JackCompiler
