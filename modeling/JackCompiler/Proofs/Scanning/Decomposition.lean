import JackCompiler.Proofs.Scanning.Pieces
import Mathlib.Data.List.Induction

/-!
# The texts that are scanned

A text that is scanned is a gap followed by lexemes with a gap after each. The conditions on a piece speak of what follows
it, so a division is put together from its end (`WellCut`). Scanning passes a gap (`Gap.scanFrom_append`), finds the
lexemes of a division in their order (`WellCut.scanFrom_joined`), and whatever it accepts has been cut into parts (`exists_divides_of_scanFrom`).
Main statement: the scanner accepts exactly the texts that can be divided, a text can be divided in one way only, and the
tokens are the lexemes of its division, each where it stands (`scan_divides`).
-/

namespace JackCompiler

/-! ## Divisions -/

/-- A gap in front of the rest of a text: pieces of layout, one after another. -/
inductive Gap : List Char → List Char → Prop
  | nil {rest : List Char} : Gap [] rest
  | cons {piece gap rest : List Char} (hp : Layout piece (gap ++ rest)) (hg : Gap gap rest) : Gap (piece ++ gap) rest

theorem Gap.of_blank {c : Char} {gap rest : List Char} (hc : isBlank c = true) (h : Gap gap rest) :
    Gap (c :: gap) rest :=
  .cons (.blank hc) h

/-- A lexeme and the gap after it. -/
@[ext] structure Part where
  lexeme : List Char
  gap : List Char

/-- The text of parts that stand one after another. -/
def joined (parts : List Part) : List Char :=
  parts.flatMap fun part => part.lexeme ++ part.gap

@[simp] theorem joined_nil : joined [] = [] := rfl

@[simp] theorem joined_cons (part : Part) (parts : List Part) :
    joined (part :: parts) = part.lexeme ++ (part.gap ++ joined parts) := by
  rw [joined, List.flatMap_cons, List.append_assoc]
  rfl

/-- Every part is a lexeme and a gap in front of the parts after it. -/
def WellCut : List Part → Prop
  | [] => True
  | part :: parts => Lexeme part.lexeme (part.gap ++ joined parts) ∧ Gap part.gap (joined parts) ∧ WellCut parts

/-- A text as a gap and the lexemes after it, with a gap after each. -/
@[ext] structure Division where
  gap : List Char
  parts : List Part

/-- A division is one of a text. -/
structure Division.Divides (division : Division) (text : List Char) : Prop where
  text_eq : division.gap ++ joined division.parts = text
  gap : Gap division.gap (joined division.parts)
  parts : WellCut division.parts

/-- Where the text after some characters stands: one row further than there are newlines among them, and one column
further than there are characters behind the last of these. -/
def Position.behind (before : List Char) : Position :=
  ⟨1 + before.count '\n', 1 + (before.reverse.takeWhile (· ≠ '\n')).length⟩

/-- The tokens are the lexemes of the parts after a text, in their order, each where its lexeme stands. -/
structure Reports (before : List Char) (parts : List Part) (tokens : List Token) : Prop where
  length_eq : tokens.length = parts.length
  kind_eq : ∀ (i : Nat) part token, parts[i]? = some part → tokens[i]? = some token →
    ∀ p, classify (String.ofList part.lexeme) p = .ok token.kind
  position_eq : ∀ (i : Nat) token, tokens[i]? = some token →
    token.position = .behind (before ++ joined (parts.take i))

/-! ## Positions -/

theorem Position.after_start (before : List Char) : Position.start.after before = .behind before := by
  induction before using List.reverseRecOn with
  | nil => rfl
  | append_singleton before c ih =>
    rw [after_append, ih, after_cons, after_nil, next]
    by_cases hc : c = '\n'
    · simp [behind, hc]
      omega
    · simp [behind, hc]
      omega

theorem Position.after_behind (before cs : List Char) : (behind before).after cs = .behind (before ++ cs) := by
  rw [← after_start, ← after_append, after_start]

/-! ## A text that is divided is scanned -/

section

variable {p : Position} {before gap rest lexeme : List Char} {parts : List Part} {found : Array Token}

/-- A piece of layout is passed. -/
theorem Layout.scanFrom_append {piece : List Char} (h : Layout piece rest) :
    scanFrom p (piece ++ rest) found = scanFrom (p.after piece) rest found := by
  obtain ⟨c, cs, rfl, hcut⟩ := h.stands.cut
  rw [List.cons_append, scanFrom_of_layout (hcut p) rfl]

/-- A gap is passed. -/
theorem Gap.scanFrom_append (h : Gap gap rest) :
    scanFrom p (gap ++ rest) found = scanFrom (p.after gap) rest found := by
  induction h generalizing p with
  | nil => rfl
  | cons hp hg ih => rw [List.append_assoc, hp.scanFrom_append, ih, Position.after_append]

/-- A lexeme is found. -/
theorem Lexeme.scanFrom_append {kind : TokenKind} (h : Lexeme lexeme rest)
    (hk : classify (String.ofList lexeme) p = .ok kind) :
    scanFrom p (lexeme ++ rest) found = scanFrom (p.after lexeme) rest (found.push ⟨kind, p⟩) := by
  obtain ⟨c, cs, rfl, hcut⟩ := h.stands.cut
  rw [List.cons_append, scanFrom_of_lexeme (hcut p) rfl hk]

/-- One more part in front is reported by one more token. -/
theorem Reports.cons {part : Part} {tokens : List Token} {kind : TokenKind}
    (h : Reports (before ++ part.lexeme ++ part.gap) parts tokens)
    (hk : ∀ p, classify (String.ofList part.lexeme) p = .ok kind) :
    Reports before (part :: parts) (⟨kind, .behind before⟩ :: tokens) where
  length_eq := by rw [List.length_cons, List.length_cons, h.length_eq]
  kind_eq
    | 0, _, _, hp, ht => by
      cases hp
      cases ht
      exact hk
    | i + 1, part, token, hp, ht => h.kind_eq i part token hp ht
  position_eq
    | 0, _, ht => by
      cases ht
      rw [List.take_zero, joined_nil, List.append_nil]
    | i + 1, token, ht => by
      rw [h.position_eq i token ht, List.take_succ_cons, joined_cons]
      simp only [List.append_assoc]

/-- The lexemes of parts are found in their order, each where it stands. -/
theorem WellCut.scanFrom_joined (h : WellCut parts) :
    ∃ tokens, scanFrom (.behind before) (joined parts) found = .ok (found.toList ++ tokens) ∧
      Reports before parts tokens := by
  induction parts generalizing before found with
  | nil =>
    refine ⟨[], by simp, rfl, ?_, ?_⟩
    · intro i part token hp
      cases hp
    · intro i token ht
      cases ht
  | cons part parts ih =>
    obtain ⟨hl, hg, hw⟩ := h
    obtain ⟨kind, hk⟩ := hl.exists_kind
    obtain ⟨tokens, hs, hr⟩ := ih hw
    refine ⟨_, ?_, hr.cons hk⟩
    rw [joined_cons, hl.scanFrom_append (hk _), hg.scanFrom_append, Position.after_behind, Position.after_behind, hs,
      Array.toList_push, List.append_assoc, List.singleton_append]

/-- A text that is divided is scanned to the tokens of its division. -/
theorem Division.Divides.scan_eq {division : Division} {text : String} (h : division.Divides text.toList) :
    ∃ tokens, scan text = .ok tokens ∧ Reports division.gap division.parts tokens := by
  obtain ⟨tokens, hs, hr⟩ := h.parts.scanFrom_joined
  refine ⟨tokens, ?_, hr⟩
  rw [scan, ← h.text_eq, h.gap.scanFrom_append, Position.after_start, hs]
  rfl

end

/-! ## A text that is scanned is divided -/

/-- What is scanned has been cut into a gap and parts. -/
theorem exists_divides_of_scanFrom {p : Position} {text : List Char} {found : Array Token} {tokens : List Token}
    (h : scanFrom p text found = .ok tokens) : ∃ division : Division, division.Divides text := by
  fun_induction scanFrom p text found with
  | case1 => exact ⟨⟨[], []⟩, rfl, .nil, trivial⟩
  | case2 => cases h
  | case3 => cases h
  | case4 p found c cs front hcut _ hl kind hk ih =>
    -- a lexeme begins a new part, with the gap that was first until now behind it
    obtain ⟨division, ht, hg, hw⟩ := ih h
    have stands := Front.stands_of_cut hcut fun _ => ⟨kind, hk⟩
    have whole := Front.taken_append_rest hcut
    obtain ⟨isLexeme, taken, rest⟩ := front
    obtain rfl : isLexeme = true := hl
    refine ⟨⟨[], ⟨taken, division.gap⟩ :: division.parts⟩, ?_, .nil, ?_, hg, hw⟩
    · rw [List.nil_append, joined_cons, ht, whole]
    · rw [ht]
      exact stands
  | case5 p found c cs front hcut _ hl ih =>
    -- a piece of layout lengthens the first gap
    obtain ⟨division, ht, hg, hw⟩ := ih h
    have stands := Front.stands_of_cut hcut fun isLexeme => absurd isLexeme hl
    have whole := Front.taken_append_rest hcut
    obtain ⟨isLexeme, taken, rest⟩ := front
    obtain rfl : isLexeme = false := Bool.not_eq_true _ ▸ hl
    refine ⟨⟨taken ++ division.gap, division.parts⟩, ?_, .cons ?_ hg, hw⟩
    · rw [List.append_assoc, ht, whole]
    · rw [ht]
      exact stands

/-- What is scanned has been divided, and the tokens are the lexemes of its division. -/
theorem exists_reports_of_scan {text : String} {tokens : List Token} (h : scan text = .ok tokens) :
    ∃ division : Division, division.Divides text.toList ∧ Reports division.gap division.parts tokens := by
  obtain ⟨division, hd⟩ := exists_divides_of_scanFrom h
  obtain ⟨tokens', hs, hr⟩ := hd.scan_eq
  rw [h] at hs
  cases hs
  exact ⟨division, hd, hr⟩

/-! ## There is one division -/

section

variable {gap gap' : List Char} {parts parts' : List Part}

theorem Layout.ne_nil {piece rest : List Char} (h : Layout piece rest) : piece ≠ [] := by
  cases h <;> simp

theorem Lexeme.ne_nil {lexeme rest : List Char} (h : Lexeme lexeme rest) : lexeme ≠ [] := by
  cases h <;> simp

theorem WellCut.joined_cons_ne_nil {part : Part} (h : WellCut (part :: parts)) : joined (part :: parts) ≠ [] := by
  rw [joined_cons]
  exact List.append_ne_nil_of_left_ne_nil h.1.ne_nil _

/-- No part begins with a piece of layout. -/
theorem WellCut.not_layout (h : WellCut parts) {piece rest : List Char} (hp : Layout piece rest) :
    piece ++ rest ≠ joined parts := by
  intro heq
  cases parts with
  | nil => exact hp.ne_nil (List.append_eq_nil_iff.mp heq).1
  | cons part parts =>
    cases hp.stands.eq h.1.stands (by rw [heq, joined_cons])

/-- The gap in front of parts is the longest. -/
theorem Gap.eq (hg : Gap gap (joined parts)) (hg' : Gap gap' (joined parts')) (hw : WellCut parts) (hw' : WellCut parts')
    (h : gap ++ joined parts = gap' ++ joined parts') : gap = gap' ∧ joined parts = joined parts' := by
  generalize hr : joined parts = rest at hg h ⊢
  induction hg generalizing gap' with
  | nil =>
    generalize hr' : joined parts' = rest' at hg' h ⊢
    cases hg' with
    | nil => exact ⟨rfl, h⟩
    | cons hp' =>
      rw [List.nil_append, List.append_assoc] at h
      exact absurd (hr.trans h).symm (hw.not_layout hp')
  | @cons piece gap rest hp hg ih =>
    generalize hr' : joined parts' = rest' at hg' h ⊢
    cases hg' with
    | nil =>
      rw [List.nil_append, List.append_assoc] at h
      exact absurd (h.trans hr'.symm) (hw'.not_layout hp)
    | @cons piece' gap' _ hp' hg' =>
      rw [List.append_assoc, List.append_assoc] at h
      have fronts := hp.stands.eq hp'.stands h
      rw [Front.mk.injEq] at fronts
      obtain ⟨-, rfl, hrest⟩ := fronts
      subst hr'
      obtain ⟨rfl, hj⟩ := ih hg' hr hrest
      exact ⟨rfl, hj⟩

/-- Parts are determined by their text. -/
theorem WellCut.eq (hw : WellCut parts) (hw' : WellCut parts') (h : joined parts = joined parts') : parts = parts' := by
  induction parts generalizing parts' with
  | nil =>
    cases parts' with
    | nil => rfl
    | cons part' parts' => exact absurd h.symm hw'.joined_cons_ne_nil
  | cons part parts ih =>
    cases parts' with
    | nil => exact absurd h hw.joined_cons_ne_nil
    | cons part' parts' =>
      obtain ⟨hl, hg, hw⟩ := hw
      obtain ⟨hl', hg', hw'⟩ := hw'
      have fronts := hl.stands.eq hl'.stands (by rwa [joined_cons, joined_cons] at h)
      rw [Front.mk.injEq] at fronts
      obtain ⟨-, lexeme_eq, hrest⟩ := fronts
      obtain ⟨gap_eq, hj⟩ := hg.eq hg' hw hw' hrest
      rw [ih hw hw' hj, Part.ext lexeme_eq gap_eq]

/-- A text has at most one division. -/
theorem Division.Divides.eq {d d' : Division} {text : List Char} (h : d.Divides text) (h' : d'.Divides text) :
    d = d' := by
  obtain ⟨gap_eq, hj⟩ := h.gap.eq h'.gap h.parts h'.parts (h.text_eq.trans h'.text_eq.symm)
  exact Division.ext gap_eq (h.parts.eq h'.parts hj)

end

/-- The texts that are scanned are those that can be divided into gaps and lexemes. The division is unique, and the tokens
are its lexemes, each where it stands. -/
theorem scan_divides (text : String) :
    ((∃ tokens, scan text = .ok tokens) ↔ ∃ division : Division, division.Divides text.toList) ∧
      (∀ d d' : Division, d.Divides text.toList → d'.Divides text.toList → d = d') ∧
      ∀ tokens (division : Division), scan text = .ok tokens → division.Divides text.toList →
        Reports division.gap division.parts tokens := by
  refine ⟨⟨fun ⟨tokens, h⟩ => exists_divides_of_scanFrom h, fun ⟨division, h⟩ => ?_⟩, ?_, ?_⟩
  · obtain ⟨tokens, hs, -⟩ := h.scan_eq
    exact ⟨tokens, hs⟩
  · exact fun d d' h h' => h.eq h'
  · intro tokens division hscan h
    obtain ⟨tokens', hs, hr⟩ := h.scan_eq
    rw [hscan] at hs
    cases hs
    exact hr

/-- A comment with a quote in it, a slash that begins no comment, and opening marks inside quotes. -/
def sampleText : String :=
  " x/*\"*/\n/ \"/*\"//"

def sampleDivision : Division :=
  ⟨[' '], [⟨['x'], "/*\"*/\n".toList⟩, ⟨['/'], [' ']⟩, ⟨"\"/*\"".toList, "//".toList⟩]⟩

theorem sampleDivision_divides : sampleDivision.Divides sampleText.toList where
  text_eq := by decide
  gap := .of_blank (by decide) .nil
  parts := by
    have block (rest : List Char) : Layout ("/*\"*/".toList) rest := by
      change Layout ('/' :: '*' :: (['"'] ++ ['*', '/'])) rest
      exact .block (by decide)
    have quoted (rest : List Char) : Lexeme ("\"/*\"".toList) rest := by
      change Lexeme ('"' :: (['/', '*'] ++ ['"'])) rest
      have codes : ['/', '*'].all (fun c => c.toNat ≤ maxConstant) = true := by decide
      exact .string (by decide) (by decide) (by simpa using codes)
    refine ⟨.word (by decide) (by decide) (by rintro _ ⟨⟩; decide), ?_, ?_⟩
    · exact .cons (block _) (.of_blank (by decide) .nil)
    refine ⟨.symbol (by decide) (by rintro - _ ⟨⟩; decide), .of_blank (by decide) .nil, quoted _, ?_, trivial⟩
    exact .cons (.line List.not_mem_nil (by simp)) .nil

/-- The sample is scanned to its three lexemes, and it has no other division. -/
theorem scan_divides_sample :
    (∃ tokens, scan sampleText = .ok tokens) ∧
      (∀ d : Division, d.Divides sampleText.toList → d = sampleDivision) ∧
      Reports sampleDivision.gap sampleDivision.parts
        [⟨.identifier "x", ⟨1, 2⟩⟩, ⟨.symbol '/', ⟨2, 1⟩⟩, ⟨.string "/*", ⟨2, 3⟩⟩] := by
  obtain ⟨accepted, unique, reported⟩ := scan_divides sampleText
  refine ⟨accepted.mpr ⟨_, sampleDivision_divides⟩, fun d h => unique d _ h sampleDivision_divides, ?_⟩
  exact reported _ _ (by decide +kernel) sampleDivision_divides

end JackCompiler
