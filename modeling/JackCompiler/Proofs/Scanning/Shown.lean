import JackCompiler.Proofs.Scanning.Defects
import JackCompiler.Proofs.Scanning.RoundTrip
import JackCompiler.Text.Lines

/-!
# What stands at a place

The scanner counts rows and columns, and a text is cut into lines by another rule, which drops a carriage return in front of
a newline. Both agree on every character that is neither: it stands in the line of its row, in its column
(`lineAt?_behind`). The lexeme of a token begins with such a character where the token stands (`exists_spelling_of_scan`), and
so does what an error in the characters is about (`Defect.itemAt`, `Defect.isVisible`).
-/

namespace JackCompiler

/-- An item stands in a text at a place. -/
def ItemAt (text item : List Char) (p : Position) : Prop :=
  ∃ before after, text = before ++ (item ++ after) ∧ p = .behind before

/-- A text has a line with the number of the row, which is long enough for the column, and there an item begins. Rows and
columns are counted from 1. -/
structure ShownAt (text item : List Char) (p : Position) : Prop where
  row_pos : 1 ≤ p.row
  col_pos : 1 ≤ p.col
  exists_line : ∃ cs c, lineAt? (p.row - 1) text = some cs ∧ cs[p.col - 1]? = some c ∧ item.head? = some c

/-- An item begins with a character that is not blank. -/
def IsVisible (item : List Char) : Prop :=
  ∃ c ∈ item.head?, isBlank c = false

/-- A token is spelt where it stands by a lexeme of its kind. -/
structure Token.SpelltBy (text : List Char) (token : Token) (spelling : List Char) : Prop where
  itemAt : ItemAt text spelling token.position
  classify_eq : ∀ p, classify (String.ofList spelling) p = .ok token.kind
  isVisible : IsVisible spelling

/-- What an error in the characters is about: the mark that opens a comment, the quote that opens a string constant, the
digits of a number, or one character. -/
def LexError.item : LexError → List Char
  | .unexpectedChar c _ | .stringCharOutOfRange c _ => [c]
  | .unterminatedString _ | .stringTooLong _ => ['"']
  | .unterminatedComment _ => ['/', '*']
  | .integerOutOfRange digits _ => digits.toList

/-! ## Lines -/

section

variable {before after first others rest more : List Char} {c : Char} {n : Nat}

/-- Characters that are no newlines stand in one line. -/
theorem forall_ne_newline (h : '\n' ∉ before) : ∀ d ∈ before, decide (d ≠ '\n') = true := by
  rintro d hd
  rw [decide_eq_true_eq]
  rintro rfl
  exact h hd

/-- Dropping a carriage return leaves the characters in front of it where they stand. -/
theorem getElem?_dropCarriageReturn (hc : c ≠ '\r') :
    (dropCarriageReturn (before ++ c :: more))[before.length]? = some c := by
  rw [dropCarriageReturn]
  split
  · next last =>
    cases more with
    | nil => simp [hc] at last
    | cons d more =>
      rw [List.dropLast_append_cons, List.dropLast_cons_cons, List.getElem?_append_right (Nat.le_refl _), Nat.sub_self]
      rfl
  · rw [List.getElem?_append_right (Nat.le_refl _), Nat.sub_self]
    rfl

theorem lineAt?_zero (hb : '\n' ∉ before) (hc : c ≠ '\n') (hc' : c ≠ '\r') :
    ∃ cs, lineAt? 0 (before ++ c :: after) = some cs ∧ cs[before.length]? = some c := by
  obtain ⟨d, ds, text⟩ : ∃ d ds, before ++ c :: after = d :: ds := List.exists_cons_of_ne_nil (by simp)
  rw [text, lineAt?, ← text, List.takeWhile_append_of_pos (forall_ne_newline hb),
    List.takeWhile_cons_of_pos (by simpa using hc)]
  split
  · exact ⟨_, rfl, getElem?_dropCarriageReturn hc'⟩
  · refine ⟨_, rfl, ?_⟩
    rw [List.getElem?_append_right (Nat.le_refl _), Nat.sub_self]
    rfl

/-- The lines behind a newline are counted on. -/
theorem lineAt?_succ (hf : '\n' ∉ first) : lineAt? (n + 1) (first ++ '\n' :: rest) = lineAt? n rest := by
  obtain ⟨d, ds, text⟩ : ∃ d ds, first ++ '\n' :: rest = d :: ds := List.exists_cons_of_ne_nil (by simp)
  rw [text, lineAt?, ← text, List.dropWhile_append_of_pos (forall_ne_newline hf), List.dropWhile_cons_of_neg (by simp)]
  rfl

/-- A newline starts a row. -/
theorem Position.behind_append_newline (hf : '\n' ∉ first) :
    behind (first ++ '\n' :: others) = ⟨(behind others).row + 1, (behind others).col⟩ := by
  have none : first.count '\n' = 0 := List.count_eq_zero.mpr hf
  have column : ((first ++ '\n' :: others).reverse.takeWhile (· ≠ '\n')) = others.reverse.takeWhile (· ≠ '\n') := by
    rw [List.reverse_append, List.reverse_cons, List.append_assoc, List.takeWhile_append]
    split
    · next all =>
      rw [List.singleton_append, List.takeWhile_cons_of_neg (by simp), List.append_nil]
      exact ((List.takeWhile_prefix _).eq_of_length all).symm
    · rfl
  rw [behind, column, List.count_append, none, List.count_cons_self, behind]
  simp [Nat.add_assoc]

/-- A character that ends no line stands in the line of its row, in its column. -/
theorem lineAt?_behind (before after : List Char) (hc : c ≠ '\n') (hc' : c ≠ '\r') :
    ∃ cs, lineAt? ((Position.behind before).row - 1) (before ++ c :: after) = some cs ∧
      cs[(Position.behind before).col - 1]? = some c := by
  induction hn : before.length using Nat.strongRecOn generalizing before with
  | ind n ih =>
    by_cases newline : '\n' ∈ before
    · obtain ⟨first, others, rfl, hf⟩ := List.eq_append_cons_of_mem newline
      have shorter : others.length < n := by
        rw [← hn, List.length_append, List.length_cons]
        omega
      obtain ⟨line, hline, hcolumn⟩ := ih _ shorter others rfl
      refine ⟨line, ?_, ?_⟩
      · rw [Position.behind_append_newline hf, List.append_assoc, List.cons_append]
        rw [Position.behind, Nat.add_sub_cancel_left] at hline
        rw [Position.behind, Nat.add_sub_cancel, Nat.add_comm, lineAt?_succ hf, hline]
      · rwa [Position.behind_append_newline hf]
    · have all : before.reverse.takeWhile (· ≠ '\n') = before.reverse := by
        rw [← List.append_nil before.reverse, List.takeWhile_append_of_pos, List.takeWhile_nil]
        exact forall_ne_newline (by rwa [List.mem_reverse])
      rw [Position.behind, all, List.count_eq_zero.mpr newline, List.length_reverse, Nat.add_sub_cancel_left,
        Nat.add_sub_cancel_left]
      exact lineAt?_zero newline hc hc'

/-- An item that begins with a character that is not blank is shown where it stands. -/
theorem ItemAt.shownAt {text item : List Char} {p : Position} (h : ItemAt text item p) (hv : IsVisible item) :
    ShownAt text item p := by
  obtain ⟨before, after, rfl, rfl⟩ := h
  obtain ⟨c, hc, visible⟩ := hv
  obtain ⟨more, rfl⟩ : ∃ more, item = c :: more := List.head?_eq_some_iff.mp hc
  have noNewline : c ≠ '\n' := by
    rintro rfl
    exact absurd visible (by decide)
  have noReturn : c ≠ '\r' := by
    rintro rfl
    exact absurd visible (by decide)
  obtain ⟨line, hline, hcolumn⟩ := lineAt?_behind before (more ++ after) noNewline noReturn
  exact ⟨Nat.le_add_right 1 _, Nat.le_add_right 1 _, line, c, hline, hcolumn, rfl⟩

/-! ## Positions keep characters apart -/

/-- Behind some characters a position is further down, or further to the right in the same row. -/
theorem Position.lt_after {p : Position} {cs : List Char} (h : cs ≠ []) :
    p.row < (p.after cs).row ∨ p.row = (p.after cs).row ∧ p.col < (p.after cs).col := by
  have step (p : Position) (c : Char) : p.row < (p.next c).row ∨ p.row = (p.next c).row ∧ p.col < (p.next c).col := by
    rw [next]
    split
    · exact .inl (Nat.lt_succ_self _)
    · exact .inr ⟨rfl, Nat.lt_succ_self _⟩
  induction cs generalizing p with
  | nil => exact absurd rfl h
  | cons c cs ih =>
    rw [after_cons]
    by_cases hcs : cs = []
    · rw [hcs]
      exact step p c
    · have first := step p c
      have others := ih (p := p.next c) hcs
      omega

/-- The beginnings of a text end at different positions. -/
theorem Position.behind_inj {before' after' : List Char} (ht : before ++ after = before' ++ after')
    (h : behind before = behind before') : before = before' := by
  have nothing {cs ds : List Char} (h : behind cs = behind (cs ++ ds)) : ds = [] := by
    by_contra hds
    have further := lt_after (p := behind cs) hds
    rw [after_behind, ← h] at further
    omega
  rcases List.append_eq_append_iff.mp ht with ⟨cs, rfl, -⟩ | ⟨cs, rfl, -⟩
  · rw [nothing h, List.append_nil]
  · rw [nothing h.symm, List.append_nil]

end

/-! ## Tokens -/

/-- A lexeme begins with a character that is not blank. -/
theorem Lexeme.isVisible {lexeme rest : List Char} (h : Lexeme lexeme rest) : IsVisible lexeme := by
  cases h with
  | word hc => exact ⟨_, rfl, isBlank_of_isIdentifierStart hc⟩
  | digits hc => exact ⟨_, rfl, isBlank_of_isDigit hc⟩
  | symbol hc => exact ⟨_, rfl, (class_of_symbol hc).1⟩
  | string => exact ⟨_, rfl, by decide⟩

theorem joined_eq_take_append {parts : List Part} (i : Nat) : joined parts = joined (parts.take i) ++ joined (parts.drop i) := by
  rw [joined, joined, joined, ← List.flatMap_append, List.take_append_drop]

/-- Every further part has a lexeme, so the text is longer. -/
theorem WellCut.take_inj {parts : List Part} (h : WellCut parts) {i j : Nat} (hi : i ≤ parts.length) (hj : j ≤ parts.length)
    (heq : joined (parts.take i) = joined (parts.take j)) : i = j := by
  induction parts generalizing i j with
  | nil =>
    rw [List.length_nil] at hi hj
    omega
  | cons part parts ih =>
    have longer (k : Nat) : joined ((part :: parts).take (k + 1)) ≠ [] := by
      rw [List.take_succ_cons, joined_cons]
      exact List.append_ne_nil_of_left_ne_nil h.1.ne_nil _
    cases i with
    | zero =>
      cases j with
      | zero => rfl
      | succ j => exact absurd heq.symm (longer j)
    | succ i =>
      cases j with
      | zero => exact absurd heq (longer i)
      | succ j =>
        rw [List.take_succ_cons, List.take_succ_cons, joined_cons, joined_cons] at heq
        rw [ih h.2.2 (Nat.le_of_succ_le_succ hi) (Nat.le_of_succ_le_succ hj)
          (List.append_cancel_left (List.append_cancel_left heq))]

section

variable {text : String} {tokens : List Token}

/-- Every token that is scanned is spelt where it stands. -/
theorem exists_spelling_of_scan (h : scan text = .ok tokens) {token : Token} (ht : token ∈ tokens) :
    ∃ spelling, token.SpelltBy text.toList spelling := by
  obtain ⟨division, hd, hr⟩ := exists_reports_of_scan h
  obtain ⟨i, hi, hti⟩ := List.getElem_of_mem ht
  have here : tokens[i]? = some token := List.getElem?_eq_some_iff.mpr ⟨hi, hti⟩
  have hip : i < division.parts.length := hr.length_eq ▸ hi
  obtain ⟨rest, hl⟩ := hd.parts.exists_lexeme (List.getElem_mem hip)
  refine ⟨division.parts[i].lexeme, ⟨division.gap ++ joined (division.parts.take i),
    division.parts[i].gap ++ joined (division.parts.drop (i + 1)), ?_, hr.position_eq i token here⟩, ?_, hl.isVisible⟩
  · rw [← hd.text_eq, joined_eq_take_append i, List.drop_eq_getElem_cons hip, joined_cons, List.append_assoc]
  · exact hr.kind_eq i _ token (List.getElem?_eq_getElem hip) here

/-- Two tokens that are scanned stand at different positions. -/
theorem eq_of_position_eq (h : scan text = .ok tokens) {i j : Nat} {token other : Token} (hi : tokens[i]? = some token)
    (hj : tokens[j]? = some other) (hp : token.position = other.position) : i = j := by
  obtain ⟨division, hd, hr⟩ := exists_reports_of_scan h
  have bound {k : Nat} {token : Token} (hk : tokens[k]? = some token) : k ≤ division.parts.length := by
    rw [← hr.length_eq]
    exact Nat.le_of_lt (List.getElem?_eq_some_iff.mp hk).1
  rw [hr.position_eq i token hi, hr.position_eq j other hj] at hp
  have whole (k : Nat) : (division.gap ++ joined (division.parts.take k)) ++ joined (division.parts.drop k) = text.toList := by
    rw [List.append_assoc, ← joined_eq_take_append, hd.text_eq]
  have joined_eq := List.append_cancel_left (Position.behind_inj ((whole i).trans (whole j).symm) hp)
  exact hd.parts.take_inj (bound hi) (bound hj) joined_eq

end

/-! ## Errors in the characters -/

/-- Where scanning fails, a defect stands. -/
theorem exists_defect_of_scan {text : String} {e : LexError} (h : scan text = .error e) :
    ∃ halt : Halt, halt.Of text.toList ∧ Defect (.behind halt.before) halt.rest e := by
  obtain ⟨halt, hh⟩ := exists_halt text.toList
  refine ⟨halt, hh, ?_⟩
  by_cases hr : halt.rest = []
  · obtain ⟨tokens, scanned⟩ := hh.exists_tokens hr
    rw [h] at scanned
    cases scanned
  · obtain ⟨e', hd⟩ := hh.stuck.exists_defect hr (.behind halt.before)
    have failed := hd.scan_eq hh
    rw [h] at failed
    cases failed
    exact hd

section

variable {before rest : List Char} {e : LexError}

/-- What an error in the characters is about stands at its place. -/
theorem Defect.itemAt (h : Defect (.behind before) rest e) : ItemAt (before ++ rest) e.item e.position := by
  cases h with
  | comment => exact ⟨before, _, rfl, rfl⟩
  | @string body rest e hb hc hl he =>
    cases he with
    | @outOfRange c rest hc =>
      refine ⟨before ++ '"' :: body, rest, by simp [LexError.item], ?_⟩
      rw [← Position.after_behind]
      rfl
    | tooLong => exact ⟨before, _, rfl, rfl⟩
    | unterminated => exact ⟨before, _, rfl, rfl⟩
  | integer => exact ⟨before, _, by rw [LexError.item, String.toList_ofList], rfl⟩
  | char => exact ⟨before, _, rfl, rfl⟩

/-- It stands there in the whole text. -/
theorem Halt.Of.itemAt {halt : Halt} {text : List Char} (h : halt.Of text)
    (hd : Defect (.behind halt.before) halt.rest e) : ItemAt text e.item e.position := by
  rw [← h.text_eq]
  exact hd.itemAt

/-- What an error in the characters is about begins with a character that is not blank. -/
theorem Defect.isVisible {p : Position} (h : Defect p rest e) : IsVisible e.item := by
  cases h with
  | comment => exact ⟨_, rfl, by decide⟩
  | @string body rest e hb hc hl he =>
    cases he with
    | @outOfRange c rest hc =>
      refine ⟨c, rfl, ?_⟩
      rw [maxConstant] at hc
      simp only [isBlank, blankRanges, List.any_cons, List.any_nil, Bool.or_false, Bool.or_eq_false_iff,
        Bool.and_eq_false_iff, decide_eq_false_iff_not]
      omega
    | tooLong => exact ⟨_, rfl, by decide⟩
    | unterminated => exact ⟨_, rfl, by decide⟩
  | @integer c cs rest hc =>
    refine ⟨c, ?_, isBlank_of_isDigit hc⟩
    rw [LexError.item, String.toList_ofList]
    rfl
  | char hb => exact ⟨_, rfl, hb⟩

end

end JackCompiler
