import JackCompiler.Proofs.CommandLine.Courses
import JackCompiler.Proofs.Generation.Located
import JackCompiler.Proofs.Scanning.Shown

/-!
# The caret of a diagnostic

An error at a place is shown with the line of the text in its row and, below, a caret. The quoted line stands behind a gutter
with the number of the row, padded to the width of four digits, and the caret behind a gutter of that width. So the caret
stands under the character in the column of the error up to row 9999, and each further digit of the row leaves it one
column more to the left (`carets_point`, `caret_left_of_character`). Columns are counted without the control sequences that
are put in for the styles (`Coloured`).
-/

namespace JackCompiler

/-- Some text with control sequences put in between its characters. -/
inductive Coloured : List Char → List Char → Prop
  | nil : Coloured [] []
  | char {c : Char} {plain shown : List Char} (h : Coloured plain shown) : Coloured (c :: plain) (c :: shown)
  | control {number : String} {plain shown : List Char} (hn : number.toList.all Char.isDigit = true)
    (h : Coloured plain shown) : Coloured plain ((Style.control number).toList ++ shown)

/-- What is shown of an error, without the styles. -/
def Diagnostic.shown (e : Error) (file source : String) : String :=
  String.join ((lines e file source).map fun text => Run.line text.content)

/-- The end of what is shown of an error: a line of the source behind a gutter, and a caret behind what stands in front of
it in the last line. -/
@[ext] structure Pointer where
  above : List Char
  gutter : List Char
  quoted : List Char
  under : List Char

namespace Pointer

/-- The characters that are shown. -/
def text (pointer : Pointer) : List Char :=
  pointer.above ++ '\n' :: (pointer.gutter ++ pointer.quoted ++ '\n' :: (pointer.under ++ ['^', '\n']))

/-- Where a character of the quoted line is shown, given its column in the source. -/
def column (pointer : Pointer) (col : Nat) : Nat :=
  pointer.gutter.length + (col - 1)

/-- Where the caret is shown. -/
def caret (pointer : Pointer) : Nat :=
  pointer.under.length

/-- The last two lines are those of the pointer, and the one that is quoted is the line of the source in the row of a place,
with a character in its column. -/
structure Shows (pointer : Pointer) (source : List Char) (p : Position) : Prop where
  gutter_notMem : '\n' ∉ pointer.gutter
  under_notMem : '\n' ∉ pointer.under
  line_eq : lineAt? (p.row - 1) source = some pointer.quoted
  exists_char : ∃ c, pointer.quoted[p.col - 1]? = some c

end Pointer

/-! ## Styles take no column -/

section

variable {plain shown plain' shown' : List Char}

theorem Coloured.append (h : Coloured plain shown) (h' : Coloured plain' shown') :
    Coloured (plain ++ plain') (shown ++ shown') := by
  induction h with
  | nil => exact h'
  | char _ ih => exact ih.char
  | control hn _ ih =>
    rw [List.append_assoc]
    exact ih.control hn

theorem Coloured.of_plain (cs : List Char) : Coloured cs cs := by
  induction cs with
  | nil => exact .nil
  | cons c cs ih => exact ih.char

/-- A switch to a style is one control sequence, if there is anything to switch. -/
theorem coloured_switch {same : Prop} [Decidable same] {number : String} (hn : number.toList.all Char.isDigit = true) :
    Coloured [] (if same then "" else Style.control number).toList := by
  split
  · exact .nil
  · have sequence := Coloured.nil.control hn
    rwa [List.append_nil] at sequence

theorem coloured_change (old new : Style) : Coloured [] (old.change new).toList := by
  rw [Style.change, String.toList_append, String.toList_append]
  refine ((coloured_switch ?colour).append (coloured_switch ?bold)).append (coloured_switch ?underline)
  case colour =>
    rcases new.colour with _ | colour
    · decide
    · cases colour <;> decide
  case bold => split <;> decide
  case underline => split <;> decide

theorem coloured_renderFrom (current : Style) (text : StyledText) :
    Coloured text.content.toList (text.renderFrom current).toList := by
  induction text generalizing current with
  | nil => exact coloured_change _ _
  | cons piece rest ih =>
    rw [StyledText.content, List.map_cons, String.join_cons, StyledText.renderFrom, String.toList_append,
      String.toList_append, String.toList_append]
    exact ((coloured_change _ _).append (.of_plain _)).append (ih _)

/-- A diagnostic is what is shown, with control sequences put in. -/
theorem coloured_diagnostic (e : Error) (file source : String) :
    Coloured (Diagnostic.shown e file source).toList (Run.diagnostic e file source).toList := by
  rw [Diagnostic.shown, Run.diagnostic]
  induction Diagnostic.lines e file source with
  | nil => exact .nil
  | cons text texts ih =>
    rw [Run.styledLines_cons, List.map_cons, String.join_cons, Run.line, String.append_assoc]
    simp only [String.toList_append]
    exact (coloured_renderFrom _ _).append ((Coloured.of_plain _).append ih)

end

/-! ## The columns of a pointer -/

section

variable {cs ds rest rest' source line : List Char} {e : Error} {p : Position} {file text : String}

/-- What stands in front of the first newline is determined. -/
theorem eq_of_append_newline (hc : '\n' ∉ cs) (hd : '\n' ∉ ds) (h : cs ++ '\n' :: rest = ds ++ '\n' :: rest') :
    cs = ds ∧ rest = rest' := by
  have front {cs : List Char} (rest : List Char) (hc : '\n' ∉ cs) : (cs ++ '\n' :: rest).takeWhile (· ≠ '\n') = cs := by
    rw [List.takeWhile_append_of_pos (forall_ne_newline hc), List.takeWhile_cons_of_neg (by simp), List.append_nil]
  have same : cs = ds := by rw [← front rest hc, h, front rest' hd]
  subst same
  exact ⟨rfl, (List.cons.inj (List.append_cancel_left h)).2⟩

theorem notMem_of_dropCarriageReturn (h : '\n' ∉ cs) : '\n' ∉ dropCarriageReturn cs := by
  rw [dropCarriageReturn]
  split
  · exact fun mem => h (List.dropLast_subset cs mem)
  · exact h

/-- A line of a text holds no newline. -/
theorem newline_notMem_lineAt? {n : Nat} (h : lineAt? n source = some line) : '\n' ∉ line := by
  induction n generalizing source with
  | zero =>
    cases source with
    | nil => cases h
    | cons c source =>
      have front : '\n' ∉ (c :: source).takeWhile (· ≠ '\n') := fun mem => by
        simpa using List.all_eq_true.mp List.all_takeWhile _ mem
      rw [lineAt?] at h
      split at h
      · cases h
        exact notMem_of_dropCarriageReturn front
      · cases h
        exact front
  | succ n ih =>
    cases source with
    | nil => cases h
    | cons c source => exact ih h

/-- What is shown of a place determines what is quoted and where the caret stands. -/
theorem Pointer.Shows.eq {pointer other : Pointer} (h : pointer.Shows source p) (h' : other.Shows source p)
    (ht : pointer.text = other.text) : pointer = other := by
  have quoted : pointer.quoted = other.quoted := Option.some.inj (h.line_eq.symm.trans h'.line_eq)
  have line {pointer : Pointer} (h : pointer.Shows source p) : '\n' ∉ (pointer.gutter ++ pointer.quoted).reverse := by
    rw [List.mem_reverse, List.mem_append, not_or]
    exact ⟨h.gutter_notMem, newline_notMem_lineAt? h.line_eq⟩
  have backwards := congrArg List.reverse ht
  simp only [text, List.reverse_append, List.reverse_cons, List.reverse_nil, List.nil_append, List.append_assoc,
    List.cons_append, List.cons.injEq, true_and] at backwards
  obtain ⟨under, backwards⟩ := eq_of_append_newline (by simpa using h.under_notMem) (by simpa using h'.under_notMem) backwards
  rw [← List.append_assoc, ← List.append_assoc, ← List.reverse_append, ← List.reverse_append] at backwards
  obtain ⟨lines, above⟩ := eq_of_append_newline (line h) (line h') backwards
  have lines := List.reverse_inj.mp lines
  rw [quoted] at lines
  exact Pointer.ext (List.reverse_inj.mp above) (List.append_cancel_right lines) quoted (List.reverse_inj.mp under)

/-- The lines that end in the caret, for a line of the source and a place in it. -/
def pointerAt (e : Error) (file : String) (p : Position) (line : List Char) : Pointer where
  above := (Run.line (Diagnostic.headline e).content ++
    (Run.line (Diagnostic.fileLine (file ++ ":" ++ p.text)).content ++ Diagnostic.margin.content)).toList
  gutter := (" " ++ (padLeft Diagnostic.rowWidth (toString p.row) ++ " |" ++ " ")).toList
  quoted := line
  under := (Diagnostic.margin.content ++ (" " ++ "".pushn ' ' (p.col - 1))).toList

/-- What is shown of an error at a place ends in these lines. -/
theorem text_pointerAt (hp : e.position? = some p) (hline : lineAt? (p.row - 1) text.toList = some line) :
    (pointerAt e file p line).text = (Diagnostic.shown e file text).toList := by
  have quoted : Diagnostic.sourceLine text p.row = String.ofList line := by
    rw [Diagnostic.sourceLine, hline, Option.getD_some]
  have lines : Diagnostic.lines e file text = [Diagnostic.headline e, Diagnostic.fileLine (file ++ ":" ++ p.text),
      Diagnostic.margin, Diagnostic.quotedLine text p.row, Diagnostic.caretLine p.col] := by
    rw [Diagnostic.lines, hp]
  rw [Diagnostic.shown, lines, Diagnostic.quotedLine, quoted, Pointer.text, pointerAt]
  simp [Run.line, StyledText.content, Diagnostic.caretLine, Diagnostic.margin]

/-- The gutter grows with the number of the row. -/
theorem column_pointerAt : (pointerAt e file p line).column p.col =
    (pointerAt e file p line).caret + ((toString p.row).length - Diagnostic.rowWidth) := by
  have blank : " ".length = 1 := rfl
  have bar : " |".length = 2 := rfl
  have margin : Diagnostic.margin.content.length = 7 := rfl
  have gutter : (pointerAt e file p line).gutter.length = max Diagnostic.rowWidth (toString p.row).length + 4 := by
    simp only [pointerAt, String.length_toList, String.length_append, padLeft, String.length_pushn, String.length_empty,
      blank, bar]
    omega
  have under : (pointerAt e file p line).caret = 8 + (p.col - 1) := by
    simp only [Pointer.caret, pointerAt, String.length_toList, String.length_append, String.length_pushn,
      String.length_empty, blank, margin]
    omega
  rw [Pointer.column, gutter, under, Diagnostic.rowWidth]
  omega

theorem newline_notMem_pushn (n : Nat) : '\n' ∉ ("".pushn ' ' n).toList := by
  induction n with
  | zero => decide
  | succ n ih =>
    rw [String.pushn_eq_repeat_push, Nat.repeat, ← String.pushn_eq_repeat_push, String.toList_push, List.mem_append, not_or]
    exact ⟨ih, by decide⟩

theorem newline_notMem_toString (n : Nat) : '\n' ∉ (toString n).toList := by
  intro mem
  rw [Nat.toString_eq_ofList_toDigits, String.toList_ofList] at mem
  exact absurd (Nat.isDigit_of_mem_toDigits (by decide) (by decide) mem) (by decide)

/-- They show a place that is in the source. -/
theorem shows_pointerAt (e : Error) (file : String) {item : List Char} (h : ShownAt text.toList item p) :
    ∃ line, lineAt? (p.row - 1) text.toList = some line ∧ (pointerAt e file p line).Shows text.toList p := by
  obtain ⟨line, c, hline, hc, -⟩ := h.exists_line
  refine ⟨line, hline, ?_, ?_, hline, c, hc⟩
  · simp only [pointerAt, padLeft, String.toList_append, List.mem_append, not_or]
    exact ⟨by decide, ⟨⟨newline_notMem_pushn _, newline_notMem_toString _⟩, by decide⟩, by decide⟩
  · simp only [pointerAt, String.toList_append, List.mem_append, not_or]
    exact ⟨by decide, by decide, newline_notMem_pushn _⟩

end

/-! ## Main statement -/

section

variable {strict : Bool} {text : String} {e : Error} {p : Position}

/-- An error of a text that is not outside of it stands at something that is shown. -/
theorem shownAt_of_compileText (h : compileText strict text = .error e) (hp : e.position? = some p) (hr : 1 ≤ p.row) :
    ∃ item, ShownAt text.toList item p := by
  unfold compileText at h
  split at h
  · next tokens hscan =>
    rcases place_of_compile h with ⟨token, ht, hq⟩ | ⟨-, hq⟩ | ⟨callee, n, name, -, -, rfl⟩
    · cases hp.symm.trans hq
      obtain ⟨spelling, spelt⟩ := exists_spelling_of_scan hscan ht
      exact ⟨spelling, spelt.itemAt.shownAt spelt.isVisible⟩
    · cases hp.symm.trans hq
      exact absurd hr (by decide)
    · cases hp
  · next cause hscan =>
    cases h
    cases hp
    obtain ⟨halt, hh, hd⟩ := exists_defect_of_scan hscan
    exact ⟨cause.item, (hh.itemAt hd).shownAt hd.isVisible⟩

/-- The diagnostic of an error at a place of a text ends in the line of its row and a caret. The caret stands under the
character in its column when the number of the row has at most four digits, and else as many columns to the left of it as
there are further digits. -/
theorem carets_point (h : compileText strict text = .error e) (hp : e.position? = some p) (hr : 1 ≤ p.row)
    (file : String) :
    Coloured (Diagnostic.shown e file text).toList (Run.diagnostic e file text).toList ∧
      ∃ pointer : Pointer, pointer.text = (Diagnostic.shown e file text).toList ∧ pointer.Shows text.toList p ∧
        pointer.column p.col = pointer.caret + ((toString p.row).length - Diagnostic.rowWidth) ∧
        (pointer.caret = pointer.column p.col ↔ p.row < 10000) := by
  obtain ⟨item, shown⟩ := shownAt_of_compileText h hp hr
  obtain ⟨line, hline, shows⟩ := shows_pointerAt e file shown
  have column : (pointerAt e file p line).column p.col =
      (pointerAt e file p line).caret + ((toString p.row).length - Diagnostic.rowWidth) := column_pointerAt
  have digits : (toString p.row).length ≤ Diagnostic.rowWidth ↔ p.row < 10000 :=
    Nat.length_repr_le_iff (by decide)
  refine ⟨coloured_diagnostic e file text, _, text_pointerAt hp hline, shows, column, ?_⟩
  rw [column, ← digits]
  omega

end

/-- A name that is not declared, in the tenth column of the second row. -/
theorem carets_point_sample :
    let undeclared := "class A \x7b function int f() \x7b\n  return x; \x7d \x7d"
    let e : Error := .name (.undefined "x" (some ⟨2, 10⟩))
    compileText false undeclared = .error e ∧
      ∃ pointer : Pointer, pointer.text = (Diagnostic.shown e "A.jack" undeclared).toList ∧
        pointer.Shows undeclared.toList ⟨2, 10⟩ ∧ pointer.caret = pointer.column 10 := by
  intro undeclared e
  have failed : compileText false undeclared = .error e := by decide +kernel
  obtain ⟨-, pointer, text_eq, shows, -, under⟩ := carets_point failed rfl (by decide) "A.jack"
  exact ⟨failed, pointer, text_eq, shows, under.mpr (by decide)⟩

/-- A character that begins nothing, behind empty rows. -/
def rowsDown (rows : Nat) : String :=
  String.ofList (List.replicate rows '\n' ++ ['#'])

theorem gap_newlines (rows : Nat) (rest : List Char) : Gap (List.replicate rows '\n') rest := by
  induction rows with
  | zero => exact .nil
  | succ rows ih => exact .of_blank (by decide) ih

theorem after_newlines (rows row : Nat) : Position.after ⟨row, 1⟩ (List.replicate rows '\n') = ⟨row + rows, 1⟩ := by
  induction rows generalizing row with
  | zero => rfl
  | succ rows ih =>
    rw [List.replicate_succ, Position.after_cons, Position.next, if_pos rfl, ih, Nat.add_assoc, Nat.add_comm 1]

theorem compileText_rowsDown (strict : Bool) (rows : Nat) :
    compileText strict (rowsDown rows) = .error (.lex (.unexpectedChar '#' ⟨1 + rows, 1⟩)) := by
  have defect (p : Position) : Defect p ['#'] (.unexpectedChar '#' p) :=
    .char (by decide) (by decide) (by decide) (by decide) (by decide)
  have scanned : scan (rowsDown rows) = .error (.unexpectedChar '#' ⟨1 + rows, 1⟩) := by
    rw [scan, rowsDown, String.toList_ofList, (gap_newlines rows _).scanFrom_append, (defect _).scanFrom_eq, Position.start,
      after_newlines]
  rw [compileText, scanned]

/-- In the row after 9999 empty ones the caret is one column to the left of the character. -/
theorem caret_left_of_character :
    ¬∀ (strict : Bool) (text : String) (e : Error) (p : Position) (file : String), compileText strict text = .error e →
      e.position? = some p → 1 ≤ p.row → 1 ≤ p.col →
      ∃ pointer : Pointer, pointer.text = (Diagnostic.shown e file text).toList ∧ pointer.Shows text.toList p ∧
        pointer.caret = pointer.column p.col := by
  intro under
  have failed := compileText_rowsDown false 9999
  have place : (Error.lex (.unexpectedChar '#' ⟨1 + 9999, 1⟩)).position? = some ⟨10000, 1⟩ := rfl
  obtain ⟨pointer, text_eq, shows, aligned⟩ := under _ _ _ _ "d.jack" failed place (by decide) (by decide)
  obtain ⟨item, shown⟩ := shownAt_of_compileText failed place (by decide)
  obtain ⟨line, hline, shows'⟩ := shows_pointerAt _ "d.jack" shown
  have digits : (toString 10000).length - Diagnostic.rowWidth = 1 := by decide
  rw [shows.eq shows' (text_eq.trans (text_pointerAt place hline).symm), column_pointerAt, digits] at aligned
  exact Nat.succ_ne_self _ aligned.symm

end JackCompiler
