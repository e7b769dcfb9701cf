import JackCompiler.Project.Outputs
import JackCompiler.Proofs.Code.Names
import JackCompiler.Proofs.Scanning.Listing

/-!
# Code is read again from its text

The text of an instruction is its words with one blank between them (`Instruction.toList_text`), and code is one line for
each instruction. A reader therefore cuts a text at its newlines and each line at its blanks. The words of an instruction tell
which it is as long as the name that it holds is a word (`Instruction.readLine?_text`), and all names in the code of source
texts are. Main statement: `code_is_read_again`.
-/

namespace JackCompiler

namespace Vm

/-! ## Reading instructions -/

/-- A text that is not empty. -/
def nonempty? (text : String) : Option String :=
  if text = "" then none else some text

/-- The segment and the number of an instruction that moves a word. -/
def move? (make : Segment → UInt16 → Instruction) (segment index : String) : Option Instruction :=
  (Segment.ofName? segment).bind fun segment => (Decimal.word? index).map (make segment)

/-- The name and the number of an instruction about a function. -/
def function? (make : String → UInt16 → Instruction) (name number : String) : Option Instruction :=
  (nonempty? name).bind fun name => (Decimal.word? number).map (make name)

namespace Instruction

/-- The words of an instruction: its command and its operands. -/
def words : Instruction → List String
  | .push segment index => ["push", segment.name, toString index.toNat]
  | .pop segment index => ["pop", segment.name, toString index.toNat]
  | .arithmetic command => [command.name]
  | .label name => ["label", name]
  | .goto name => ["goto", name]
  | .ifGoto name => ["if-goto", name]
  | .function name locals => ["function", name, toString locals.toNat]
  | .call name arguments => ["call", name, toString arguments.toNat]
  | .«return» => ["return"]

/-- The instruction with the given words. -/
def ofWords? : List String → Option Instruction
  | ["push", segment, index] => move? .push segment index
  | ["pop", segment, index] => move? .pop segment index
  | ["label", name] => (nonempty? name).map .label
  | ["goto", name] => (nonempty? name).map .goto
  | ["if-goto", name] => (nonempty? name).map .ifGoto
  | ["function", name, locals] => function? .function name locals
  | ["call", name, arguments] => function? .call name arguments
  | ["return"] => some .«return»
  | [command] => (Arithmetic.ofName? command).map .arithmetic
  | _ => none

end Instruction

/-- The instruction on a line. -/
def readLine? (line : List Char) : Option Instruction :=
  Instruction.ofWords? ((line.splitOn ' ').map String.ofList)

/-- The lines of a text in which a newline ends each line. -/
def lines? (text : List Char) : Option (List (List Char)) :=
  let parts := text.splitOn '\n'
  if parts.getLast? = some [] then some parts.dropLast else none

/-- The instructions that a text writes, if it writes instructions. -/
def read? (text : String) : Option (List Instruction) :=
  (lines? text.toList).bind fun lines => lines.mapM readLine?

/-! ## The words of instructions -/

theorem Segment.ofName?_name (segment : Segment) : ofName? segment.name = some segment := by
  cases segment <;> decide

theorem Arithmetic.ofName?_name (command : Arithmetic) : ofName? command.name = some command := by
  cases command <;> decide

theorem nonempty?_of_isWord {name : String} (h : IsWord name) : nonempty? name = some name :=
  if_neg h.nonempty

theorem move?_name (make : Segment → UInt16 → Instruction) (segment : Segment) (index : UInt16) :
    move? make segment.name (toString index.toNat) = some (make segment index) := by
  rw [move?, Segment.ofName?_name, Option.bind_some, Decimal.word?_toString, Option.map_some]

theorem function?_name (make : String → UInt16 → Instruction) {name : String} (h : IsWord name) (number : UInt16) :
    function? make name (toString number.toNat) = some (make name number) := by
  rw [function?, nonempty?_of_isWord h, Option.bind_some, Decimal.word?_toString, Option.map_some]

/-- Pieces without an element do not get it from what is put between them. -/
theorem notMem_intercalate {α : Type} {a x : α} (hx : a ≠ x) {pieces : List (List α)} (h : ∀ piece ∈ pieces, a ∉ piece) :
    a ∉ [x].intercalate pieces := by
  induction pieces with
  | nil => exact List.not_mem_nil
  | cons piece pieces ih =>
    obtain ⟨hpiece, hpieces⟩ := List.forall_mem_cons.mp h
    cases pieces with
    | nil => simpa using hpiece
    | cons next pieces =>
      rw [List.intercalate_cons_cons, List.mem_append, List.mem_append, List.mem_singleton, not_or, not_or]
      exact ⟨⟨hpiece, hx⟩, ih hpieces⟩

namespace Instruction

/-- The text of an instruction is its words with a blank between each two. -/
theorem toList_text (i : Instruction) : i.text.toList = [' '].intercalate (i.words.map String.toList) := by
  cases i <;> simp [text, words, List.intercalate]

variable {i : Instruction} (h : ∀ name, i.name? = some name → IsWord name)
include h

/-- An instruction is read from its words. -/
theorem ofWords?_words : ofWords? i.words = some i := by
  cases i with
  | push segment index => exact move?_name .push segment index
  | pop segment index => exact move?_name .pop segment index
  | arithmetic command => cases command <;> decide
  | label name => simp [words, ofWords?, nonempty?_of_isWord (h name rfl)]
  | goto name => simp [words, ofWords?, nonempty?_of_isWord (h name rfl)]
  | ifGoto name => simp [words, ofWords?, nonempty?_of_isWord (h name rfl)]
  | function name locals => exact function?_name .function (h name rfl) locals
  | call name arguments => exact function?_name .call (h name rfl) arguments
  | «return» => rfl

/-- The words of an instruction are words. -/
theorem isWord_of_mem_words : ∀ word ∈ i.words, IsWord word := by
  have segments (segment : Segment) : IsWord segment.name := by cases segment <;> decide
  have commands (command : Arithmetic) : IsWord command.name := by cases command <;> decide
  cases i <;> simp only [words, List.forall_mem_cons, List.not_mem_nil, false_implies, implies_true, and_true]
  case push segment index => exact ⟨by decide, segments segment, isWord_toString _⟩
  case pop segment index => exact ⟨by decide, segments segment, isWord_toString _⟩
  case arithmetic command => exact commands command
  case label name => exact ⟨by decide, h name rfl⟩
  case goto name => exact ⟨by decide, h name rfl⟩
  case ifGoto name => exact ⟨by decide, h name rfl⟩
  case function name locals => exact ⟨by decide, h name rfl, isWord_toString _⟩
  case call name arguments => exact ⟨by decide, h name rfl, isWord_toString _⟩
  case «return» => decide

/-- No instruction has a newline in its text. -/
theorem newline_notMem_text : '\n' ∉ i.text.toList := by
  rw [toList_text]
  refine notMem_intercalate (by decide) (List.forall_mem_map.mpr fun word hword => ?_)
  exact (isWord_of_mem_words h word hword).newline

/-- An instruction is read from its text. -/
theorem readLine?_text : readLine? i.text.toList = some i := by
  have blanks : ∀ word ∈ i.words.map String.toList, ' ' ∉ word :=
    List.forall_mem_map.mpr fun word hword => (isWord_of_mem_words h word hword).blank
  have some : i.words.map String.toList ≠ [] := by cases i <;> exact List.cons_ne_nil _ _
  rw [readLine?, toList_text, List.splitOn_intercalate ' ' blanks some, List.map_map]
  have same : String.ofList ∘ String.toList = id := funext fun word => String.ofList_toList
  rw [same, List.map_id, ofWords?_words h]

end Instruction

/-! ## Reading code -/

theorem render_eq (code : List Instruction) : render code = String.join (code.map fun i => i.text ++ "\n") := by
  rw [render, foldl_lines_eq Instruction.text, String.empty_append]

theorem render_append (code others : List Instruction) : render (code ++ others) = render code ++ render others := by
  rw [render_eq, render_eq, render_eq, List.map_append, String.join_append]

/-- The lines of a text that is put together from lines. -/
theorem lines?_flatMap {lines : List (List Char)} (h : ∀ line ∈ lines, '\n' ∉ line) :
    lines? (lines.flatMap (· ++ ['\n'])) = some lines := by
  have cut : (lines.flatMap (· ++ ['\n'])).splitOn '\n' = lines ++ [[]] := by
    induction lines with
    | nil => exact List.splitOn_nil _
    | cons line lines ih =>
      obtain ⟨hline, hlines⟩ := List.forall_mem_cons.mp h
      rw [List.flatMap_cons, List.append_assoc, List.singleton_append,
        List.splitOn_append_cons_self_of_not_mem hline, ih hlines, List.cons_append]
  rw [lines?, cut, List.getLast?_concat, if_pos rfl, List.dropLast_concat]

/-- Instructions are read from their texts one by one. -/
theorem mapM_readLine? {code : List Instruction} (h : ∀ i ∈ code, ∀ name, i.name? = some name → IsWord name) :
    (code.map (·.text.toList)).mapM readLine? = some code := by
  induction code with
  | nil => rfl
  | cons i code ih =>
    obtain ⟨hi, hcode⟩ := List.forall_mem_cons.mp h
    simp [List.mapM_cons, Instruction.readLine?_text hi, ih hcode]

/-- Code is read from its text as long as its names are words. -/
theorem read?_render {code : List Instruction} (h : ∀ i ∈ code, ∀ name, i.name? = some name → IsWord name) :
    read? (render code) = some code := by
  have text : (render code).toList = (code.map (·.text.toList)).flatMap (· ++ ['\n']) := by
    rw [render_eq, String.toList_join, List.flatMap_map, List.flatMap_map]
    simp
  have lines : ∀ line ∈ code.map (·.text.toList), '\n' ∉ line :=
    List.forall_mem_map.mpr fun i hi => Instruction.newline_notMem_text (h i hi)
  rw [read?, text, lines?_flatMap lines, Option.bind_some, mapM_readLine? h]

end Vm

/-- The combined text of classes is the text of their code one after another. -/
theorem combine_eq (classes : List CompiledClass) : combine classes = Vm.render (classes.flatMap (·.code)) := by
  induction classes with
  | nil => rfl
  | cons c classes ih =>
    rw [combine, List.map_cons, String.join_cons, List.flatMap_cons, Vm.render_append, ← ih, combine]

/-! ## Main statement -/

/-- A text that writes code and no other: it has one line for each instruction, each ended by its newline, and is read as
the code. -/
structure Vm.IsTextOf (text : String) (code : List Instruction) : Prop where
  lines : text = String.join (code.map fun i => i.text ++ "\n")
  newline : ∀ i ∈ code, '\n' ∉ i.text.toList
  read : read? text = some code

theorem Vm.isTextOf_render {code : List Instruction} (h : ∀ i ∈ code, ∀ name, i.name? = some name → IsWord name) :
    IsTextOf (render code) code :=
  ⟨render_eq code, fun i hi => Instruction.newline_notMem_text (h i hi), read?_render h⟩

/-- A class that some source text is compiled to. -/
def IsAccepted (r : CompiledClass) : Prop :=
  ∃ strict text, compileText strict text = .ok r

theorem IsAccepted.isWord {r : CompiledClass} (h : IsAccepted r) :
    ∀ i ∈ r.code, ∀ name, i.name? = some name → IsWord name := by
  obtain ⟨strict, text, h⟩ := h
  exact fun i hi name => isWord_of_compileText h hi

theorem isTextOf_combine {classes : List CompiledClass} (h : ∀ r ∈ classes, IsAccepted r) :
    Vm.IsTextOf (combine classes) (classes.flatMap (·.code)) := by
  rw [combine_eq]
  refine Vm.isTextOf_render fun i hi => ?_
  obtain ⟨r, hr, hi⟩ := List.mem_flatMap.mp hi
  exact (h r hr).isWord i hi

/-- The text of accepted code is read as the code, for one class and for the combined text of any classes. So classes with
the same text have the same code, and so have lists of classes with the same combined text. -/
theorem code_is_read_again :
    (∀ r, IsAccepted r → Vm.IsTextOf (Vm.render r.code) r.code) ∧
      (∀ r r', IsAccepted r → IsAccepted r' → Vm.render r.code = Vm.render r'.code → r.code = r'.code) ∧
      (∀ classes, (∀ r ∈ classes, IsAccepted r) → Vm.IsTextOf (combine classes) (classes.flatMap (·.code))) ∧
      ∀ classes classes', (∀ r ∈ classes, IsAccepted r) → (∀ r ∈ classes', IsAccepted r) →
        combine classes = combine classes' → classes.flatMap (·.code) = classes'.flatMap (·.code) := by
  have one (r : CompiledClass) (h : IsAccepted r) : Vm.IsTextOf (Vm.render r.code) r.code :=
    Vm.isTextOf_render h.isWord
  refine ⟨one, fun r r' h h' same => ?_, fun classes h => isTextOf_combine h, fun classes classes' h h' same => ?_⟩
  · refine Option.some.inj ?_
    rw [← (one r h).read, ← (one r' h').read, same]
  · refine Option.some.inj ?_
    rw [← (isTextOf_combine h).read, ← (isTextOf_combine h').read, same]

/-- A class with a method that calls itself on another object and on its own. -/
def callingText : String :=
  "class A \x7b static A a; method int f(int n) \x7b if (n < 2) \x7b return n; \x7d return a.f(n - 1) * f(n - 2); \x7d \x7d"

/-- The code of the class. -/
def callingClass : CompiledClass where
  name := "A"
  classVariables := [⟨"a", "A", .static, 0⟩]
  code := [.function "A.f" 0, .push .argument 0, .pop .pointer 0, .push .argument 1, .push .constant 2, .arithmetic .lt,
    .arithmetic .not, .ifGoto "IF_ELSE_0", .push .argument 1, .«return», .label "IF_ELSE_0", .push .static 0,
    .push .argument 1, .push .constant 1, .arithmetic .sub, .call "A.f" 2, .push .pointer 0, .push .argument 1,
    .push .constant 2, .arithmetic .sub, .call "A.f" 2, .call "Math.multiply" 2, .«return»]

/-- The text of its code is read as the code, alone and twice in a combined text. -/
theorem code_is_read_again_calling :
    compileText true callingText = .ok callingClass ∧
      Vm.read? (Vm.render callingClass.code) = some callingClass.code ∧
      Vm.read? (combine [callingClass, callingClass]) = some (callingClass.code ++ callingClass.code) := by
  have compiled : compileText true callingText = .ok callingClass := by decide +kernel
  have accepted : IsAccepted callingClass := ⟨true, callingText, compiled⟩
  obtain ⟨one, -, many, -⟩ := code_is_read_again
  have both : ∀ r ∈ [callingClass, callingClass], IsAccepted r :=
    List.forall_mem_cons.mpr ⟨accepted, List.forall_mem_singleton.mpr accepted⟩
  exact ⟨compiled, (one _ accepted).read, (many _ both).read⟩

end JackCompiler
