import JackCompiler.Proofs.Code.Constants

/-!
# The names in code

A name in an instruction is that of a label, of a routine of the library, or is put together from two names of the text with
a dot between them (`BodyName`, `ClassDeclaration.names_code`). Nothing is asked of names when they are written. That
they can be told from what stands around them comes from the text: its identifiers are words, without blanks and newlines,
and so is all that is made of them (`ClassDeclaration.isWord_name`).
-/

namespace JackCompiler

open Vm

/-- The name that an instruction holds. -/
def Vm.Instruction.name? : Instruction → Option String
  | .label name | .goto name | .ifGoto name | .function name _ | .call name _ => some name
  | .push .. | .pop .. | .arithmetic _ | .«return» => none

/-! ## Words -/

/-- A text that is not empty and has no blank and no newline. -/
structure IsWord (name : String) : Prop where
  nonempty : name ≠ ""
  blank : ' ' ∉ name.toList
  newline : '\n' ∉ name.toList

instance (name : String) : Decidable (IsWord name) :=
  decidable_of_iff (name ≠ "" ∧ ' ' ∉ name.toList ∧ '\n' ∉ name.toList)
    ⟨fun h => ⟨h.1, h.2.1, h.2.2⟩, fun h => ⟨h.nonempty, h.blank, h.newline⟩⟩

/-- What is put behind a word makes it longer. -/
theorem IsWord.append {name other : String} (h : IsWord name) (blank : ' ' ∉ other.toList) (newline : '\n' ∉ other.toList) :
    IsWord (name ++ other) := by
  refine ⟨fun empty => h.nonempty (String.append_eq_empty_iff.mp empty).1, ?_, ?_⟩
  · rw [String.toList_append, List.mem_append, not_or]
    exact ⟨h.blank, blank⟩
  · rw [String.toList_append, List.mem_append, not_or]
    exact ⟨h.newline, newline⟩

/-- Two words with a dot between them. -/
theorem IsWord.dotted {name other : String} (h : IsWord name) (h' : IsWord other) : IsWord (name ++ "." ++ other) :=
  (h.append (by decide) (by decide)).append h'.blank h'.newline

/-- A number in decimal digits is a word. -/
theorem isWord_toString (n : Nat) : IsWord (toString n) := by
  have digit {c : Char} (hc : c ∈ (toString n).toList) : c.isDigit = true := by
    rw [Nat.toString_eq_ofList_toDigits, String.toList_ofList] at hc
    exact Nat.isDigit_of_mem_toDigits (by decide) (by decide) hc
  refine ⟨fun empty => ?_, fun hc => absurd (digit hc) (by decide), fun hc => absurd (digit hc) (by decide)⟩
  rw [Nat.toString_eq_ofList_toDigits] at empty
  exact Nat.toDigits_ne_nil (String.ofList_eq_empty_iff.mp empty)

/-- An identifier of a source text is a word. -/
theorem TokenKind.WellFormed.isWord {name : String} (h : (TokenKind.identifier name).WellFormed) : IsWord name := by
  refine ⟨?_, h.notMem (by decide) (by decide), h.notMem (by decide) (by decide)⟩
  rintro rfl
  obtain ⟨-, _, _, heq, -⟩ := h
  cases heq

/-! ## The names in statements -/

namespace Rules

/-- The routines that code calls though no text names them. -/
def library : List String :=
  ["Math.multiply", "Math.divide", "String.new", "String.appendChar", "Memory.alloc"]

/-- What the labels begin with. -/
def stems : List String :=
  ["IF_ELSE", "IF_END", "WHILE_TOP", "WHILE_END"]

end Rules

/-- The names in the code of statements that are written with tokens of the given kinds. -/
inductive BodyName (Γ : Context) (ks : List TokenKind) : String → Prop
  | library {name : String} (h : name ∈ Rules.library) : BodyName Γ ks name
  | label {stem : String} (h : stem ∈ Rules.stems) (n : Nat) : BodyName Γ ks (Rules.label stem n)
  | callee (callee : Callee) (h : callee.kinds ⊆ ks) : BodyName Γ ks (Γ.function callee)

/-- All names in code are those of statements that are written with tokens of the given kinds. -/
def NamesOf (Γ : Context) (ks : List TokenKind) (code : List Instruction) : Prop :=
  ∀ i ∈ code, ∀ name, i.name? = some name → BodyName Γ ks name

section

variable {Γ : Context} {ks : List TokenKind} {i : Instruction} {code others : List Instruction}

@[simp] theorem namesOf_nil : NamesOf Γ ks [] :=
  List.forall_mem_nil _

@[simp] theorem namesOf_cons :
    NamesOf Γ ks (i :: code) ↔ (∀ name, i.name? = some name → BodyName Γ ks name) ∧ NamesOf Γ ks code :=
  List.forall_mem_cons

@[simp] theorem namesOf_append : NamesOf Γ ks (code ++ others) ↔ NamesOf Γ ks code ∧ NamesOf Γ ks others :=
  List.forall_mem_append

theorem namesOf_of_name?_eq_none (h : ∀ i ∈ code, i.name? = none) : NamesOf Γ ks code := by
  intro i hi name hname
  rw [h i hi] at hname
  cases hname

theorem namesOf_read (name : String) : NamesOf Γ ks (Γ.read name) := by
  refine namesOf_of_name?_eq_none fun i hi => ?_
  obtain ⟨v, -, rfl⟩ : ∃ v, Γ.find? name = some v ∧ Rules.push v = i := by simpa [Context.read] using hi
  rfl

theorem namesOf_write (name : String) : NamesOf Γ ks (Γ.write name) := by
  refine namesOf_of_name?_eq_none fun i hi => ?_
  obtain ⟨v, -, rfl⟩ : ∃ v, Γ.find? name = some v ∧ Rules.pop v = i := by simpa [Context.write] using hi
  rfl

theorem namesOf_receiver (callee : Callee) : NamesOf Γ ks (Γ.receiver callee) := by
  cases callee with
  | own subroutine => exact namesOf_of_name?_eq_none (List.forall_mem_singleton.mpr rfl)
  | qualified qualifier subroutine => exact namesOf_read qualifier

theorem namesOf_binary (operator : BinaryOperator) : NamesOf Γ ks [Rules.binary operator] := by
  cases operator <;> simp [Rules.binary, Instruction.name?]
  all_goals exact .library (by decide)

theorem namesOf_constant (word : KeywordConstant) : NamesOf Γ ks (Rules.constant word) := by
  cases word <;> simp [Rules.constant, Instruction.name?]

theorem namesOf_string (body : String) : NamesOf Γ ks (Rules.string body) := by
  refine namesOf_append.mpr ⟨?_, fun i hi => ?_⟩
  · simpa [Instruction.name?] using .library (by decide)
  · obtain ⟨c, -, hi⟩ := List.mem_flatMap.mp hi
    rcases List.mem_pair.mp hi with rfl | rfl
    · exact nofun
    · rintro name ⟨⟩
      exact .library (by decide)

theorem namesOf_call {callee : Callee} (h : callee.kinds ⊆ ks) (n : Nat) : NamesOf Γ ks [Γ.call callee n] := by
  simpa [Context.call, Instruction.name?] using .callee callee h

end

section

variable {Γ : Context} {ks : List TokenKind}

mutual

/-- The names in an expression. -/
theorem Expression.namesOf (e : Expression) (h : e.kinds ⊆ ks) : NamesOf Γ ks (e.code Γ) := by
  match e with
  | .term t => exact t.namesOf h
  | .binary left operator right =>
    obtain ⟨hleft, hright⟩ := Expression.subset_of_binary h
    rw [Expression.code]
    exact namesOf_append.mpr ⟨namesOf_append.mpr ⟨left.namesOf hleft, right.namesOf hright⟩, namesOf_binary operator⟩

/-- The names in a term. -/
theorem Term.namesOf (t : Term) (h : t.kinds ⊆ ks) : NamesOf Γ ks (t.code Γ) := by
  match t with
  | .integer value => exact namesOf_of_name?_eq_none (List.forall_mem_singleton.mpr rfl)
  | .string body => exact namesOf_string body
  | .constant word => exact namesOf_constant word
  | .variable name => exact namesOf_read name
  | .element name index =>
    rw [Term.code]
    refine namesOf_append.mpr ⟨namesOf_append.mpr ⟨?_, namesOf_read name⟩, namesOf_of_name?_eq_none (by decide)⟩
    exact index.namesOf (Term.subset_of_element h).2
  | .call callee arguments =>
    obtain ⟨hcallee, harguments⟩ := subset_of_call h
    rw [Term.code]
    exact namesOf_append.mpr
      ⟨namesOf_append.mpr ⟨namesOf_receiver callee, arguments_namesOf arguments harguments⟩, namesOf_call hcallee _⟩
  | .parenthesized inner => exact inner.namesOf (Term.subset_of_parenthesized h)
  | .unary operator operand =>
    rw [Term.code]
    refine namesOf_append.mpr ⟨operand.namesOf (Term.subset_of_unary h), ?_⟩
    cases operator <;> exact namesOf_of_name?_eq_none (by decide)

/-- The names in arguments. -/
theorem arguments_namesOf (es : List Expression) (h : argumentKinds es ⊆ ks) : NamesOf Γ ks (argumentCode Γ es) := by
  match es with
  | [] => exact namesOf_nil
  | e :: es =>
    obtain ⟨he, hes⟩ := subset_of_arguments h
    rw [argumentCode]
    exact namesOf_append.mpr ⟨e.namesOf he, arguments_namesOf es hes⟩

end

theorem namesOf_label {stem : String} (h : stem ∈ Rules.stems) (n : Nat) : NamesOf Γ ks [.label (Rules.label stem n)] := by
  simpa [Instruction.name?] using .label h n

theorem namesOf_test {stem : String} (h : stem ∈ Rules.stems) (n : Nat) :
    NamesOf Γ ks [.arithmetic .not, .ifGoto (Rules.label stem n)] := by
  simpa [Instruction.name?] using .label h n

theorem namesOf_jump {stem stem' : String} (h : stem ∈ Rules.stems) (h' : stem' ∈ Rules.stems) (n n' : Nat) :
    NamesOf Γ ks [.goto (Rules.label stem n), .label (Rules.label stem' n')] := by
  simpa [Instruction.name?] using ⟨.label h n, .label h' n'⟩

mutual

/-- The names in a statement. -/
theorem Statement.namesOf (s : Statement) (k : Nat) (h : s.kinds ⊆ ks) : NamesOf Γ ks (s.code Γ k) := by
  match s with
  | .let name value =>
    rw [Statement.code]
    exact namesOf_append.mpr ⟨value.namesOf (Statement.subset_of_let h).2, namesOf_write name⟩
  | .letElement name index value =>
    obtain ⟨-, hindex, hvalue⟩ := Statement.subset_of_letElement h
    simp only [Statement.code, namesOf_append]
    refine ⟨⟨⟨⟨index.namesOf hindex, namesOf_read name⟩, ?_⟩, value.namesOf hvalue⟩, ?_⟩
    · exact namesOf_of_name?_eq_none (by decide)
    · exact namesOf_of_name?_eq_none (by decide)
  | .if condition block =>
    obtain ⟨hcondition, hblock⟩ := Statement.subset_of_if h
    simp only [Statement.code, namesOf_append]
    exact ⟨⟨⟨condition.namesOf hcondition, namesOf_test (by decide) _⟩, block_namesOf block _ hblock⟩,
      namesOf_label (by decide) _⟩
  | .ifElse condition block elseBlock =>
    obtain ⟨hcondition, hblock, helse⟩ := Statement.subset_of_ifElse h
    simp only [Statement.code, namesOf_append]
    exact ⟨⟨⟨⟨⟨condition.namesOf hcondition, namesOf_test (by decide) _⟩, block_namesOf block _ hblock⟩,
      namesOf_jump (by decide) (by decide) _ _⟩, block_namesOf elseBlock _ helse⟩, namesOf_label (by decide) _⟩
  | .while condition block =>
    obtain ⟨hcondition, hblock⟩ := Statement.subset_of_while h
    simp only [Statement.code, namesOf_append]
    exact ⟨⟨⟨⟨namesOf_label (by decide) _, condition.namesOf hcondition⟩, namesOf_test (by decide) _⟩,
      block_namesOf block _ hblock⟩, namesOf_jump (by decide) (by decide) _ _⟩
  | .do callee arguments =>
    have call : NamesOf Γ ks (callCode Γ callee arguments) :=
      Term.namesOf (.call callee arguments) (Statement.subset_of_do h)
    rw [Statement.code]
    exact namesOf_append.mpr ⟨call, namesOf_of_name?_eq_none (by decide)⟩
  | .return value =>
    rw [Statement.code]
    refine namesOf_append.mpr ⟨?_, namesOf_of_name?_eq_none (by decide)⟩
    cases value with
    | none => exact namesOf_of_name?_eq_none (List.forall_mem_singleton.mpr rfl)
    | some e => exact e.namesOf (Statement.subset_of_return h)

/-- The names in statements. -/
theorem block_namesOf (block : List Statement) (k : Nat) (h : blockKinds block ⊆ ks) :
    NamesOf Γ ks (blockCode Γ k block) := by
  match block with
  | [] => exact namesOf_nil
  | s :: others =>
    obtain ⟨hs, hothers⟩ := subset_of_block h
    rw [blockCode]
    exact namesOf_append.mpr ⟨s.namesOf k hs, block_namesOf others _ hothers⟩

end

end

/-! ## The names in a class -/

namespace ClassDeclaration

variable {c : ClassDeclaration} {s : Subroutine}

/-- A name in the code of a class is that of a function, or stands in the body of one. -/
theorem names_code {i : Instruction} (hi : i ∈ c.code) {name : String} (hname : i.name? = some name) :
    ∃ s ∈ c.subroutines, name = c.name ++ "." ++ s.name ∨ BodyName (c.context s) c.kinds name := by
  obtain ⟨s, hs, hi⟩ := List.mem_flatMap.mp hi
  refine ⟨s, hs, ?_⟩
  rw [subroutineCode, List.cons_append, List.cons_append, List.append_assoc, List.mem_cons] at hi
  rcases hi with rfl | hi
  · exact .inl (Option.some.inj hname).symm
  · have prologue : NamesOf (c.context s) c.kinds (Rules.prologue (Declaration.countOf .field c.scope) s.kind) := by
      cases s.kind <;> simp [Rules.prologue, Instruction.name?]
      exact .library (by decide)
    have body : NamesOf (c.context s) c.kinds (blockCode (c.context s) 0 s.body) := by
      obtain ⟨-, -, -, -, hbody⟩ := Subroutine.subset_of_kinds (kinds_subset_of_mem_subroutines hs)
      exact block_namesOf s.body 0 hbody
    have last : NamesOf (c.context s) c.kinds
        (if endsInReturn s.body then [] else [.push .constant 0, .«return»]) := by
      split <;> simp [Instruction.name?]
    exact .inr (namesOf_append.mpr ⟨prologue, namesOf_append.mpr ⟨body, last⟩⟩ i hi name hname)

end ClassDeclaration

/-! ## Names are words -/

/-- A label is a word. -/
theorem isWord_label {stem : String} (h : stem ∈ Rules.stems) (n : Nat) : IsWord (Rules.label stem n) := by
  have stems : ∀ stem ∈ Rules.stems, IsWord (stem ++ "_") := by decide
  exact (stems stem h).append (isWord_toString n).blank (isWord_toString n).newline

/-- The type of a variable is that of its declaration. -/
theorem exists_type_of_mem_madeAfter {earlier ds : List Declaration} {v : Variable}
    (h : v ∈ Declaration.madeAfter earlier ds) : ∃ d ∈ ds, d.type = v.type := by
  induction ds generalizing earlier with
  | nil => cases h
  | cons d ds ih =>
    rw [Declaration.madeAfter, List.mem_cons] at h
    rcases h with rfl | h
    · exact ⟨d, List.mem_cons_self, rfl⟩
    · obtain ⟨d', hd', htype⟩ := ih h
      exact ⟨d', List.mem_cons_of_mem d hd', htype⟩

section

variable {ks : List TokenKind} {c : ClassDeclaration} {s : Subroutine} {name : String}

/-- The name of a type is a word when the identifiers are. -/
theorem TypeName.isWord (hks : ∀ name, .identifier name ∈ ks → IsWord name) {t : TypeName} (h : t.kind ∈ ks) :
    IsWord t.name := by
  cases t with
  | ofClass name => exact hks name h
  | int | char | boolean => decide

/-- The names in a body are words when the identifiers and the types are. -/
theorem BodyName.isWord {Γ : Context} (hks : ∀ name, .identifier name ∈ ks → IsWord name) (hclass : IsWord Γ.className)
    (htypes : ∀ name v, Γ.find? name = some v → IsWord v.type) (h : BodyName Γ ks name) : IsWord name := by
  cases h with
  | library h =>
    have words : ∀ name ∈ Rules.library, IsWord name := by decide
    exact words name h
  | label h n => exact isWord_label h n
  | callee callee h =>
    cases callee with
    | own subroutine => exact hclass.dotted (hks _ (h List.mem_cons_self))
    | qualified qualifier subroutine =>
      simp only [Callee.kinds, List.cons_subset] at h
      obtain ⟨hqualifier, -, hsubroutine, -⟩ := h
      rw [Context.function]
      split
      · next v hv => exact (htypes _ v hv).dotted (hks _ hsubroutine)
      · exact (hks _ hqualifier).dotted (hks _ hsubroutine)

namespace ClassDeclaration

/-- The declared types of a class are words when its identifiers are. -/
theorem isWord_of_mem_scope (hks : ∀ name, .identifier name ∈ c.kinds → IsWord name) {d : Declaration}
    (hd : d ∈ c.scope) : IsWord d.type := by
  obtain ⟨e, he, hd⟩ := List.mem_flatMap.mp hd
  obtain ⟨name, -, rfl⟩ := List.mem_map.mp hd
  refine TypeName.isWord hks (kinds_subset_of_mem_declarations he ?_)
  simp [ClassVariables.kinds, NamesOfType.kinds]

theorem isWord_className (hks : ∀ name, .identifier name ∈ c.kinds → IsWord name) : IsWord c.name :=
  hks _ (List.mem_cons_of_mem _ List.mem_cons_self)

/-- The declared types of a subroutine are words when the identifiers of its class are. -/
theorem isWord_of_mem_subroutineScope (hks : ∀ name, .identifier name ∈ c.kinds → IsWord name)
    (hs : s ∈ c.subroutines) {d : Declaration} (hd : d ∈ s.scope c.name) : IsWord d.type := by
  obtain ⟨-, -, hparameters, hlocals, -⟩ := Subroutine.subset_of_kinds (kinds_subset_of_mem_subroutines hs)
  rw [Subroutine.scope, List.mem_append, List.mem_append] at hd
  rcases hd with (hd | hd) | hd
  · rw [Subroutine.implicit] at hd
    split at hd
    · obtain rfl := List.mem_singleton.mp hd
      exact isWord_className hks
    all_goals cases hd
  · obtain ⟨p, hp, rfl⟩ := List.mem_map.mp hd
    exact TypeName.isWord hks (hparameters (Parameter.kinds_subset_listKinds hp List.mem_cons_self))
  · obtain ⟨e, he, hd⟩ := List.mem_flatMap.mp hd
    obtain ⟨name, -, rfl⟩ := List.mem_map.mp hd
    refine TypeName.isWord hks (hlocals (List.mem_flatMap.mpr ⟨e, he, ?_⟩))
    simp [localKinds, NamesOfType.kinds]

/-- The types of the variables that the names in a subroutine stand for are words when the identifiers of the class are. -/
theorem isWord_type (hks : ∀ name, .identifier name ∈ c.kinds → IsWord name) (hs : s ∈ c.subroutines) {v : Variable}
    (h : (c.context s).find? name = some v) : IsWord v.type := by
  rcases Option.or_eq_some_iff.mp h with h | ⟨-, h⟩
  · obtain ⟨d, hd, htype⟩ := exists_type_of_mem_madeAfter (mem_of_lastNamed? h)
    rw [← htype]
    exact isWord_of_mem_subroutineScope hks hs hd
  · obtain ⟨d, hd, htype⟩ := exists_type_of_mem_madeAfter (mem_of_lastNamed? h)
    rw [← htype]
    exact isWord_of_mem_scope hks hd

/-- All names in the code of a class are words when its identifiers are. -/
theorem isWord_name (hks : ∀ name, .identifier name ∈ c.kinds → IsWord name) {i : Instruction} (hi : i ∈ c.code)
    (hname : i.name? = some name) : IsWord name := by
  obtain ⟨s, hs, rfl | hbody⟩ := names_code hi hname
  · obtain ⟨-, hsubroutine, -⟩ := Subroutine.subset_of_kinds (kinds_subset_of_mem_subroutines hs)
    exact (isWord_className hks).dotted (hks _ hsubroutine)
  · exact hbody.isWord hks (isWord_className hks) fun _ _ => isWord_type hks hs

end ClassDeclaration

/-- All names in the code of a source text are words. -/
theorem isWord_of_compileText {strict : Bool} {text : String} {r : CompiledClass} (h : compileText strict text = .ok r)
    {i : Instruction} (hi : i ∈ r.code) (hname : i.name? = some name) : IsWord name := by
  obtain ⟨tokens, hscan, h⟩ := compileText_eq_ok_iff.mp h
  obtain ⟨c, hkinds, -, rfl⟩ := compile_eq_ok_iff.mp h
  refine c.isWord_name (fun name hn => ?_) hi hname
  rw [hkinds] at hn
  exact (forall_wellFormed_of_scan hscan _ hn).isWord

end

end JackCompiler
