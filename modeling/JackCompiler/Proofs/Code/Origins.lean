import JackCompiler.Proofs.Code.Flow
import JackCompiler.Proofs.Generation.Rules

/-!
# Where the instructions of code come from

Each instruction in the code of an expression or a statement has one of few forms, and its operand comes from the text
or from the scope: a constant is an integer token, the length or a character of a string token, or 0; a place is that
of a variable that a name stands for (`FromExpression`, `FromStatement`). What holds of these forms holds of every
instruction that is written for statements (`Statement.fromStatement`), which is how bounds on operands and the shape
of functions are shown elsewhere.
-/

namespace JackCompiler

open Vm

variable {Γ : Context} {ks ks' : List TokenKind} {i : Instruction}

/-- The instructions of expressions that are written with tokens of the given kinds. -/
inductive FromExpression (Γ : Context) (ks : List TokenKind) : Instruction → Prop
  | integer {n : UInt16} (h : .integer n ∈ ks) : FromExpression Γ ks (.push .constant n)
  | length {body : String} (h : .string body ∈ ks) : FromExpression Γ ks (.push .constant (UInt16.ofNat body.length))
  | character {body : String} {c : Char} (h : .string body ∈ ks) (hc : c ∈ body.toList) :
    FromExpression Γ ks (.push .constant (UInt16.ofNat c.toNat))
  | zero : FromExpression Γ ks (.push .constant 0)
  | read {name : String} {v : Variable} (h : Γ.find? name = some v) : FromExpression Γ ks (Rules.push v)
  | object : FromExpression Γ ks (.push .pointer 0)
  | aim : FromExpression Γ ks (.pop .pointer 1)
  | element : FromExpression Γ ks (.push .that 0)
  | arithmetic (command : Arithmetic) : FromExpression Γ ks (.arithmetic command)
  | call (name : String) (n : UInt16) : FromExpression Γ ks (.call name n)

/-- The instructions of statements that are written with tokens of the given kinds. -/
inductive FromStatement (Γ : Context) (ks : List TokenKind) : Instruction → Prop
  | expression {i : Instruction} (h : FromExpression Γ ks i) : FromStatement Γ ks i
  | write {name : String} {v : Variable} (h : Γ.find? name = some v) : FromStatement Γ ks (Rules.pop v)
  | keep : FromStatement Γ ks (.pop .temp 0)
  | fetch : FromStatement Γ ks (.push .temp 0)
  | assign : FromStatement Γ ks (.pop .that 0)
  | label (name : String) : FromStatement Γ ks (.label name)
  | goto (name : String) : FromStatement Γ ks (.goto name)
  | ifGoto (name : String) : FromStatement Γ ks (.ifGoto name)
  | «return» : FromStatement Γ ks .«return»

/-- More tokens, more instructions. -/
theorem FromExpression.mono (hs : ks ⊆ ks') (h : FromExpression Γ ks i) : FromExpression Γ ks' i := by
  cases h with
  | integer h => exact .integer (hs h)
  | length h => exact .length (hs h)
  | character h hc => exact .character (hs h) hc
  | read h => exact .read h
  | zero => exact .zero
  | object => exact .object
  | aim => exact .aim
  | element => exact .element
  | arithmetic command => exact .arithmetic command
  | call name n => exact .call name n

theorem FromStatement.mono (hs : ks ⊆ ks') (h : FromStatement Γ ks i) : FromStatement Γ ks' i := by
  cases h with
  | expression h => exact .expression (h.mono hs)
  | write h => exact .write h
  | keep => exact .keep
  | fetch => exact .fetch
  | assign => exact .assign
  | label name => exact .label name
  | goto name => exact .goto name
  | ifGoto name => exact .ifGoto name
  | «return» => exact .«return»

/-- No instruction of an expression is a jump. -/
theorem FromExpression.target?_eq_none (h : FromExpression Γ ks i) : i.target? = none := by
  cases h <;> rfl

/-- No instruction of a statement is the head of a function. -/
theorem FromStatement.isHead_eq_false (h : FromStatement Γ ks i) : i.isHead = false := by
  cases h with
  | expression h => cases h <;> rfl
  | _ => rfl

/-! ## Expressions -/

section

variable (Γ : Context)

theorem fromExpression_read (ks : List TokenKind) (name : String) : ∀ i ∈ Γ.read name, FromExpression Γ ks i := by
  intro i hi
  obtain ⟨v, hv, rfl⟩ : ∃ v, Γ.find? name = some v ∧ Rules.push v = i := by simpa [Context.read] using hi
  exact .read hv

theorem fromExpression_receiver (ks : List TokenKind) (callee : Callee) :
    ∀ i ∈ Γ.receiver callee, FromExpression Γ ks i := by
  cases callee with
  | own subroutine => exact List.forall_mem_singleton.mpr .object
  | qualified qualifier subroutine => exact fromExpression_read Γ ks qualifier

theorem fromExpression_unary (ks : List TokenKind) (operator : UnaryOperator) :
    FromExpression Γ ks (Rules.unary operator) := by
  cases operator <;> exact .arithmetic _

theorem fromExpression_binary (ks : List TokenKind) (operator : BinaryOperator) :
    FromExpression Γ ks (Rules.binary operator) := by
  cases operator with
  | multiply | divide => exact .call _ _
  | _ => exact .arithmetic _

theorem fromExpression_constant (ks : List TokenKind) (word : KeywordConstant) :
    ∀ i ∈ Rules.constant word, FromExpression Γ ks i := by
  cases word with
  | true => exact List.forall_mem_cons.mpr ⟨.zero, List.forall_mem_singleton.mpr (.arithmetic _)⟩
  | false | null => exact List.forall_mem_singleton.mpr .zero
  | this => exact List.forall_mem_singleton.mpr .object

theorem fromExpression_string (body : String) : ∀ i ∈ Rules.string body, FromExpression Γ [.string body] i := by
  have hb : TokenKind.string body ∈ [TokenKind.string body] := List.mem_singleton.mpr rfl
  refine List.forall_mem_append.mpr ⟨?_, ?_⟩
  · exact List.forall_mem_cons.mpr ⟨.length hb, List.forall_mem_singleton.mpr (.call _ _)⟩
  · intro i hi
    obtain ⟨c, hc, hi⟩ := List.mem_flatMap.mp hi
    rcases List.mem_pair.mp hi with rfl | rfl
    · exact .character hb hc
    · exact .call _ _

mutual

/-- The instructions of an expression come from its tokens. -/
theorem Expression.fromExpression (e : Expression) : ∀ i ∈ e.code Γ, FromExpression Γ e.kinds i := by
  match e with
  | .term t => exact t.fromExpression
  | .binary left operator right =>
    rw [Expression.code]
    refine List.forall_mem_append.mpr ⟨List.forall_mem_append.mpr ⟨fun i hi => ?_, fun i hi => ?_⟩, ?_⟩
    · exact (left.fromExpression i hi).mono (by simp [Expression.kinds])
    · exact (right.fromExpression i hi).mono (fun kind hk => by simp [Expression.kinds, hk])
    · exact List.forall_mem_singleton.mpr (fromExpression_binary Γ _ operator)

/-- The instructions of a term come from its tokens. -/
theorem Term.fromExpression (t : Term) : ∀ i ∈ t.code Γ, FromExpression Γ t.kinds i := by
  match t with
  | .integer value => exact List.forall_mem_singleton.mpr (.integer (List.mem_singleton.mpr rfl))
  | .string body => exact fromExpression_string Γ body
  | .constant word => exact fromExpression_constant Γ _ word
  | .variable name => exact fromExpression_read Γ _ name
  | .element name index =>
    rw [Term.code]
    refine List.forall_mem_append.mpr ⟨List.forall_mem_append.mpr ⟨fun i hi => ?_, fromExpression_read Γ _ name⟩, ?_⟩
    · exact (index.fromExpression i hi).mono (fun kind hk => by simp [Term.kinds, hk])
    · simp only [List.forall_mem_cons, List.not_mem_nil, false_implies, implies_true, and_true]
      exact ⟨.arithmetic _, .aim, .element⟩
  | .call callee arguments =>
    rw [Term.code]
    have receiver := fromExpression_receiver Γ (Term.kinds (.call callee arguments)) callee
    refine List.forall_mem_append.mpr ⟨List.forall_mem_append.mpr ⟨receiver, fun i hi => ?_⟩, ?_⟩
    · exact (arguments_fromExpression arguments i hi).mono (fun kind hk => by simp [Term.kinds, hk])
    · exact List.forall_mem_singleton.mpr (.call _ _)
  | .parenthesized inner =>
    intro i hi
    exact (inner.fromExpression i hi).mono (fun kind hk => by simp [Term.kinds, hk])
  | .unary operator operand =>
    rw [Term.code]
    have last := List.forall_mem_singleton.mpr (fromExpression_unary Γ (Term.kinds (.unary operator operand)) operator)
    refine List.forall_mem_append.mpr ⟨fun i hi => ?_, last⟩
    exact (operand.fromExpression i hi).mono (fun kind hk => by simp [Term.kinds, hk])

/-- The instructions of arguments come from their tokens. -/
theorem arguments_fromExpression (es : List Expression) :
    ∀ i ∈ argumentCode Γ es, FromExpression Γ (argumentKinds es) i := by
  match es with
  | [] => exact List.forall_mem_nil _
  | e :: es =>
    rw [argumentCode]
    refine List.forall_mem_append.mpr ⟨fun i hi => ?_, fun i hi => ?_⟩
    · exact (e.fromExpression i hi).mono (by simp [argumentKinds])
    · refine (arguments_fromExpression es i hi).mono (fun kind hk => ?_)
      simp [argumentKinds, argumentKinds_subset es hk]

end

/-! ## Statements -/

/-- The instructions of an expression in a statement come from the tokens of the statement. -/
theorem Expression.fromStatement (e : Expression) {ks : List TokenKind} (hs : e.kinds ⊆ ks) :
    ∀ i ∈ e.code Γ, FromStatement Γ ks i :=
  fun i hi => .expression ((e.fromExpression Γ i hi).mono hs)

theorem fromStatement_write (ks : List TokenKind) (name : String) : ∀ i ∈ Γ.write name, FromStatement Γ ks i := by
  intro i hi
  obtain ⟨v, hv, rfl⟩ : ∃ v, Γ.find? name = some v ∧ Rules.pop v = i := by simpa [Context.write] using hi
  exact .write hv

theorem fromStatement_test (ks : List TokenKind) (name : String) :
    ∀ i ∈ [Instruction.arithmetic .not, .ifGoto name], FromStatement Γ ks i :=
  List.forall_mem_cons.mpr ⟨.expression (.arithmetic _), List.forall_mem_singleton.mpr (.ifGoto name)⟩

theorem fromStatement_jump (ks : List TokenKind) (name name' : String) :
    ∀ i ∈ [Instruction.goto name, .label name'], FromStatement Γ ks i :=
  List.forall_mem_cons.mpr ⟨.goto name, List.forall_mem_singleton.mpr (.label name')⟩

mutual

/-- The instructions of a statement come from its tokens. -/
theorem Statement.fromStatement (s : Statement) (k : Nat) : ∀ i ∈ s.code Γ k, FromStatement Γ s.kinds i := by
  match s with
  | .let name value =>
    rw [Statement.code]
    refine List.forall_mem_append.mpr ⟨value.fromStatement Γ ?_, fromStatement_write Γ _ name⟩
    exact fun kind hk => by simp [Statement.kinds, hk]
  | .letElement name index value =>
    rw [Statement.code]
    simp only [List.forall_mem_append, List.forall_mem_cons, List.not_mem_nil, false_implies, implies_true, and_true]
    refine ⟨⟨⟨⟨?_, fun i hi => .expression (fromExpression_read Γ _ name i hi)⟩, .expression (.arithmetic _)⟩, ?_⟩,
      .keep, .expression .aim, .fetch, .assign⟩
    · exact index.fromStatement Γ fun kind hk => by simp [Statement.kinds, hk]
    · exact value.fromStatement Γ fun kind hk => by simp [Statement.kinds, hk]
  | .if condition block =>
    rw [Statement.code]
    simp only [List.forall_mem_append]
    refine ⟨⟨⟨?_, fromStatement_test Γ _ _⟩, fun i hi => ?_⟩, List.forall_mem_singleton.mpr (.label _)⟩
    · exact condition.fromStatement Γ fun kind hk => by simp [Statement.kinds, conditionKinds, hk]
    · exact (block_fromStatement block _ i hi).mono fun kind hk => by simp [Statement.kinds, braced, hk]
  | .ifElse condition block elseBlock =>
    rw [Statement.code]
    simp only [List.forall_mem_append]
    refine ⟨⟨⟨⟨⟨?_, fromStatement_test Γ _ _⟩, fun i hi => ?_⟩, fromStatement_jump Γ _ _ _⟩, fun i hi => ?_⟩,
      List.forall_mem_singleton.mpr (.label _)⟩
    · exact condition.fromStatement Γ fun kind hk => by simp [Statement.kinds, conditionKinds, hk]
    · exact (block_fromStatement block _ i hi).mono fun kind hk => by simp [Statement.kinds, braced, hk]
    · exact (block_fromStatement elseBlock _ i hi).mono fun kind hk => by simp [Statement.kinds, braced, hk]
  | .while condition block =>
    rw [Statement.code]
    simp only [List.forall_mem_append]
    refine ⟨⟨⟨⟨List.forall_mem_singleton.mpr (.label _), ?_⟩, fromStatement_test Γ _ _⟩, fun i hi => ?_⟩,
      fromStatement_jump Γ _ _ _⟩
    · exact condition.fromStatement Γ fun kind hk => by simp [Statement.kinds, conditionKinds, hk]
    · exact (block_fromStatement block _ i hi).mono fun kind hk => by simp [Statement.kinds, braced, hk]
  | .do callee arguments =>
    rw [Statement.code]
    refine List.forall_mem_append.mpr ⟨fun i hi => ?_, List.forall_mem_singleton.mpr .keep⟩
    have call := (Term.call callee arguments).fromExpression Γ i hi
    rw [Statement.kinds]
    have inside := List.subset_append_left (callKinds callee arguments) [.symbol ';']
    exact .expression (call.mono (List.subset_cons_of_subset _ inside))
  | .return value =>
    rw [Statement.code]
    refine List.forall_mem_append.mpr ⟨?_, List.forall_mem_singleton.mpr .«return»⟩
    cases value with
    | none => exact List.forall_mem_singleton.mpr (.expression .zero)
    | some e => exact e.fromStatement Γ fun kind hk => by simp [Statement.kinds, hk]

/-- The instructions of statements come from their tokens. -/
theorem block_fromStatement (block : List Statement) (k : Nat) :
    ∀ i ∈ blockCode Γ k block, FromStatement Γ (blockKinds block) i := by
  match block with
  | [] => exact List.forall_mem_nil _
  | s :: others =>
    rw [blockCode]
    refine List.forall_mem_append.mpr ⟨fun i hi => ?_, fun i hi => ?_⟩
    · exact (s.fromStatement k i hi).mono (by simp [blockKinds])
    · exact (block_fromStatement others _ i hi).mono (by simp [blockKinds])

end

end

/-! ## Functions -/

section

variable (c : ClassDeclaration) (s : Subroutine)

/-- The code of a subroutine after its object is set: its statements, and a return of 0 unless they end in a return. -/
def ClassDeclaration.bodyCode : List Instruction :=
  blockCode (c.context s) 0 s.body ++ if endsInReturn s.body then [] else [.push .constant 0, .«return»]

/-- A function is its head, the code that sets its object, and the code of its body. -/
theorem subroutineCode_eq :
    c.subroutineCode s =
      .function (c.name ++ "." ++ s.name) (UInt16.ofNat (s.locals.flatMap NamesOfType.names).length) ::
        (Rules.prologue (Declaration.countOf .field c.scope) s.kind ++ c.bodyCode s) := by
  rw [ClassDeclaration.subroutineCode, ClassDeclaration.bodyCode, List.append_assoc, List.cons_append]

/-- The instructions of a body come from the tokens of its class. -/
theorem bodyCode_fromStatement {s : Subroutine} (hs : s ∈ c.subroutines) :
    ∀ i ∈ c.bodyCode s, FromStatement (c.context s) c.kinds i := by
  obtain ⟨-, -, -, -, inside⟩ := Subroutine.subset_of_kinds (ClassDeclaration.kinds_subset_of_mem_subroutines hs)
  refine List.forall_mem_append.mpr ⟨fun i hi => ?_, ?_⟩
  · exact (block_fromStatement (c.context s) s.body 0 i hi).mono inside
  · split
    · exact List.forall_mem_nil _
    · exact List.forall_mem_cons.mpr ⟨.expression .zero, List.forall_mem_singleton.mpr .«return»⟩

end

end JackCompiler
