import JackCompiler.Proofs.Grammar.WalkExpression

/-!
# Statements are walked through

A walk that asks for statements takes exactly the tokens of a statement, collects exactly its steps and asks for statements
again, unless an `else` follows: `Statement.walk`. A list of statements is walked through up to its closing brace:
`walk_statements`.
-/

namespace JackCompiler

variable {last : Position}

/-- What comes next would not go on with a statement. -/
def EndsStatement (rest : List Token) : Prop :=
  ∀ token ∈ rest.head?, token.kind ≠ .keyword .«else»

/-- A statement is followed by another one or by the end of its block. -/
theorem endsStatement_block {rest : List Token} {p : Position} (others : List Statement) :
    EndsStatement (unplaced (blockKinds others) ++ ⟨.symbol '\x7d', p⟩ :: rest) := by
  cases others with
  | nil => simp [blockKinds, EndsStatement]
  | cons statement others =>
    cases statement <;> simp [blockKinds, Statement.kinds, EndsStatement]

/-- A condition in parentheses is walked through. -/
theorem walk_condition (condition : Expression) {goals : List Goal} {rest : List Token} {steps : Array Step} :
    walkFrom last (.symbol '(' :: .expression :: .symbol ')' :: goals) (unplaced (conditionKinds condition) ++ rest)
        steps =
      walkFrom last goals rest (steps ++ condition.steps) := by
  simp only [conditionKinds, unplaced_cons, unplaced_append, unplaced_nil, List.append_assoc, List.cons_append,
    List.nil_append, walkFrom_symbol]
  rw [condition.walk (endsExpression_parenthesis _), walkFrom_symbol]

/-- The value after `return`, if there is one, is walked through up to the semicolon. -/
theorem walk_result (value : Option Expression) {goals : List Goal} {rest : List Token} {steps : Array Step}
    {p : Position} :
    walkFrom last (.result :: goals) (unplaced (value.elim [] Expression.kinds) ++ ⟨.symbol ';', p⟩ :: rest) steps =
      walkFrom last goals (⟨.symbol ';', p⟩ :: rest) (steps ++ value.elim [.noValue] Expression.steps) := by
  cases value with
  | none =>
    rw [Option.elim_none, unplaced_nil, List.nil_append, walkFrom_of_expand rfl]
    simp
  | some value =>
    obtain ⟨kind, kinds, h, ho⟩ := value.kinds_eq_cons
    have hk : kind ≠ .symbol ';' := by
      rintro rfl
      cases ho
    have hm : Goal.result.move (unplaced value.kinds ++ ⟨.symbol ';', p⟩ :: rest).head? = .expand [.expression] := by
      simp [h, Goal.move, hk]
    rw [Option.elim_some, walkFrom_of_expand hm, List.singleton_append, value.walk (endsExpression_semicolon p)]
    rfl

/-- What follows the word of an assignment to a variable is walked through. -/
theorem walk_let (name : String) (value : Expression) {goals : List Goal} {rest : List Token} {steps : Array Step} :
    walkFrom last (Goal.within .letStatement [.target, .symbol ';'] ++ goals)
        (unplaced (.identifier name :: .symbol '=' :: value.kinds ++ [.symbol ';']) ++ rest) steps =
      walkFrom last goals rest (steps ++ (Statement.let name value).steps) := by
  simp only [unplaced_cons, unplaced_append, unplaced_nil, walkFrom_within, List.append_assoc, List.cons_append,
    List.nil_append]
  rw [walkFrom_of_take rfl]
  simp only [List.cons_append, List.nil_append, walkFrom_emit]
  rw [walkFrom_of_expand rfl]
  simp only [List.cons_append, List.nil_append, walkFrom_symbol]
  rw [value.walk (endsExpression_semicolon _)]
  simp [Statement.steps, during]

/-- What follows the word of an assignment to an element is walked through. -/
theorem walk_letElement (name : String) (index value : Expression) {goals : List Goal} {rest : List Token}
    {steps : Array Step} :
    walkFrom last (Goal.within .letStatement [.target, .symbol ';'] ++ goals)
        (unplaced (.identifier name :: .symbol '[' :: index.kinds ++ .symbol ']' :: .symbol '=' :: value.kinds ++
          [.symbol ';']) ++ rest) steps =
      walkFrom last goals rest (steps ++ (Statement.letElement name index value).steps) := by
  simp only [unplaced_cons, unplaced_append, unplaced_nil, walkFrom_within, List.append_assoc, List.cons_append,
    List.nil_append]
  rw [walkFrom_of_take rfl]
  simp only [List.cons_append, List.nil_append, walkFrom_emit]
  rw [walkFrom_of_take rfl]
  simp only [List.cons_append, List.nil_append]
  rw [index.walk (endsExpression_bracket _)]
  simp only [walkFrom_symbol, walkFrom_emit]
  rw [value.walk (endsExpression_semicolon _)]
  simp [Statement.steps, during]

/-- An `if` without `else` is over where no `else` follows. -/
theorem walkFrom_elseBlock {goals : List Goal} {rest : List Token} {steps : Array Step} (h : EndsStatement rest) :
    walkFrom last (.elseBlock :: goals) rest steps = walkFrom last goals rest (steps.push .endIf) := by
  have hm : Goal.elseBlock.move rest.head? = .expand [.emit .endIf] := by
    cases rest with
    | nil => rfl
    | cons token rest => simp [Goal.move, h token rfl]
  rw [walkFrom_of_expand hm, List.singleton_append, walkFrom_emit]

/-- The statements of a list are walked through up to the closing brace of their block. -/
def WalksBlock (last : Position) (ss : List Statement) : Prop :=
  ∀ (goals : List Goal) (rest : List Token) (steps : Array Step),
    walkFrom last (.statements :: goals) (unplaced (blockKinds ss) ++ ⟨.symbol '\x7d', .nowhere⟩ :: rest) steps =
      walkFrom last goals (⟨.symbol '\x7d', .nowhere⟩ :: rest) (steps ++ blockSteps ss)

/-- A block is walked through with its braces when its statements are. -/
theorem WalksBlock.walk {ss : List Statement} (h : WalksBlock last ss) {goals : List Goal} {rest : List Token}
    {steps : Array Step} :
    walkFrom last (Goal.block ++ goals) (unplaced (braced (blockKinds ss)) ++ rest) steps =
      walkFrom last goals rest (steps ++ during .statements (blockSteps ss)) := by
  simp only [Goal.block, braced, unplaced_cons, unplaced_append, unplaced_nil, List.append_assoc, List.cons_append,
    List.nil_append, walkFrom_symbol, walkFrom_within]
  rw [h]
  simp [during]

mutual

/-- A statement is walked through. -/
theorem Statement.walk (s : Statement) {goals : List Goal} {rest : List Token} {steps : Array Step}
    (h : EndsStatement rest) :
    walkFrom last (.statements :: goals) (unplaced s.kinds ++ rest) steps =
      walkFrom last (.statements :: goals) rest (steps ++ s.steps) := by
  cases s with
  | «let» name value =>
    rw [Statement.kinds, List.cons_append, List.cons_append, unplaced_cons, List.cons_append, walkFrom_of_take rfl,
      List.append_assoc, ← List.cons_append]
    exact walk_let name value
  | letElement name index value =>
    simp only [Statement.kinds, List.cons_append, unplaced_cons]
    rw [walkFrom_of_take rfl, List.append_assoc]
    simp only [← unplaced_cons, ← List.cons_append]
    exact walk_letElement name index value
  | «if» condition block =>
    simp only [Statement.kinds, unplaced_cons, unplaced_append, List.append_assoc, List.cons_append]
    rw [walkFrom_of_take rfl]
    simp only [List.append_assoc, walkFrom_within, List.cons_append, List.nil_append]
    rw [walk_condition, walkFrom_emit, (walk_statements block).walk, walkFrom_elseBlock h, walkFrom_emit]
    simp [Statement.steps, during]
  | ifElse condition block elseBlock =>
    simp only [Statement.kinds, unplaced_cons, unplaced_append, List.append_assoc, List.cons_append]
    rw [walkFrom_of_take rfl]
    simp only [List.append_assoc, walkFrom_within, List.cons_append, List.nil_append]
    rw [walk_condition, walkFrom_emit, (walk_statements block).walk, walkFrom_of_take rfl]
    simp only [List.append_assoc, List.cons_append, List.nil_append, walkFrom_emit]
    rw [(walk_statements elseBlock).walk]
    simp [Statement.steps, during]
  | «while» condition block =>
    simp only [Statement.kinds, unplaced_cons, unplaced_append, List.append_assoc, List.cons_append]
    rw [walkFrom_of_take rfl]
    simp only [List.append_assoc, walkFrom_within, List.cons_append, List.nil_append, walkFrom_emit]
    rw [walk_condition, walkFrom_emit, (walk_statements block).walk]
    simp [Statement.steps, during]
  | «do» callee arguments =>
    simp only [Statement.kinds, unplaced_cons, unplaced_append, unplaced_nil, List.append_assoc, List.cons_append,
      List.nil_append]
    rw [walkFrom_of_take rfl]
    simp only [List.append_assoc, walkFrom_within, List.cons_append, List.nil_append]
    rw [walk_call]
    simp [Statement.steps, during]
  | «return» value =>
    simp only [Statement.kinds, unplaced_cons, unplaced_append, unplaced_nil, List.append_assoc, List.cons_append,
      List.nil_append]
    rw [walkFrom_of_take rfl]
    simp only [List.append_assoc, walkFrom_within, List.cons_append, List.nil_append]
    rw [walk_result]
    simp [Statement.steps, during]

/-- Statements are walked through up to the end of their block. -/
theorem walk_statements (ss : List Statement) : WalksBlock last ss := by
  intro goals rest steps
  cases ss with
  | nil =>
    rw [blockKinds, unplaced_nil, List.nil_append, walkFrom_of_expand rfl]
    simp [blockSteps]
  | cons s others =>
    rw [blockKinds, unplaced_append, List.append_assoc, s.walk (endsStatement_block others), walk_statements others]
    simp [blockSteps]

end

end JackCompiler
