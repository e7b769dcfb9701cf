import JackCompiler.Grammar.Walk
import JackCompiler.Proofs.Syntax.Steps

/-!
# Expressions are walked through

A walk with the goal of an expression takes exactly the tokens of the expression and collects exactly its steps, whatever
goals and tokens come after: `Expression.walk`, `Term.walk`, `walk_call`. What may not come after an expression is what
would go on with it: an operator, or a bracket after a name.
-/

namespace JackCompiler

variable {last : Position} {goals : List Goal} {tokens rest : List Token} {steps : Array Step}

/-! ## Single moves -/

@[simp] theorem appendList_append {α : Type} (xs : Array α) (as bs : List α) : xs ++ (as ++ bs) = xs ++ as ++ bs := by
  apply Array.ext'
  simp

@[simp] theorem walkFrom_emit (step : Step) :
    walkFrom last (.emit step :: goals) tokens steps = walkFrom last goals tokens (steps.push step) :=
  walkFrom_of_emit rfl

@[simp] theorem walkFrom_symbol (c : Char) (p : Position) :
    walkFrom last (.symbol c :: goals) (⟨.symbol c, p⟩ :: tokens) steps = walkFrom last goals tokens steps := by
  have h : (Goal.symbol c).move (some ⟨.symbol c, p⟩) = .take [] := by simp [Goal.move]
  rw [walkFrom_of_take h, List.nil_append]

/-- A part between the beginning and the end of its rule. -/
@[simp] theorem walkFrom_within (rule : Rule) (inner : List Goal) :
    walkFrom last (Goal.within rule inner ++ goals) tokens steps =
      walkFrom last (inner ++ .emit (.leave rule) :: goals) tokens (steps.push (.enter rule)) := by
  simp [Goal.within]

@[simp] theorem walkFrom_term :
    walkFrom last (.term :: goals) tokens steps =
      walkFrom last (.operand :: .emit (.leave .term) :: goals) tokens (steps.push (.enter .term)) := by
  rw [walkFrom_of_expand rfl]
  simp

@[simp] theorem walkFrom_expression :
    walkFrom last (.expression :: goals) tokens steps =
      walkFrom last (.term :: .operations :: .emit (.leave .expression) :: goals) tokens
        (steps.push (.enter .expression)) := by
  rw [walkFrom_of_expand rfl, walkFrom_within]
  rfl

/-! ## What may come after a part -/

/-- What comes next would not go on with a name: it is no bracket, no parenthesis and no dot. -/
def EndsTerm (rest : List Token) : Prop :=
  ∀ token ∈ rest.head?, token.kind ≠ .symbol '[' ∧ token.kind ≠ .symbol '(' ∧ token.kind ≠ .symbol '.'

/-- What comes next would not go on with an expression. -/
def EndsExpression (rest : List Token) : Prop :=
  EndsTerm rest ∧ ∀ token ∈ rest.head?, Goal.operator? token.kind = none

theorem endsTerm_operator (operator : BinaryOperator) (p : Position) :
    EndsTerm (⟨.symbol operator.symbol, p⟩ :: tokens) := by
  cases operator <;> simp [EndsTerm, BinaryOperator.symbol]

theorem endsExpression_comma (p : Position) : EndsExpression (⟨.symbol ',', p⟩ :: tokens) := by
  simp [EndsExpression, EndsTerm, Goal.operator?, BinaryOperator.ofSymbol?]

theorem endsExpression_semicolon (p : Position) : EndsExpression (⟨.symbol ';', p⟩ :: tokens) := by
  simp [EndsExpression, EndsTerm, Goal.operator?, BinaryOperator.ofSymbol?]

theorem endsExpression_parenthesis (p : Position) : EndsExpression (⟨.symbol ')', p⟩ :: tokens) := by
  simp [EndsExpression, EndsTerm, Goal.operator?, BinaryOperator.ofSymbol?]

theorem endsExpression_bracket (p : Position) : EndsExpression (⟨.symbol ']', p⟩ :: tokens) := by
  simp [EndsExpression, EndsTerm, Goal.operator?, BinaryOperator.ofSymbol?]

/-! ## Expressions -/

@[simp] theorem operator?_symbol (operator : BinaryOperator) :
    Goal.operator? (.symbol operator.symbol) = some operator := by
  cases operator <;> rfl

/-- The operators of an expression end where no operator follows. -/
theorem walkFrom_operations (h : EndsExpression rest) :
    walkFrom last (.operations :: goals) rest steps = walkFrom last goals rest steps := by
  have hm : Goal.operations.move rest.head? = .expand [] := by
    cases rest with
    | nil => rfl
    | cons token rest => simp [Goal.move, h.2 token rfl]
  rw [walkFrom_of_expand hm, List.nil_append]

/-- Another operator is taken with its second operand. -/
theorem walkFrom_operator (operator : BinaryOperator) (p : Position) :
    walkFrom last (.operations :: goals) (⟨.symbol operator.symbol, p⟩ :: tokens) steps =
      walkFrom last (.term :: .emit (.binary operator) :: .operations :: goals) tokens steps := by
  have h : Goal.operations.move (some ⟨.symbol operator.symbol, p⟩) =
      .take [.term, .emit (.binary operator), .operations] := by
    simp [Goal.move]
  rw [walkFrom_of_take h]
  rfl

/-- The first token of a term is taken. -/
theorem walkFrom_operand {kind : TokenKind} {p : Position} {new : List Goal} (h : Goal.operand? p kind = some new) :
    walkFrom last (.operand :: goals) (⟨kind, p⟩ :: tokens) steps = walkFrom last (new ++ goals) tokens steps :=
  walkFrom_of_take (by simp [Goal.move, h])

/-- A name by itself is a variable. -/
theorem walkFrom_reference (name : String) (p : Position) (h : EndsTerm rest) :
    walkFrom last (.reference name p :: goals) rest steps = walkFrom last goals rest (steps.push (.read name p)) := by
  have hm : (Goal.reference name p).move rest.head? = .expand [.emit (.read name p)] := by
    cases rest with
    | nil => rfl
    | cons token rest =>
      obtain ⟨h1, h2, h3⟩ := h token rfl
      simp [Goal.move, Goal.takeOptional, h1, h2, h3]
  rw [walkFrom_of_expand hm, List.singleton_append, walkFrom_emit]

/-- A name before a bracket is an array. -/
theorem walkFrom_reference_element (name : String) (p q : Position) :
    walkFrom last (.reference name p :: goals) (⟨.symbol '[', q⟩ :: tokens) steps =
      walkFrom last (.expression :: .symbol ']' :: .emit (.element name p) :: goals) tokens
        (steps.push (.use name p)) := by
  rw [walkFrom_of_take rfl]
  simp

/-- A name that begins a call is that of its callee, and the receiver is due. -/
theorem walkFrom_doCall (callee : Callee) (p : Position) :
    walkFrom last (.doCall :: goals) (unplaced callee.kinds ++ ⟨.symbol '(', p⟩ :: tokens) steps =
      walkFrom last (.arguments callee :: goals) tokens
        ((steps.push (.receiver callee)).push (.enter .expressionList)) := by
  cases callee with
  | own subroutine =>
    simp only [Callee.kinds, unplaced_cons, unplaced_nil, List.cons_append, List.nil_append]
    rw [walkFrom_of_take rfl, List.singleton_append, walkFrom_of_expand rfl]
    simp [Goal.callOf]
  | qualified qualifier subroutine =>
    simp only [Callee.kinds, unplaced_cons, unplaced_nil, List.cons_append, List.nil_append]
    rw [walkFrom_of_take rfl, List.singleton_append, walkFrom_of_take rfl, List.singleton_append, walkFrom_of_take rfl]
    simp [Goal.callOf]

/-- A call as a term begins like a call after `do`. -/
theorem walkFrom_operand_call (callee : Callee) (p : Position) :
    walkFrom last (.operand :: goals) (unplaced callee.kinds ++ ⟨.symbol '(', p⟩ :: tokens) steps =
      walkFrom last (.doCall :: goals) (unplaced callee.kinds ++ ⟨.symbol '(', p⟩ :: tokens) steps := by
  cases callee with
  | own subroutine =>
    simp only [Callee.kinds, unplaced_cons, unplaced_nil, List.cons_append, List.nil_append]
    rw [walkFrom_operand rfl, List.singleton_append, walkFrom_of_expand rfl, walkFrom_of_take rfl]
  | qualified qualifier subroutine =>
    simp only [Callee.kinds, unplaced_cons, unplaced_nil, List.cons_append, List.nil_append]
    rw [walkFrom_operand rfl, List.singleton_append, walkFrom_of_expand rfl, walkFrom_of_take rfl]

/-- A term begins with a token that can begin a term. -/
theorem Term.kinds_eq_cons (t : Term) :
    ∃ kind kinds, t.kinds = kind :: kinds ∧ (Goal.operand? .nowhere kind).isSome = true := by
  cases t with
  | constant word => exact ⟨_, _, rfl, by cases word <;> rfl⟩
  | call callee arguments => cases callee <;> exact ⟨_, _, rfl, rfl⟩
  | unary operator operand => exact ⟨_, _, rfl, by cases operator <;> rfl⟩
  | _ => exact ⟨_, _, rfl, rfl⟩

/-- An expression begins with a token that can begin a term. -/
theorem Expression.kinds_eq_cons :
    ∀ e : Expression, ∃ kind kinds, e.kinds = kind :: kinds ∧ (Goal.operand? .nowhere kind).isSome = true
  | .term t => t.kinds_eq_cons
  | .binary left operator right => by
    obtain ⟨kind, kinds, h, ho⟩ := left.kinds_eq_cons
    exact ⟨kind, kinds ++ .symbol operator.symbol :: right.kinds, by simp [Expression.kinds, h], ho⟩

/-- An argument begins with a token, whose place is kept. -/
theorem walkFrom_argument (callee : Callee) (count : Nat) (e : Expression) :
    walkFrom last (.argument callee count :: goals) (unplaced e.kinds ++ rest) steps =
      walkFrom last (.expression :: .emit (.argument callee (count + 1) (some .nowhere)) ::
        .moreArguments callee (count + 1) :: goals) (unplaced e.kinds ++ rest) steps := by
  obtain ⟨kind, kinds, h, -⟩ := e.kinds_eq_cons
  rw [walkFrom_of_expand rfl, h]
  rfl

/-- The arguments of a call are none, or a first one and others. -/
theorem walkFrom_arguments (callee : Callee) (e : Expression) :
    walkFrom last (.arguments callee :: goals) (unplaced e.kinds ++ rest) steps =
      walkFrom last (.argument callee 0 :: goals) (unplaced e.kinds ++ rest) steps := by
  obtain ⟨kind, kinds, h, ho⟩ := e.kinds_eq_cons
  have hk : kind ≠ .symbol ')' := by
    rintro rfl
    cases ho
  have hm : (Goal.arguments callee).move (unplaced e.kinds ++ rest).head? = .expand [.argument callee 0] := by
    simp [h, Goal.move, hk]
  rw [walkFrom_of_expand hm]
  rfl

/-- An argument ends before a comma or before the parenthesis after the last one. -/
theorem endsArgument {p : Position} (others : List Expression) :
    EndsExpression (unplaced (moreArgumentKinds others) ++ ⟨.symbol ')', p⟩ :: rest) := by
  cases others with
  | nil => exact endsExpression_parenthesis p
  | cons => exact endsExpression_comma .nowhere

mutual

/-- The operands and operators of an expression are walked through. -/
theorem Expression.walk_chain (e : Expression) {goals : List Goal} {rest : List Token} {steps : Array Step}
    (h : EndsTerm rest) :
    walkFrom last (.term :: .operations :: goals) (unplaced e.kinds ++ rest) steps =
      walkFrom last (.operations :: goals) rest (steps ++ e.chainSteps) := by
  cases e with
  | term t => rw [Expression.kinds, walkFrom_term, t.walk_inner h]; simp [Expression.chainSteps, during]
  | binary left operator right =>
    simp only [Expression.kinds, unplaced_append, unplaced_cons, List.append_assoc, List.cons_append]
    rw [left.walk_chain (endsTerm_operator operator _), walkFrom_operator, walkFrom_term, right.walk_inner h]
    simp [Expression.chainSteps, during]

/-- A term is walked through. -/
theorem Term.walk_inner (t : Term) {goals : List Goal} {rest : List Token} {steps : Array Step} (h : EndsTerm rest) :
    walkFrom last (.operand :: goals) (unplaced t.kinds ++ rest) steps =
      walkFrom last goals rest (steps ++ t.innerSteps) := by
  cases t with
  | integer | string =>
    simp only [Term.kinds, unplaced_cons, unplaced_nil, List.cons_append, List.nil_append]
    rw [walkFrom_operand rfl]
    simp [Term.innerSteps]
  | constant word =>
    simp only [Term.kinds, unplaced_cons, unplaced_nil, List.cons_append, List.nil_append]
    have hw : KeywordConstant.ofKeyword? word.keyword = some word := by cases word <;> rfl
    rw [walkFrom_operand (by rw [Goal.operand?, hw]; rfl)]
    simp [Term.innerSteps]
  | «variable» name =>
    simp only [Term.kinds, unplaced_cons, unplaced_nil, List.cons_append, List.nil_append]
    rw [walkFrom_operand rfl, List.singleton_append, walkFrom_reference name .nowhere h]
    simp [Term.innerSteps]
  | element name index =>
    simp only [Term.kinds, unplaced_cons, unplaced_append, unplaced_nil, List.cons_append, List.append_assoc,
      List.nil_append]
    rw [walkFrom_operand rfl, List.singleton_append, walkFrom_reference_element, walkFrom_expression,
      index.walk_chain (endsExpression_bracket _).1, walkFrom_operations (endsExpression_bracket _)]
    simp [Term.innerSteps, during]
  | call callee arguments =>
    simp only [Term.kinds, unplaced_cons, unplaced_append, unplaced_nil, List.cons_append, List.append_assoc,
      List.nil_append]
    rw [walkFrom_operand_call, walkFrom_doCall]
    rw [walk_arguments arguments callee]
    simp [Term.innerSteps, during]
  | parenthesized inner =>
    simp only [Term.kinds, unplaced_cons, unplaced_append, unplaced_nil, List.cons_append, List.append_assoc,
      List.nil_append]
    rw [walkFrom_operand rfl, List.cons_append, walkFrom_expression, inner.walk_chain (endsExpression_parenthesis _).1,
      walkFrom_operations (endsExpression_parenthesis _)]
    simp [Term.innerSteps, during]
  | unary operator operand =>
    simp only [Term.kinds, unplaced_cons, List.cons_append]
    have ho (p : Position) :
        Goal.operand? p (.symbol operator.symbol) = some [.term, .emit (.unary operator)] := by
      cases operator <;> rfl
    rw [walkFrom_operand (ho _), List.cons_append, walkFrom_term, operand.walk_inner h]
    simp [Term.innerSteps, during]

/-- The arguments of a call are walked through, and its parenthesis after them. -/
theorem walk_arguments (arguments : List Expression) (callee : Callee) {goals : List Goal} {rest : List Token}
    {steps : Array Step} {p : Position} :
    walkFrom last (.arguments callee :: goals) (unplaced (argumentKinds arguments) ++ ⟨.symbol ')', p⟩ :: rest) steps =
      walkFrom last goals rest (((steps ++ argumentSteps callee 0 arguments).push (.leave .expressionList)).push
        (.call callee arguments.length)) := by
  cases arguments with
  | nil =>
    simp only [argumentKinds, unplaced_nil, List.nil_append]
    rw [walkFrom_of_expand rfl]
    simp [Goal.endCall, argumentSteps]
  | cons argument others =>
    simp only [argumentKinds, unplaced_append, List.append_assoc]
    rw [walkFrom_arguments, walkFrom_argument, walkFrom_expression, argument.walk_chain (endsArgument others).1,
      walkFrom_operations (endsArgument others)]
    simp only [walkFrom_emit]
    rw [walk_moreArguments others callee 1]
    simp [argumentSteps, during, Nat.add_comm]

/-- The arguments of a call after `count` others are walked through. -/
theorem walk_moreArguments (arguments : List Expression) (callee : Callee) (count : Nat) {goals : List Goal}
    {rest : List Token} {steps : Array Step} {p : Position} :
    walkFrom last (.moreArguments callee count :: goals)
        (unplaced (moreArgumentKinds arguments) ++ ⟨.symbol ')', p⟩ :: rest) steps =
      walkFrom last goals rest (((steps ++ argumentSteps callee count arguments).push (.leave .expressionList)).push
        (.call callee (count + arguments.length))) := by
  cases arguments with
  | nil =>
    simp only [moreArgumentKinds, unplaced_nil, List.nil_append]
    rw [walkFrom_of_expand rfl]
    simp [Goal.endCall, argumentSteps]
  | cons argument others =>
    simp only [moreArgumentKinds, unplaced_append, unplaced_cons, List.append_assoc, List.cons_append]
    rw [walkFrom_of_take rfl, List.singleton_append, walkFrom_argument, walkFrom_expression,
      argument.walk_chain (endsArgument others).1, walkFrom_operations (endsArgument others)]
    simp only [walkFrom_emit]
    rw [walk_moreArguments others callee (count + 1)]
    simp [argumentSteps, during, Nat.add_comm, Nat.add_left_comm]

end

/-- A term is walked through. -/
theorem Term.walk (t : Term) (h : EndsTerm rest) :
    walkFrom last (.term :: goals) (unplaced t.kinds ++ rest) steps = walkFrom last goals rest (steps ++ t.steps) := by
  rw [walkFrom_term, t.walk_inner h]
  simp [Term.steps, during]

/-- An expression is walked through. -/
theorem Expression.walk (e : Expression) (h : EndsExpression rest) :
    walkFrom last (.expression :: goals) (unplaced e.kinds ++ rest) steps =
      walkFrom last goals rest (steps ++ e.steps) := by
  rw [walkFrom_expression, e.walk_chain h.1, walkFrom_operations h]
  simp [Expression.steps, during]

/-- A call is walked through. -/
theorem walk_call (callee : Callee) (arguments : List Expression) :
    walkFrom last (.doCall :: goals) (unplaced (callKinds callee arguments) ++ rest) steps =
      walkFrom last goals rest (steps ++ callSteps callee arguments) := by
  simp only [callKinds, unplaced_cons, unplaced_append, unplaced_nil, List.append_assoc, List.cons_append,
    List.nil_append]
  rw [walkFrom_doCall, walk_arguments arguments callee]
  simp [callSteps, during]

end JackCompiler
