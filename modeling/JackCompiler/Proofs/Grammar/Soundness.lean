import JackCompiler.Proofs.Grammar.WalkExpression

/-!
# What a walk takes is a tree

Every goal has a meaning of its own: the kinds of tokens that it may be met with, and the steps that go with them, said
with trees (`Goal.Reads`). A move keeps the meaning: what meets the goals that take the place of a goal meets the goal
(`reads_of_expand`, `reads_of_take`). So a walk that meets all goals has read what they mean, and a class without an error
is the class of a tree: `exists_tree_of_readClass`.
-/

namespace JackCompiler

namespace Goal

/-- What a goal may be met with: the kinds of tokens that it takes and the steps on the way. -/
def Reads : Goal → List TokenKind → List Step → Prop
  | emit step, ks, ss => ks = [] ∧ ss = [step]
  | classKeyword, ks, ss => ks = [.keyword .«class»] ∧ ss = []
  | symbol c, ks, ss => ks = [.symbol c] ∧ ss = []
  | className, ks, ss => ∃ name, ks = [.identifier name] ∧ ss = [.className name]
  | classVariables, ks, ss =>
    ∃ ds : List ClassVariables, ks = ds.flatMap ClassVariables.kinds ∧ ss = ds.flatMap ClassVariables.steps
  | typedNames kind, ks, ss => ∃ d : NamesOfType, ks = d.kinds ∧ ss = d.steps kind
  | names kind type, ks, ss =>
    ∃ name others, ks = .identifier name :: moreNameKinds others ∧ ss = declareSteps kind type (name :: others)
  | moreNames kind type, ks, ss => ∃ others, ks = moreNameKinds others ∧ ss = declareSteps kind type others
  | subroutines, ks, ss =>
    ∃ s : List Subroutine, ks = s.flatMap Subroutine.kinds ∧ ss = s.flatMap Subroutine.steps
  | resultType, ks, ss =>
    ∃ type : Option TypeName, ks = [type.elim (.keyword .void) TypeName.kind] ∧ ss = []
  | subroutine kind, ks, ss => ∃ s : Subroutine, s.kind = kind ∧ ks = s.kindsFromName ∧ ss = s.stepsFromName
  | parameters, ks, ss => ∃ ps, ks = Parameter.listKinds ps ∧ ss = ps.map Parameter.step
  | parameter, ks, ss => ∃ p ps, ks = Parameter.listKinds (p :: ps) ∧ ss = (p :: ps).map Parameter.step
  | parameterName type, ks, ss =>
    ∃ name ps, ks = .identifier name :: Parameter.moreKinds ps ∧
      ss = .declare .argument type name .nowhere :: ps.map Parameter.step
  | moreParameters, ks, ss => ∃ ps, ks = Parameter.moreKinds ps ∧ ss = ps.map Parameter.step
  | locals, ks, ss => ∃ ds : List NamesOfType, ks = ds.flatMap localKinds ∧ ss = ds.flatMap localSteps
  | statements, ks, ss => ∃ s, ks = blockKinds s ∧ ss = blockSteps s
  | target, ks, ss =>
    (∃ name value, ks = .identifier name :: .symbol '=' :: Expression.kinds value ∧
      ss = .use name .nowhere :: value.steps ++ [.assign name .nowhere]) ∨
    (∃ name index value,
      ks = .identifier name :: .symbol '[' :: Expression.kinds index ++ .symbol ']' :: .symbol '=' ::
        Expression.kinds value ∧
      ss = .use name .nowhere :: index.steps ++ .elementAddress name .nowhere :: value.steps ++ [.assignElement])
  | assignment name p, ks, ss =>
    (∃ value, ks = .symbol '=' :: Expression.kinds value ∧ ss = value.steps ++ [.assign name p]) ∨
    (∃ index value,
      ks = .symbol '[' :: Expression.kinds index ++ .symbol ']' :: .symbol '=' :: Expression.kinds value ∧
      ss = index.steps ++ .elementAddress name p :: value.steps ++ [.assignElement])
  | elseBlock, ks, ss =>
    (ks = [] ∧ ss = [.endIf]) ∨
    (∃ block, ks = .keyword .«else» :: braced (blockKinds block) ∧
      ss = .beginElse :: during .statements (blockSteps block) ++ [.endIfElse])
  | doCall, ks, ss => ∃ callee arguments, ks = callKinds callee arguments ∧ ss = callSteps callee arguments
  | result, ks, ss =>
    ∃ value : Option Expression, ks = value.elim [] Expression.kinds ∧ ss = value.elim [.noValue] Expression.steps
  | expression, ks, ss => ∃ e : Expression, ks = e.kinds ∧ ss = e.steps
  | operations, ks, ss =>
    ∃ os : List (BinaryOperator × Term), ks = os.flatMap (fun o => .symbol o.1.symbol :: o.2.kinds) ∧
      ss = os.flatMap fun o => o.2.steps ++ [.binary o.1]
  | term, ks, ss => ∃ t : Term, ks = t.kinds ∧ ss = t.steps
  | operand, ks, ss => ∃ t : Term, ks = t.kinds ∧ ss = t.innerSteps
  | reference name p, ks, ss =>
    (ks = [] ∧ ss = [.read name p]) ∨
    (∃ index, ks = .symbol '[' :: Expression.kinds index ++ [.symbol ']'] ∧
      ss = .use name p :: index.steps ++ [.element name p]) ∨
    (∃ callee arguments, .identifier name :: ks = callKinds callee arguments ∧ ss = callSteps callee arguments)
  | call name, ks, ss =>
    ∃ callee arguments, .identifier name :: ks = callKinds callee arguments ∧ ss = callSteps callee arguments
  | qualifiedCall qualifier, ks, ss =>
    ∃ subroutine arguments,
      ks = .identifier subroutine :: .symbol '(' :: argumentKinds arguments ++ [.symbol ')'] ∧
      ss = callSteps (.qualified qualifier subroutine) arguments
  | arguments callee, ks, ss =>
    ∃ es, ks = argumentKinds es ++ [.symbol ')'] ∧
      ss = argumentSteps callee 0 es ++ [.leave .expressionList, .call callee es.length]
  | argument callee count, ks, ss =>
    ∃ e es, ks = argumentKinds (e :: es) ++ [.symbol ')'] ∧
      ss = argumentSteps callee count (e :: es) ++ [.leave .expressionList, .call callee (count + (e :: es).length)]
  | moreArguments callee count, ks, ss =>
    ∃ es, ks = moreArgumentKinds es ++ [.symbol ')'] ∧
      ss = argumentSteps callee count es ++ [.leave .expressionList, .call callee (count + es.length)]

/-- What goals may be met with one after another. -/
def ReadsAll : List Goal → List TokenKind → List Step → Prop
  | [], ks, ss => ks = [] ∧ ss = []
  | goal :: goals, ks, ss =>
    ∃ k k' s s', ks = k ++ k' ∧ ss = s ++ s' ∧ goal.Reads k s ∧ ReadsAll goals k' s'

@[simp] theorem readsAll_nil {ks : List TokenKind} {ss : List Step} : ReadsAll [] ks ss ↔ ks = [] ∧ ss = [] :=
  Iff.rfl

@[simp] theorem readsAll_emit {step : Step} {goals : List Goal} {ks : List TokenKind} {ss : List Step} :
    ReadsAll (emit step :: goals) ks ss ↔ ∃ ss', ss = step :: ss' ∧ ReadsAll goals ks ss' := by
  constructor
  · rintro ⟨-, ks, -, ss', rfl, rfl, ⟨rfl, rfl⟩, h⟩
    exact ⟨ss', rfl, h⟩
  · rintro ⟨ss', rfl, h⟩
    exact ⟨[], ks, [step], ss', rfl, rfl, ⟨rfl, rfl⟩, h⟩

@[simp] theorem readsAll_symbol {c : Char} {goals : List Goal} {ks : List TokenKind} {ss : List Step} :
    ReadsAll (symbol c :: goals) ks ss ↔ ∃ ks', ks = .symbol c :: ks' ∧ ReadsAll goals ks' ss := by
  constructor
  · rintro ⟨-, ks', -, ss, rfl, rfl, ⟨rfl, rfl⟩, h⟩
    exact ⟨ks', rfl, h⟩
  · rintro ⟨ks', rfl, h⟩
    exact ⟨[.symbol c], ks', [], ss, rfl, rfl, ⟨rfl, rfl⟩, h⟩

theorem readsAll_append {goals others : List Goal} {ks : List TokenKind} {ss : List Step} :
    ReadsAll (goals ++ others) ks ss ↔
      ∃ k k' s s', ks = k ++ k' ∧ ss = s ++ s' ∧ ReadsAll goals k s ∧ ReadsAll others k' s' := by
  induction goals generalizing ks ss with
  | nil =>
    constructor
    · intro h
      exact ⟨[], ks, [], ss, rfl, rfl, ⟨rfl, rfl⟩, h⟩
    · rintro ⟨-, k', -, s', rfl, rfl, ⟨rfl, rfl⟩, h⟩
      exact h
  | cons goal goals ih =>
    constructor
    · rintro ⟨k, k', s, s', rfl, rfl, h, h'⟩
      obtain ⟨k1, k2, s1, s2, rfl, rfl, h1, h2⟩ := ih.mp h'
      exact ⟨k ++ k1, k2, s ++ s1, s2, by simp, by simp, ⟨k, k1, s, s1, rfl, rfl, h, h1⟩, h2⟩
    · rintro ⟨-, k2, -, s2, rfl, rfl, ⟨k, k1, s, s1, rfl, rfl, h, h1⟩, h2⟩
      exact ⟨k, k1 ++ k2, s, s1 ++ s2, by simp, by simp, h, ih.mpr ⟨k1, k2, s1, s2, rfl, rfl, h1, h2⟩⟩

/-- A single goal at the end is met with all that is left. -/
@[simp] theorem readsAll_singleton {goal : Goal} {ks : List TokenKind} {ss : List Step} :
    ReadsAll [goal] ks ss ↔ goal.Reads ks ss := by
  constructor
  · rintro ⟨k, -, s, -, rfl, rfl, h, rfl, rfl⟩
    simpa using h
  · intro h
    exact ⟨ks, [], ss, [], by simp, by simp, h, rfl, rfl⟩

/-! ## Moves keep the meaning -/

theorem eq_of_takeOptional_expand {head : Option Token} {c : Char} {goals others new : List Goal}
    (h : takeOptional head c goals others = .expand new) : new = others := by
  unfold takeOptional at h
  split at h <;> cases h
  rfl

/-- The operands after the first one of an expression make it lean to the left. -/
def chain (first : Expression) (os : List (BinaryOperator × Term)) : Expression :=
  os.foldl (fun e o => .binary e o.1 o.2) first

theorem chain_kinds (first : Expression) (os : List (BinaryOperator × Term)) :
    (chain first os).kinds = first.kinds ++ os.flatMap fun o => .symbol o.1.symbol :: o.2.kinds := by
  induction os generalizing first with
  | nil => simp [chain]
  | cons o os ih =>
    rw [chain, List.foldl_cons, ← chain, ih]
    simp [Expression.kinds]

theorem chain_steps (first : Expression) (os : List (BinaryOperator × Term)) :
    (chain first os).chainSteps = first.chainSteps ++ os.flatMap fun o => o.2.steps ++ [.binary o.1] := by
  induction os generalizing first with
  | nil => simp [chain]
  | cons o os ih =>
    rw [chain, List.foldl_cons, ← chain, ih]
    simp [Expression.chainSteps, Term.steps]

/-- The goals after the name of a callee are met with the arguments of a call. -/
theorem reads_callOf {callee : Callee} {ks : List TokenKind} {ss : List Step} (h : ReadsAll (callOf callee) ks ss) :
    ∃ es, ks = .symbol '(' :: argumentKinds es ++ [.symbol ')'] ∧ ss = callSteps callee es := by
  simp only [callOf, readsAll_emit, readsAll_symbol, readsAll_singleton, Reads] at h
  obtain ⟨-, rfl, ks, rfl, -, rfl, es, rfl, rfl⟩ := h
  exact ⟨es, rfl, by simp [callSteps, during]⟩

/-- What meets the goals that take the place of a goal meets the goal, whatever the next token was. Only an argument
remembers where it begins. -/
theorem reads_of_expand_at {goal : Goal} {new : List Goal} {ks : List TokenKind} {ss : List Step} {head : Option Token}
    (hp : ∀ callee count, goal = .argument callee count → head.map (·.position) = some .nowhere)
    (hm : goal.move head = .expand new) (h : ReadsAll new ks ss) : goal.Reads ks ss := by
  cases goal with
  | classVariables | subroutines | statements | operations =>
    simp only [move] at hm
    split at hm
    · cases hm
    · cases hm
      obtain ⟨rfl, rfl⟩ := h
      exact ⟨[], rfl, rfl⟩
  | moreNames | moreParameters =>
    obtain rfl := eq_of_takeOptional_expand hm
    obtain ⟨rfl, rfl⟩ := h
    exact ⟨[], rfl, rfl⟩
  | locals =>
    simp only [move] at hm
    split at hm <;> cases hm
    obtain ⟨rfl, rfl⟩ := h
    exact ⟨[], rfl, rfl⟩
  | parameters =>
    simp only [move] at hm
    split at hm <;> cases hm
    · obtain ⟨rfl, rfl⟩ := h
      exact ⟨[], rfl, rfl⟩
    · simp only [readsAll_singleton, Reads] at h
      obtain ⟨p, ps, rfl, rfl⟩ := h
      exact ⟨p :: ps, rfl, rfl⟩
  | assignment name p =>
    obtain rfl := eq_of_takeOptional_expand hm
    simp only [readsAll_symbol] at h
    obtain ⟨-, rfl, ks, ks', ss, ss', rfl, rfl, ⟨value, rfl, rfl⟩, h⟩ := h
    simp only [readsAll_emit, readsAll_nil] at h
    obtain ⟨-, rfl, rfl, rfl⟩ := h
    exact .inl ⟨value, by simp, rfl⟩
  | elseBlock =>
    simp only [move] at hm
    split at hm <;> cases hm
    simp only [readsAll_emit, readsAll_nil] at h
    obtain ⟨-, rfl, rfl, rfl⟩ := h
    exact .inl ⟨rfl, rfl⟩
  | result =>
    simp only [move] at hm
    split at hm <;> cases hm
    · simp only [readsAll_emit, readsAll_nil] at h
      obtain ⟨-, rfl, rfl, rfl⟩ := h
      exact ⟨none, rfl, rfl⟩
    · simp only [readsAll_singleton, Reads] at h
      obtain ⟨e, rfl, rfl⟩ := h
      exact ⟨some e, rfl, rfl⟩
  | expression =>
    cases hm
    simp only [within, List.cons_append, List.nil_append, readsAll_emit] at h
    obtain ⟨-, rfl, -, ks, -, ss, rfl, rfl, ⟨t, rfl, rfl⟩, -, ks', -, ss', rfl, rfl, ⟨os, rfl, rfl⟩, h⟩ := h
    simp only [readsAll_emit, readsAll_nil] at h
    obtain ⟨-, rfl, rfl, rfl⟩ := h
    refine ⟨chain (.term t) os, ?_, ?_⟩
    · simp [chain_kinds, Expression.kinds]
    · simp [Expression.steps, chain_steps, Expression.chainSteps, Term.steps, during]
  | term =>
    cases hm
    simp only [within, List.cons_append, List.nil_append, readsAll_emit] at h
    obtain ⟨-, rfl, -, ks, -, ss, rfl, rfl, ⟨t, rfl, rfl⟩, h⟩ := h
    simp only [readsAll_emit, readsAll_nil] at h
    obtain ⟨-, rfl, rfl, rfl⟩ := h
    exact ⟨t, by simp, rfl⟩
  | reference name p =>
    simp only [move] at hm
    split at hm
    · cases hm
      simp only [readsAll_singleton, Reads] at h
      exact .inr (.inr h)
    · obtain rfl := eq_of_takeOptional_expand hm
      simp only [readsAll_emit, readsAll_nil] at h
      obtain ⟨-, rfl, rfl, rfl⟩ := h
      exact .inl ⟨rfl, rfl⟩
  | «call» name =>
    obtain rfl := eq_of_takeOptional_expand hm
    obtain ⟨es, rfl, rfl⟩ := reads_callOf h
    exact ⟨.own name, es, rfl, rfl⟩
  | arguments callee =>
    simp only [move] at hm
    split at hm <;> cases hm
    · simp only [endCall, readsAll_emit, readsAll_symbol, readsAll_nil] at h
      obtain ⟨-, rfl, -, rfl, -, rfl, rfl, rfl⟩ := h
      exact ⟨[], rfl, rfl⟩
    · simp only [readsAll_singleton, Reads] at h
      obtain ⟨e, es, rfl, rfl⟩ := h
      exact ⟨e :: es, rfl, by simp⟩
  | argument callee count =>
    cases hm
    obtain ⟨-, ks, -, ss, rfl, rfl, ⟨e, rfl, rfl⟩, h⟩ := h
    simp only [readsAll_emit, readsAll_singleton, Reads] at h
    obtain ⟨-, rfl, es, rfl, rfl⟩ := h
    refine ⟨e, es, by simp [argumentKinds], ?_⟩
    simp [hp callee count rfl, argumentSteps, Expression.steps, Nat.add_assoc, Nat.add_comm 1]
  | moreArguments callee count =>
    obtain rfl := eq_of_takeOptional_expand hm
    simp only [endCall, readsAll_emit, readsAll_symbol, readsAll_nil] at h
    obtain ⟨-, rfl, -, rfl, -, rfl, rfl, rfl⟩ := h
    exact ⟨[], rfl, rfl⟩
  | className | names | parameterName | target | doCall | qualifiedCall | subroutine =>
    simp only [move, takeName] at hm
    split at hm <;> cases hm
  | typedNames | parameter =>
    simp only [move, takeType] at hm
    split at hm <;> cases hm
  | _ =>
    simp only [move, takeType] at hm
    (repeat' split at hm) <;> cases hm

/-- What meets the goals that take the place of a goal meets the goal. -/
theorem reads_of_expand {goal : Goal} {new : List Goal} {ks : List TokenKind} {ss : List Step} {later : List Token}
    (hm : goal.move (unplaced ks ++ later).head? = .expand new) (h : ReadsAll new ks ss) : goal.Reads ks ss := by
  refine reads_of_expand_at ?_ hm h
  rintro callee count rfl
  cases hm
  obtain ⟨-, ks, -, ss, rfl, rfl, ⟨e, rfl, rfl⟩, h⟩ := h
  obtain ⟨kind, kinds, hk, -⟩ := e.kinds_eq_cons
  rw [hk]
  rfl

theorem eq_of_takeName_take {kind : TokenKind} {p : Position} {expected : String}
    {goals : String → Position → List Goal} {new : List Goal}
    (h : takeName (some ⟨kind, p⟩) expected goals = .take new) :
    ∃ name, kind = .identifier name ∧ new = goals name p := by
  cases kind <;> cases h
  exact ⟨_, rfl, rfl⟩

theorem eq_kind_of_typeName {kind : TokenKind} {type : String} (h : typeName? kind = some type) :
    ∃ t : TypeName, kind = t.kind ∧ type = t.name := by
  unfold typeName? at h
  split at h <;> cases h
  · exact ⟨.int, rfl, rfl⟩
  · exact ⟨.char, rfl, rfl⟩
  · exact ⟨.boolean, rfl, rfl⟩
  · exact ⟨.ofClass _, rfl, rfl⟩

theorem eq_of_takeType_take {kind : TokenKind} {p : Position} {expected : String} {goals : String → List Goal}
    {new : List Goal} (h : takeType (some ⟨kind, p⟩) expected goals = .take new) :
    ∃ type : TypeName, kind = type.kind ∧ new = goals type.name := by
  simp only [takeType, Option.bind_some] at h
  split at h <;> cases h
  next ht =>
  obtain ⟨type, rfl, rfl⟩ := eq_kind_of_typeName ht
  exact ⟨type, rfl, rfl⟩

theorem eq_of_takeOptional_take {kind : TokenKind} {p : Position} {c : Char} {goals others new : List Goal}
    (h : takeOptional (some ⟨kind, p⟩) c goals others = .take new) : kind = .symbol c ∧ new = goals := by
  simp only [takeOptional, Option.any_some, decide_eq_true_eq] at h
  split at h <;> cases h
  exact ⟨‹_›, rfl⟩

theorem eq_keyword_of_classVariableKind {kind : TokenKind} {k : VariableKind}
    (h : classVariableKind? kind = some k) :
    ∃ c : ClassVariableKind, kind = .keyword c.keyword ∧ k = c.kind := by
  unfold classVariableKind? at h
  split at h <;> cases h
  · exact ⟨.static, rfl, rfl⟩
  · exact ⟨.field, rfl, rfl⟩

theorem eq_keyword_of_subroutineKind {kind : TokenKind} {k : SubroutineKind} (h : subroutineKind? kind = some k) :
    kind = .keyword k.keyword := by
  unfold subroutineKind? at h
  split at h <;> cases h <;> rfl

theorem eq_symbol_of_operator {kind : TokenKind} {operator : BinaryOperator} (h : operator? kind = some operator) :
    kind = .symbol operator.symbol := by
  cases kind <;> simp only [operator?] at h
  case symbol c =>
    unfold BinaryOperator.ofSymbol? at h
    split at h <;> cases h <;> rfl
  all_goals cases h

theorem eq_keyword_of_constant {word : Keyword} {constant : KeywordConstant}
    (h : KeywordConstant.ofKeyword? word = some constant) : word = constant.keyword := by
  unfold KeywordConstant.ofKeyword? at h
  split at h <;> cases h <;> rfl

/-- The goals of a block are met with its statements in braces. -/
theorem reads_block {goals : List Goal} {ks : List TokenKind} {ss : List Step} (h : ReadsAll (block ++ goals) ks ss) :
    ∃ b ks' ss', ks = braced (blockKinds b) ++ ks' ∧ ss = during .statements (blockSteps b) ++ ss' ∧
      ReadsAll goals ks' ss' := by
  simp only [block, within, List.cons_append, List.nil_append, readsAll_symbol, readsAll_emit] at h
  obtain ⟨-, rfl, -, rfl, -, ks, -, ss, rfl, rfl, ⟨b, rfl, rfl⟩, h⟩ := h
  simp only [readsAll_symbol, readsAll_emit] at h
  obtain ⟨ss, rfl, ks, rfl, h⟩ := h
  exact ⟨b, ks, ss, by simp [braced], by simp [during], h⟩

/-- The goals of a condition are met with it in parentheses. -/
theorem reads_condition {goals : List Goal} {ks : List TokenKind} {ss : List Step}
    (h : ReadsAll (symbol '(' :: expression :: symbol ')' :: goals) ks ss) :
    ∃ e ks' ss', ks = conditionKinds e ++ ks' ∧ ss = Expression.steps e ++ ss' ∧ ReadsAll goals ks' ss' := by
  rw [readsAll_symbol] at h
  obtain ⟨-, rfl, -, ks, -, ss, rfl, rfl, ⟨e, rfl, rfl⟩, h⟩ := h
  rw [readsAll_symbol] at h
  obtain ⟨ks, rfl, h⟩ := h
  exact ⟨e, ks, ss, by simp [conditionKinds], rfl, h⟩

/-- What meets the goals after the first word of a statement is the rest of a statement. -/
theorem reads_statement {kind : TokenKind} {goals : List Goal} {ks : List TokenKind} {ss : List Step}
    (hs : statement? kind = some goals) (h : ReadsAll goals ks ss) :
    ∃ s : Statement, kind :: ks = s.kinds ∧ ss = s.steps := by
  unfold statement? at hs
  split at hs <;> cases hs <;> simp only [within, List.cons_append, List.nil_append, List.append_assoc] at h
  · rw [readsAll_emit] at h
    obtain ⟨-, rfl, k, k', s, s', rfl, rfl, ht, h⟩ := h
    simp only [readsAll_symbol, readsAll_emit, readsAll_nil] at h
    obtain ⟨-, rfl, -, rfl, rfl, rfl⟩ := h
    rcases ht with ⟨name, value, rfl, rfl⟩ | ⟨name, index, value, rfl, rfl⟩
    · exact ⟨.let name value, by simp [Statement.kinds], by simp [Statement.steps, during]⟩
    · exact ⟨.letElement name index value, by simp [Statement.kinds], by simp [Statement.steps, during]⟩
  · rw [readsAll_emit] at h
    obtain ⟨ss, rfl, h⟩ := h
    obtain ⟨e, k, s, rfl, rfl, hb⟩ := reads_condition h
    rw [readsAll_emit] at hb
    obtain ⟨s, rfl, hb⟩ := hb
    obtain ⟨b, -, -, rfl, rfl, k, k', s, s', rfl, rfl, he, hl⟩ := reads_block hb
    simp only [readsAll_emit, readsAll_nil] at hl
    obtain ⟨-, rfl, rfl, rfl⟩ := hl
    rcases he with ⟨rfl, rfl⟩ | ⟨b', rfl, rfl⟩
    · exact ⟨.if e b, by simp [Statement.kinds], by simp [Statement.steps, during]⟩
    · exact ⟨.ifElse e b b', by simp [Statement.kinds], by simp [Statement.steps, during]⟩
  · simp only [readsAll_emit] at h
    obtain ⟨-, rfl, ss, rfl, h⟩ := h
    obtain ⟨e, k, s, rfl, rfl, hb⟩ := reads_condition h
    rw [readsAll_emit] at hb
    obtain ⟨s, rfl, hb⟩ := hb
    obtain ⟨b, k, s, rfl, rfl, hl⟩ := reads_block hb
    simp only [readsAll_emit, readsAll_nil] at hl
    obtain ⟨-, rfl, -, rfl, rfl, rfl⟩ := hl
    exact ⟨.while e b, by simp [Statement.kinds], by simp [Statement.steps, during]⟩
  · rw [readsAll_emit] at h
    obtain ⟨-, rfl, -, k, -, s, rfl, rfl, ⟨callee, arguments, rfl, rfl⟩, h⟩ := h
    simp only [readsAll_symbol, readsAll_emit, readsAll_nil] at h
    obtain ⟨-, rfl, -, rfl, -, rfl, rfl, rfl⟩ := h
    exact ⟨.do callee arguments, by simp [Statement.kinds], by simp [Statement.steps, during]⟩
  · rw [readsAll_emit] at h
    obtain ⟨-, rfl, -, k, -, s, rfl, rfl, ⟨value, rfl, rfl⟩, h⟩ := h
    simp only [readsAll_symbol, readsAll_emit, readsAll_nil] at h
    obtain ⟨-, rfl, -, rfl, -, rfl, rfl, rfl⟩ := h
    exact ⟨.return value, by simp [Statement.kinds], by simp [Statement.steps, during]⟩

/-- What meets the goals after the first token of a term is the rest of a term. -/
theorem reads_operand {kind : TokenKind} {goals : List Goal} {ks : List TokenKind} {ss : List Step}
    (ho : operand? .nowhere kind = some goals) (h : ReadsAll goals ks ss) :
    ∃ t : Term, kind :: ks = t.kinds ∧ ss = t.innerSteps := by
  cases kind with
  | integer | string =>
    cases ho
    simp only [readsAll_emit, readsAll_nil] at h
    obtain ⟨-, rfl, rfl, rfl⟩ := h
    first
    | exact ⟨.integer _, rfl, rfl⟩
    | exact ⟨.string _, rfl, rfl⟩
  | keyword word =>
    simp only [operand?, Option.map_eq_some_iff] at ho
    obtain ⟨constant, hc, rfl⟩ := ho
    obtain rfl := eq_keyword_of_constant hc
    simp only [readsAll_emit, readsAll_nil] at h
    obtain ⟨-, rfl, rfl, rfl⟩ := h
    exact ⟨.constant constant, rfl, rfl⟩
  | identifier name =>
    cases ho
    simp only [readsAll_singleton, Reads] at h
    rcases h with ⟨rfl, rfl⟩ | ⟨index, rfl, rfl⟩ | ⟨callee, arguments, hk, rfl⟩
    · exact ⟨.variable name, rfl, rfl⟩
    · exact ⟨.element name index, rfl, rfl⟩
    · exact ⟨.call callee arguments, hk, rfl⟩
  | symbol c =>
    simp only [operand?] at ho
    split at ho
    · cases ho
      obtain ⟨-, ks, -, ss, rfl, rfl, ⟨e, rfl, rfl⟩, h⟩ := h
      simp only [readsAll_symbol, readsAll_nil] at h
      obtain ⟨-, rfl, rfl, rfl⟩ := h
      exact ⟨.parenthesized e, by simp [Term.kinds, *], by simp [Term.innerSteps, Expression.steps]⟩
    · split at ho
      · cases ho
        obtain ⟨-, ks, -, ss, rfl, rfl, ⟨t, rfl, rfl⟩, h⟩ := h
        simp only [readsAll_emit, readsAll_nil] at h
        obtain ⟨-, rfl, rfl, rfl⟩ := h
        exact ⟨.unary .negate t, by simp [Term.kinds, UnaryOperator.symbol, *], rfl⟩
      · split at ho
        · cases ho
          obtain ⟨-, ks, -, ss, rfl, rfl, ⟨t, rfl, rfl⟩, h⟩ := h
          simp only [readsAll_emit, readsAll_nil] at h
          obtain ⟨-, rfl, rfl, rfl⟩ := h
          exact ⟨.unary .complement t, by simp [Term.kinds, UnaryOperator.symbol, *], rfl⟩
        · cases ho

/-- What meets the goals after the name of a subroutine is the rest of the subroutine. -/
theorem reads_subroutine {kind : SubroutineKind} {name : String} {p : Position} {ks : List TokenKind} {ss : List Step}
    {new : List Goal} (hm : (subroutine kind).move (some ⟨.identifier name, p⟩) = .take new) (h : ReadsAll new ks ss) :
    (subroutine kind).Reads (.identifier name :: ks) ss := by
  cases hm
  simp only [within, List.cons_append, List.nil_append, readsAll_emit, readsAll_symbol] at h
  obtain ⟨-, rfl, -, rfl, -, rfl, -, ks, -, ss, rfl, rfl, ⟨ps, rfl, rfl⟩, h⟩ := h
  simp only [readsAll_emit, readsAll_symbol] at h
  obtain ⟨-, rfl, -, rfl, -, rfl, -, rfl, -, ks, -, ss, rfl, rfl, ⟨ds, rfl, rfl⟩, h⟩ := h
  simp only [readsAll_emit] at h
  obtain ⟨-, rfl, -, rfl, -, ks, -, ss, rfl, rfl, ⟨body, rfl, rfl⟩, h⟩ := h
  simp only [readsAll_emit, readsAll_symbol, readsAll_nil] at h
  obtain ⟨-, rfl, -, rfl, -, rfl, -, rfl, rfl, rfl⟩ := h
  exact ⟨⟨kind, none, name, ps, ds, body⟩, rfl, by simp [Subroutine.kindsFromName, braced],
    by simp [Subroutine.stepsFromName, during]⟩

/-- What meets the goals that take the place of a goal meets the goal, together with the token that was taken. -/
theorem reads_of_take {goal : Goal} {kind : TokenKind} {new : List Goal} {ks : List TokenKind} {ss : List Step}
    (hm : goal.move (some ⟨kind, .nowhere⟩) = .take new) (h : ReadsAll new ks ss) : goal.Reads (kind :: ks) ss := by
  cases goal with
  | classKeyword | symbol =>
    simp only [move, Option.any_some, decide_eq_true_eq] at hm
    split at hm <;> cases hm
    next hk =>
    obtain ⟨rfl, rfl⟩ := h
    exact ⟨by rw [hk], rfl⟩
  | className =>
    obtain ⟨name, rfl, rfl⟩ := eq_of_takeName_take hm
    simp only [readsAll_emit, readsAll_nil] at h
    obtain ⟨-, rfl, rfl, rfl⟩ := h
    exact ⟨name, rfl, rfl⟩
  | classVariables =>
    simp only [move, Option.bind_some] at hm
    split at hm <;> cases hm
    next hk =>
    obtain ⟨c, rfl, rfl⟩ := eq_keyword_of_classVariableKind hk
    simp only [within, List.cons_append, List.nil_append, readsAll_emit] at h
    obtain ⟨-, rfl, -, k, -, s, rfl, rfl, ⟨d, rfl, rfl⟩, h⟩ := h
    simp only [readsAll_symbol, readsAll_emit, readsAll_singleton, Reads] at h
    obtain ⟨-, rfl, -, rfl, ds, rfl, rfl⟩ := h
    exact ⟨⟨c, d⟩ :: ds, by simp [ClassVariables.kinds], by simp [ClassVariables.steps, during]⟩
  | typedNames k =>
    obtain ⟨type, rfl, rfl⟩ := eq_of_takeType_take hm
    simp only [readsAll_singleton, Reads] at h
    obtain ⟨name, others, rfl, rfl⟩ := h
    exact ⟨⟨type, name, others⟩, rfl, rfl⟩
  | names k type =>
    obtain ⟨name, rfl, rfl⟩ := eq_of_takeName_take hm
    simp only [readsAll_emit, readsAll_singleton, Reads] at h
    obtain ⟨-, rfl, others, rfl, rfl⟩ := h
    exact ⟨name, others, rfl, rfl⟩
  | moreNames k type =>
    obtain ⟨rfl, rfl⟩ := eq_of_takeOptional_take hm
    simp only [readsAll_singleton, Reads] at h
    obtain ⟨name, others, rfl, rfl⟩ := h
    exact ⟨name :: others, rfl, rfl⟩
  | subroutines =>
    simp only [move, Option.bind_some] at hm
    split at hm <;> cases hm
    next hk =>
    obtain rfl := eq_keyword_of_subroutineKind hk
    simp only [within, List.cons_append, List.nil_append, readsAll_emit] at h
    obtain ⟨-, rfl, -, k, -, s, rfl, rfl, ⟨type, rfl, rfl⟩, -, k', -, s', rfl, rfl, ⟨sub, rfl, rfl, rfl⟩, h⟩ := h
    simp only [readsAll_emit, readsAll_singleton, Reads] at h
    obtain ⟨-, rfl, subs, rfl, rfl⟩ := h
    exact ⟨{ sub with resultType := type } :: subs, by simp [Subroutine.kinds, Subroutine.kindsFromName],
      by simp [Subroutine.steps, Subroutine.stepsFromName, during]⟩
  | resultType =>
    simp only [move, Option.any_some, decide_eq_true_eq] at hm
    split at hm
    · next hk =>
      cases hm
      obtain ⟨rfl, rfl⟩ := h
      exact ⟨none, by rw [hk]; rfl, rfl⟩
    · obtain ⟨type, rfl, rfl⟩ := eq_of_takeType_take hm
      obtain ⟨rfl, rfl⟩ := h
      exact ⟨some type, rfl, rfl⟩
  | subroutine k =>
    obtain ⟨name, rfl, -⟩ := eq_of_takeName_take hm
    exact reads_subroutine hm h
  | parameter =>
    obtain ⟨type, rfl, rfl⟩ := eq_of_takeType_take hm
    simp only [readsAll_singleton, Reads] at h
    obtain ⟨name, ps, rfl, rfl⟩ := h
    exact ⟨⟨type, name⟩, ps, rfl, rfl⟩
  | parameterName type =>
    obtain ⟨name, rfl, rfl⟩ := eq_of_takeName_take hm
    simp only [readsAll_emit, readsAll_singleton, Reads] at h
    obtain ⟨-, rfl, ps, rfl, rfl⟩ := h
    exact ⟨name, ps, rfl, rfl⟩
  | moreParameters =>
    obtain ⟨rfl, rfl⟩ := eq_of_takeOptional_take hm
    simp only [readsAll_singleton, Reads] at h
    obtain ⟨p, ps, rfl, rfl⟩ := h
    exact ⟨p :: ps, rfl, rfl⟩
  | locals =>
    simp only [move, Option.any_some, decide_eq_true_eq] at hm
    split at hm <;> cases hm
    next hk =>
    simp only [within, List.cons_append, List.nil_append, readsAll_emit] at h
    obtain ⟨-, rfl, -, k, -, s, rfl, rfl, ⟨d, rfl, rfl⟩, h⟩ := h
    simp only [readsAll_symbol, readsAll_emit, readsAll_singleton, Reads] at h
    obtain ⟨-, rfl, -, rfl, ds, rfl, rfl⟩ := h
    exact ⟨d :: ds, by simp [localKinds, hk], by simp [localSteps, during]⟩
  | statements =>
    simp only [move, Option.bind_some] at hm
    split at hm <;> cases hm
    next hs =>
    obtain ⟨k, k', s, s', rfl, rfl, h, h'⟩ := readsAll_append.mp h
    obtain ⟨st, hk, rfl⟩ := reads_statement hs h
    simp only [readsAll_singleton, Reads] at h'
    obtain ⟨others, rfl, rfl⟩ := h'
    exact ⟨st :: others, by rw [blockKinds, ← hk]; rfl, by rw [blockSteps]⟩
  | target =>
    obtain ⟨name, rfl, rfl⟩ := eq_of_takeName_take hm
    simp only [readsAll_emit, readsAll_singleton, Reads] at h
    obtain ⟨-, rfl, ⟨value, rfl, rfl⟩ | ⟨index, value, rfl, rfl⟩⟩ := h
    · exact .inl ⟨name, value, rfl, rfl⟩
    · exact .inr ⟨name, index, value, rfl, rfl⟩
  | assignment name p =>
    obtain ⟨rfl, rfl⟩ := eq_of_takeOptional_take hm
    obtain ⟨-, k, -, s, rfl, rfl, ⟨index, rfl, rfl⟩, h⟩ := h
    simp only [readsAll_symbol, readsAll_emit] at h
    obtain ⟨-, rfl, -, rfl, -, rfl, -, k, -, s, rfl, rfl, ⟨value, rfl, rfl⟩, h⟩ := h
    simp only [readsAll_emit, readsAll_nil] at h
    obtain ⟨-, rfl, rfl, rfl⟩ := h
    exact .inr ⟨index, value, by simp, by simp⟩
  | elseBlock =>
    simp only [move, Option.any_some, decide_eq_true_eq] at hm
    split at hm <;> cases hm
    next hk =>
    rw [List.cons_append, readsAll_emit] at h
    obtain ⟨s, rfl, h⟩ := h
    obtain ⟨b, k, s, rfl, rfl, hl⟩ := reads_block h
    simp only [readsAll_emit, readsAll_nil] at hl
    obtain ⟨-, rfl, rfl, rfl⟩ := hl
    exact .inr ⟨b, by simp [hk], by simp⟩
  | doCall =>
    obtain ⟨name, rfl, rfl⟩ := eq_of_takeName_take hm
    simpa only [readsAll_singleton, Reads] using h
  | operations =>
    simp only [move, Option.bind_some] at hm
    split at hm <;> cases hm
    next operator hk =>
    obtain rfl := eq_symbol_of_operator hk
    obtain ⟨-, k, -, s, rfl, rfl, ⟨t, rfl, rfl⟩, h⟩ := h
    simp only [readsAll_emit, readsAll_singleton, Reads] at h
    obtain ⟨-, rfl, os, rfl, rfl⟩ := h
    exact ⟨(operator, t) :: os, by simp, by simp⟩
  | operand =>
    simp only [move, Option.bind_some] at hm
    split at hm <;> cases hm
    next ho => exact reads_operand ho h
  | reference name p =>
    simp only [move, Option.any_some] at hm
    split at hm
    · cases hm
    · obtain ⟨rfl, rfl⟩ := eq_of_takeOptional_take hm
      rw [readsAll_emit] at h
      obtain ⟨-, rfl, -, k, -, s, rfl, rfl, ⟨index, rfl, rfl⟩, h⟩ := h
      simp only [readsAll_symbol, readsAll_emit, readsAll_nil] at h
      obtain ⟨-, rfl, -, rfl, rfl, rfl⟩ := h
      exact .inr (.inl ⟨index, rfl, rfl⟩)
  | «call» name =>
    obtain ⟨rfl, rfl⟩ := eq_of_takeOptional_take hm
    simp only [readsAll_singleton, Reads] at h
    obtain ⟨sub, es, rfl, rfl⟩ := h
    exact ⟨.qualified name sub, es, rfl, rfl⟩
  | qualifiedCall qualifier =>
    obtain ⟨name, rfl, rfl⟩ := eq_of_takeName_take hm
    obtain ⟨es, rfl, rfl⟩ := reads_callOf h
    exact ⟨name, es, rfl, rfl⟩
  | moreArguments callee count =>
    obtain ⟨rfl, rfl⟩ := eq_of_takeOptional_take hm
    simp only [readsAll_singleton, Reads] at h
    obtain ⟨e, es, rfl, rfl⟩ := h
    exact ⟨e :: es, rfl, rfl⟩
  | _ =>
    simp only [move] at hm
    (repeat' split at hm) <;> cases hm

/-- Only a goal that is a step goes that step. -/
theorem eq_emit_of_move {goal : Goal} {head : Option Token} {step : Step} (h : goal.move head = .emit step) :
    goal = .emit step := by
  cases goal <;> simp only [move, takeName, takeType, takeOptional] at h
  case emit => cases h; rfl
  all_goals (repeat' split at h) <;> cases h

end Goal

/-! ## Walks -/

/-- A walk that meets all goals has read what they mean. -/
theorem readsAll_of_walkFrom {last : Position} {goals : List Goal} {kinds : List TokenKind} {steps steps' : Array Step}
    {rest : List Token} (h : walkFrom last goals (unplaced kinds) steps = ⟨steps', .ok rest⟩) :
    ∃ (used left : List TokenKind) (ss : List Step),
      kinds = used ++ left ∧ rest = unplaced left ∧ steps'.toList = steps.toList ++ ss ∧ Goal.ReadsAll goals used ss := by
  generalize ht : unplaced kinds = tokens at h
  induction goals, tokens, steps using walkFrom.induct generalizing kinds with
  | case1 tokens steps =>
    rw [walkFrom_nil] at h
    cases h
    exact ⟨[], kinds, [], rfl, ht.symm, by simp, rfl, rfl⟩
  | case2 tokens steps goal goals step hm ih =>
    rw [walkFrom_of_emit hm] at h
    obtain rfl := Goal.eq_emit_of_move hm
    obtain ⟨used, left, ss, hk, hr, hs, hg⟩ := ih ht h
    exact ⟨used, left, step :: ss, hk, hr, by simpa using hs, Goal.readsAll_emit.mpr ⟨ss, rfl, hg⟩⟩
  | case3 tokens steps goal goals new hm _ ih =>
    rw [walkFrom_of_expand hm] at h
    obtain ⟨_, left, _, rfl, hr, hs, hg⟩ := ih ht h
    obtain ⟨k, k', s, s', rfl, rfl, hn, hg'⟩ := Goal.readsAll_append.mp hg
    subst ht
    rw [List.append_assoc, unplaced_append] at hm
    exact ⟨k ++ k', left, s ++ s', rfl, hr, hs, k, k', s, s', rfl, rfl, Goal.reads_of_expand hm hn, hg'⟩
  | case4 tokens steps goal goals new hm _ _ _ _ ih =>
    cases kinds with
    | nil =>
      subst ht
      exact absurd hm (goal.move_none_ne_take new)
    | cons kind kinds =>
      subst ht
      rw [unplaced_cons, walkFrom_of_take hm] at h
      obtain ⟨_, left, _, rfl, hr, hs, hg⟩ := ih rfl h
      obtain ⟨k, k', s, s', rfl, rfl, hn, hg'⟩ := Goal.readsAll_append.mp hg
      exact ⟨kind :: k ++ k', left, s ++ s', by simp, hr, hs, kind :: k, k', s, s', rfl, rfl,
        Goal.reads_of_take hm hn, hg'⟩
  | case5 tokens steps goal goals expected hm =>
    rw [walkFrom_of_fail hm] at h
    cases h

/-- What meets the goals of a class is a class. -/
theorem exists_tree_of_reads {ks : List TokenKind} {ss : List Step} (h : Goal.ReadsAll Goal.ofClass ks ss) :
    ∃ c : ClassDeclaration, ks = c.kinds ∧ ss = c.steps := by
  simp only [Goal.ofClass, Goal.within, List.cons_append, List.nil_append, Goal.readsAll_emit] at h
  obtain ⟨_, rfl, _, _, _, _, rfl, rfl, ⟨rfl, rfl⟩, _, _, _, _, rfl, rfl, ⟨name, rfl, rfl⟩, h⟩ := h
  rw [Goal.readsAll_symbol] at h
  obtain ⟨_, rfl, _, _, _, _, rfl, rfl, ⟨ds, rfl, rfl⟩, _, _, _, _, rfl, rfl, ⟨subs, rfl, rfl⟩, h⟩ := h
  simp only [Goal.readsAll_symbol, Goal.readsAll_emit, Goal.readsAll_nil] at h
  obtain ⟨-, rfl, -, rfl, rfl, rfl⟩ := h
  exact ⟨⟨name, ds, subs⟩, by simp [ClassDeclaration.kinds, braced], by simp [ClassDeclaration.steps, during]⟩

/-- Kinds of tokens that are read as a class without an error are those of a tree, and the steps are its steps. -/
theorem exists_tree_of_readClass {ks : List TokenKind} (h : (readClass (unplaced ks)).error? = none) :
    ∃ c : ClassDeclaration, ks = c.kinds ∧ (readClass (unplaced ks)).steps = c.steps := by
  unfold readClass at h ⊢
  generalize hw : walkFrom _ Goal.ofClass (unplaced ks) #[] = walk at h ⊢
  obtain ⟨steps, outcome⟩ := walk
  rcases outcome with e | rest
  · cases h
  obtain ⟨used, left, ss, rfl, rfl, hs, hg⟩ := readsAll_of_walkFrom hw
  obtain ⟨c, rfl, rfl⟩ := exists_tree_of_reads hg
  cases left with
  | nil => exact ⟨c, by simp, by simpa using hs⟩
  | cons kind left => cases h

end JackCompiler
