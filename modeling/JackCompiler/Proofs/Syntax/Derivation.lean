import JackCompiler.Proofs.Syntax.Productions
import JackCompiler.Proofs.Syntax.Steps

/-!
# The derivation tree of a class

The tree of a class, of its subroutines, statements and expressions, as the grammar spells them. A qualifier of a call
counts as the name of a class here. The tree derives the kinds of tokens of the class, an observer sees of its tour what it
sees of the steps (`ClassDeclaration.tree_kinds`, `ClassDeclaration.tree_events`).
-/

namespace JackCompiler

/-! ## Trees that are forms of their own -/

namespace DerivationTree

/-- The tree of a reserved word. -/
abbrev keyword (word : Keyword) : DerivationTree :=
  token (.keyword word)

/-- The tree of a symbol. -/
abbrev symbol (c : Char) : DerivationTree :=
  token (.symbol c)

/-- The tree of a name that stands for a part. -/
abbrev name (part : Nonterminal) (name : String) : DerivationTree :=
  node part [token (.identifier name)]

end DerivationTree

/-- The tree of an operator with one operand. -/
def UnaryOperator.tree (operator : UnaryOperator) : DerivationTree :=
  .node .unaryOp [.symbol operator.symbol]

/-- The tree of an operator with two operands. -/
def BinaryOperator.tree (operator : BinaryOperator) : DerivationTree :=
  .node .op [.symbol operator.symbol]

/-- The tree of a constant with a reserved word. -/
def KeywordConstant.tree (word : KeywordConstant) : DerivationTree :=
  .node .keywordConstant [.keyword word.keyword]

/-- The trees before the arguments of a call. -/
def Callee.trees : Callee → Forest
  | .own subroutine => [.name .subroutineName subroutine]
  | .qualified qualifier subroutine =>
    [.name .className qualifier, .symbol '.', .name .subroutineName subroutine]

/-! ## Expressions -/

mutual

/-- The trees that an expression consists of: its terms with the operators between them. -/
def Expression.trees : Expression → Forest
  | .term t => [.node .term t.trees]
  | .binary left operator right => left.trees ++ [operator.tree, .node .term right.trees]

/-- The trees that a term consists of. -/
def Term.trees : Term → Forest
  | .integer value => [.token (.integer value)]
  | .string body => [.token (.string body)]
  | .constant word => [word.tree]
  | .variable name => [.name .varName name]
  | .element name index => [.name .varName name, .symbol '[', .node .expression index.trees, .symbol ']']
  | .call callee arguments =>
    [.node .subroutineCall
      (callee.trees ++ [.symbol '(', .node .expressionList (argumentTrees arguments), .symbol ')'])]
  | .parenthesized inner => [.symbol '(', .node .expression inner.trees, .symbol ')']
  | .unary operator operand => [operator.tree, .node .term operand.trees]

/-- The trees that the arguments of a call consist of. -/
def argumentTrees : List Expression → Forest
  | [] => []
  | argument :: others => .node .expression argument.trees :: moreArgumentTrees others

/-- The trees of arguments after the first, each with its comma. -/
def moreArgumentTrees : List Expression → Forest
  | [] => []
  | argument :: others => .symbol ',' :: .node .expression argument.trees :: moreArgumentTrees others

end

/-- The tree of an expression. -/
def Expression.tree (e : Expression) : DerivationTree :=
  .node .expression e.trees

/-- The tree of a term. -/
def Term.tree (t : Term) : DerivationTree :=
  .node .term t.trees

/-- The tree of a call. -/
def callTree (callee : Callee) (arguments : List Expression) : DerivationTree :=
  .node .subroutineCall
    (callee.trees ++ [.symbol '(', .node .expressionList (argumentTrees arguments), .symbol ')'])

/-! ## Statements -/

/-- Trees in braces. -/
def bracedTrees (ts : Forest) : Forest :=
  .symbol '\x7b' :: ts ++ [.symbol '\x7d']

/-- The trees of a statement's part in parentheses. -/
def conditionTrees (condition : Expression) : Forest :=
  [.symbol '(', condition.tree, .symbol ')']

mutual

/-- The tree of a statement. -/
def Statement.tree : Statement → DerivationTree
  | .let name value =>
    .node .letStatement [.keyword .«let», .name .varName name, .symbol '=', value.tree, .symbol ';']
  | .letElement name index value =>
    .node .letStatement [.keyword .«let», .name .varName name, .symbol '[', index.tree, .symbol ']', .symbol '=',
      value.tree, .symbol ';']
  | .if condition block =>
    .node .ifStatement (.keyword .«if» :: conditionTrees condition ++
      bracedTrees [.node .statements (blockTrees block)])
  | .ifElse condition block elseBlock =>
    .node .ifStatement (.keyword .«if» :: conditionTrees condition ++
      bracedTrees [.node .statements (blockTrees block)] ++
        .keyword .«else» :: bracedTrees [.node .statements (blockTrees elseBlock)])
  | .while condition block =>
    .node .whileStatement (.keyword .while :: conditionTrees condition ++
      bracedTrees [.node .statements (blockTrees block)])
  | .do callee arguments => .node .doStatement [.keyword .«do», callTree callee arguments, .symbol ';']
  | .return value =>
    .node .returnStatement (.keyword .«return» :: (value.map Expression.tree).toList ++ [.symbol ';'])

/-- The trees of statements one after another. -/
def blockTrees : List Statement → Forest
  | [] => []
  | statement :: others => .node .statement [statement.tree] :: blockTrees others

end

/-! ## Declarations -/

/-- The tree of a type. -/
def TypeName.tree : TypeName → DerivationTree
  | int => .node .type [.keyword .int]
  | char => .node .type [.keyword .char]
  | boolean => .node .type [.keyword .boolean]
  | ofClass name => .node .type [.name .className name]

/-- The trees of a type and its names. -/
def NamesOfType.trees (d : NamesOfType) : Forest :=
  d.type.tree :: .name .varName d.first :: d.others.flatMap fun name => [.symbol ',', .name .varName name]

/-- The tree of a declaration of variables of the class. -/
def ClassVariables.tree (d : ClassVariables) : DerivationTree :=
  .node .classVarDec (.keyword d.kind.keyword :: d.names.trees ++ [.symbol ';'])

/-- The tree of a declaration of locals. -/
def localTree (d : NamesOfType) : DerivationTree :=
  .node .varDec (.keyword .var :: d.trees ++ [.symbol ';'])

namespace Parameter

/-- The trees of a parameter. -/
def trees (p : Parameter) : Forest :=
  [p.type.tree, .name .varName p.name]

/-- The trees of parameters. -/
def listTrees : List Parameter → Forest
  | [] => []
  | p :: ps => p.trees ++ ps.flatMap fun p => .symbol ',' :: p.trees

end Parameter

/-- The tree of the body of a subroutine. -/
def bodyTree (locals : List NamesOfType) (body : List Statement) : DerivationTree :=
  .node .subroutineBody (bracedTrees (locals.map localTree ++ [.node .statements (blockTrees body)]))

/-- The tree of a subroutine. -/
def Subroutine.tree (s : Subroutine) : DerivationTree :=
  .node .subroutineDec
    [.keyword s.kind.keyword, s.resultType.elim (.keyword .void) TypeName.tree, .name .subroutineName s.name,
      .symbol '(', .node .parameterList (Parameter.listTrees s.parameters), .symbol ')', bodyTree s.locals s.body]

/-- The tree of a class. -/
def ClassDeclaration.tree (c : ClassDeclaration) : DerivationTree :=
  .node .«class» (.keyword .«class» :: .name .className c.name ::
    bracedTrees (c.declarations.map ClassVariables.tree ++ c.subroutines.map Subroutine.tree))

/-! ## The tokens of the tree -/

theorem UnaryOperator.tree_kinds (operator : UnaryOperator) : operator.tree.kinds = [.symbol operator.symbol] := rfl

theorem BinaryOperator.tree_kinds (operator : BinaryOperator) : operator.tree.kinds = [.symbol operator.symbol] := rfl

theorem KeywordConstant.tree_kinds (word : KeywordConstant) : word.tree.kinds = [.keyword word.keyword] := rfl

theorem Callee.trees_kinds (callee : Callee) : callee.trees.flatMap (·.kinds) = callee.kinds := by
  cases callee <;> rfl

mutual

/-- The tree of an expression has its tokens. -/
theorem Expression.trees_kinds (e : Expression) : e.trees.flatMap (·.kinds) = e.kinds := by
  cases e with
  | term t => simp [Expression.trees, Expression.kinds, t.trees_kinds]
  | binary left operator right =>
    simp [Expression.trees, Expression.kinds, left.trees_kinds, right.trees_kinds, operator.tree_kinds]

/-- The tree of a term has its tokens. -/
theorem Term.trees_kinds (t : Term) : t.trees.flatMap (·.kinds) = t.kinds := by
  cases t with
  | integer | string | «variable» => rfl
  | constant word => simp [Term.trees, Term.kinds, word.tree_kinds]
  | element name index => simp [Term.trees, Term.kinds, index.trees_kinds]
  | call callee arguments => simp [Term.trees, Term.kinds, callee.trees_kinds, argumentTrees_kinds arguments]
  | parenthesized inner => simp [Term.trees, Term.kinds, inner.trees_kinds]
  | unary operator operand => simp [Term.trees, Term.kinds, operator.tree_kinds, operand.trees_kinds]

/-- The trees of arguments have their tokens. -/
theorem argumentTrees_kinds (arguments : List Expression) :
    (argumentTrees arguments).flatMap (·.kinds) = argumentKinds arguments := by
  cases arguments with
  | nil => rfl
  | cons argument others =>
    simp [argumentTrees, argumentKinds, argument.trees_kinds, moreArgumentTrees_kinds others]

/-- The trees of arguments after the first have their tokens. -/
theorem moreArgumentTrees_kinds (arguments : List Expression) :
    (moreArgumentTrees arguments).flatMap (·.kinds) = moreArgumentKinds arguments := by
  cases arguments with
  | nil => rfl
  | cons argument others =>
    simp [moreArgumentTrees, moreArgumentKinds, argument.trees_kinds, moreArgumentTrees_kinds others]

end

@[simp] theorem Expression.tree_kinds (e : Expression) : e.tree.kinds = e.kinds := by
  rw [Expression.tree, DerivationTree.kinds_node, e.trees_kinds]

@[simp] theorem callTree_kinds (callee : Callee) (arguments : List Expression) :
    (callTree callee arguments).kinds = callKinds callee arguments := by
  simp [callTree, callKinds, callee.trees_kinds, argumentTrees_kinds]

@[simp] theorem bracedTrees_kinds (ts : Forest) : (bracedTrees ts).flatMap (·.kinds) = braced (ts.flatMap (·.kinds)) := by
  simp [bracedTrees, braced]

@[simp] theorem conditionTrees_kinds (condition : Expression) :
    (conditionTrees condition).flatMap (·.kinds) = conditionKinds condition := by
  simp [conditionTrees, conditionKinds]

mutual

/-- The tree of a statement has its tokens. -/
theorem Statement.tree_kinds (s : Statement) : s.tree.kinds = s.kinds := by
  cases s with
  | «let» | letElement | «do» => simp [Statement.tree, Statement.kinds]
  | «if» condition block | «while» condition block =>
    simp [Statement.tree, Statement.kinds, blockTrees_kinds block]
  | ifElse condition block elseBlock =>
    simp [Statement.tree, Statement.kinds, blockTrees_kinds block, blockTrees_kinds elseBlock]
  | «return» value => cases value <;> simp [Statement.tree, Statement.kinds]

/-- The trees of statements have their tokens. -/
theorem blockTrees_kinds (ss : List Statement) : (blockTrees ss).flatMap (·.kinds) = blockKinds ss := by
  cases ss with
  | nil => rfl
  | cons s ss => simp [blockTrees, blockKinds, s.tree_kinds, blockTrees_kinds ss]

end

@[simp] theorem TypeName.tree_kinds (type : TypeName) : type.tree.kinds = [type.kind] := by
  cases type <;> rfl

@[simp] theorem NamesOfType.trees_kinds (d : NamesOfType) : d.trees.flatMap (·.kinds) = d.kinds := by
  simp [NamesOfType.trees, NamesOfType.kinds, moreNameKinds, List.flatMap_assoc]

@[simp] theorem ClassVariables.tree_kinds (d : ClassVariables) : d.tree.kinds = d.kinds := by
  simp [ClassVariables.tree, ClassVariables.kinds]

@[simp] theorem localTree_kinds (d : NamesOfType) : (localTree d).kinds = localKinds d := by
  simp [localTree, localKinds]

@[simp] theorem Parameter.listTrees_kinds (ps : List Parameter) :
    (Parameter.listTrees ps).flatMap (·.kinds) = Parameter.listKinds ps := by
  cases ps with
  | nil => rfl
  | cons p ps =>
    simp [Parameter.listTrees, Parameter.listKinds, Parameter.trees, Parameter.kinds, Parameter.moreKinds,
      List.flatMap_assoc]

@[simp] theorem Subroutine.tree_kinds (s : Subroutine) : s.tree.kinds = s.kinds := by
  cases h : s.resultType <;>
    simp [Subroutine.tree, Subroutine.kinds, Subroutine.kindsFromName, bodyTree, blockTrees_kinds, h,
      List.flatMap_map]

/-- The tree of a class has the tokens of the class. -/
theorem ClassDeclaration.tree_kinds (c : ClassDeclaration) : c.tree.kinds = c.kinds := by
  simp [ClassDeclaration.tree, ClassDeclaration.kinds, List.flatMap_map]

/-! ## What an observer sees of the tree -/

/-- What an observer of the rules sees of steps. -/
def eventsOf (steps : List Step) : Trace :=
  steps.filterMap Step.event?

@[simp] theorem eventsOf_nil : eventsOf [] = [] := rfl

@[simp] theorem eventsOf_append (steps others : List Step) :
    eventsOf (steps ++ others) = eventsOf steps ++ eventsOf others :=
  List.filterMap_append

theorem eventsOf_cons (step : Step) (steps : List Step) :
    eventsOf (step :: steps) = step.event?.toList ++ eventsOf steps := by
  cases h : step.event? <;> simp [eventsOf, h]

@[simp] theorem eventsOf_during (rule : Rule) (steps : List Step) :
    eventsOf (during rule steps) = .enter rule :: eventsOf steps ++ [.leave rule] := by
  simp [during, eventsOf_cons, Step.event?]

@[simp] theorem UnaryOperator.tree_events (operator : UnaryOperator) : operator.tree.events = [] := rfl

@[simp] theorem BinaryOperator.tree_events (operator : BinaryOperator) : operator.tree.events = [] := rfl

@[simp] theorem KeywordConstant.tree_events (word : KeywordConstant) : word.tree.events = [] := rfl

@[simp] theorem Callee.trees_events (callee : Callee) : callee.trees.flatMap (·.events) = [] := by
  cases callee <;> rfl

mutual

/-- What is seen of an expression. -/
theorem Expression.trees_events (e : Expression) : e.trees.flatMap (·.events) = eventsOf e.chainSteps := by
  cases e with
  | term t => simp [Expression.trees, Expression.chainSteps, t.trees_events]
  | binary left operator right =>
    simp [Expression.trees, Expression.chainSteps, left.trees_events,
      right.trees_events, eventsOf_cons, Step.event?]

/-- What is seen of a term. -/
theorem Term.trees_events (t : Term) : t.trees.flatMap (·.events) = eventsOf t.innerSteps := by
  cases t with
  | integer | string | constant | «variable» => rfl
  | element name index =>
    simp [Term.trees, Term.innerSteps, index.trees_events, eventsOf_cons,
      Step.event?]
  | call callee arguments =>
    simp [Term.trees, Term.innerSteps, argumentTrees_events arguments callee 0, eventsOf_cons, Step.event?]
  | parenthesized inner =>
    simp [Term.trees, Term.innerSteps, inner.trees_events]
  | unary operator operand =>
    simp [Term.trees, Term.innerSteps, operand.trees_events, eventsOf_cons,
      Step.event?]

/-- What is seen of the arguments of a call. -/
theorem argumentTrees_events (arguments : List Expression) (callee : Callee) (count : Nat) :
    (argumentTrees arguments).flatMap (·.events) = eventsOf (argumentSteps callee count arguments) := by
  cases arguments with
  | nil => rfl
  | cons argument others =>
    simp [argumentTrees, argumentSteps, argument.trees_events,
      moreArgumentTrees_events others callee (count + 1), eventsOf_cons, Step.event?]

/-- What is seen of arguments after the first. -/
theorem moreArgumentTrees_events (arguments : List Expression) (callee : Callee) (count : Nat) :
    (moreArgumentTrees arguments).flatMap (·.events) = eventsOf (argumentSteps callee count arguments) := by
  cases arguments with
  | nil => rfl
  | cons argument others =>
    simp [moreArgumentTrees, argumentSteps, argument.trees_events,
      moreArgumentTrees_events others callee (count + 1), eventsOf_cons, Step.event?]

end

@[simp] theorem Expression.tree_events (e : Expression) : e.tree.events = eventsOf e.steps := by
  simp [Expression.tree, Expression.steps, e.trees_events]

@[simp] theorem callTree_events (callee : Callee) (arguments : List Expression) :
    (callTree callee arguments).events = eventsOf (callSteps callee arguments) := by
  simp [callTree, callSteps, argumentTrees_events arguments callee 0, eventsOf_cons, Step.event?]

@[simp] theorem bracedTrees_events (ts : Forest) : (bracedTrees ts).flatMap (·.events) = ts.flatMap (·.events) := by
  simp [bracedTrees]

@[simp] theorem conditionTrees_events (condition : Expression) :
    (conditionTrees condition).flatMap (·.events) = eventsOf condition.steps := by
  simp [conditionTrees]

mutual

/-- What is seen of a statement. -/
theorem Statement.tree_events (s : Statement) : s.tree.events = eventsOf s.steps := by
  cases s with
  | «let» | letElement | «do» => simp [Statement.tree, Statement.steps, eventsOf_cons, Step.event?]
  | «if» condition block | «while» condition block =>
    simp [Statement.tree, Statement.steps, blockTrees_events block, eventsOf_cons, Step.event?]
  | ifElse condition block elseBlock =>
    simp [Statement.tree, Statement.steps, blockTrees_events block, blockTrees_events elseBlock, eventsOf_cons,
      Step.event?]
  | «return» value => cases value <;> simp [Statement.tree, Statement.steps, eventsOf_cons, Step.event?]

/-- What is seen of statements. -/
theorem blockTrees_events (ss : List Statement) : (blockTrees ss).flatMap (·.events) = eventsOf (blockSteps ss) := by
  cases ss with
  | nil => rfl
  | cons s ss => simp [blockTrees, blockSteps, s.tree_events, blockTrees_events ss]

end

/-- Declarations of variables are not seen. -/
@[simp] theorem eventsOf_declareSteps (kind : VariableKind) (type : String) (names : List String) :
    eventsOf (declareSteps kind type names) = [] := by
  simp [eventsOf, declareSteps, Step.event?, List.filterMap_eq_nil_iff]

@[simp] theorem eventsOf_flatMap {α : Type} (as : List α) (steps : α → List Step) :
    eventsOf (as.flatMap steps) = as.flatMap fun a => eventsOf (steps a) :=
  List.filterMap_flatMap

@[simp] theorem TypeName.tree_events (type : TypeName) : type.tree.events = [] := by
  cases type <;> rfl

@[simp] theorem NamesOfType.trees_events (d : NamesOfType) : d.trees.flatMap (·.events) = [] := by
  simp [NamesOfType.trees, List.flatMap_assoc]

@[simp] theorem ClassVariables.tree_events (d : ClassVariables) : d.tree.events = eventsOf d.steps := by
  simp [ClassVariables.tree, ClassVariables.steps, NamesOfType.steps]

@[simp] theorem localTree_events (d : NamesOfType) : (localTree d).events = eventsOf (localSteps d) := by
  simp [localTree, localSteps, NamesOfType.steps]

@[simp] theorem Parameter.trees_events (p : Parameter) : p.trees.flatMap (·.events) = [] := by
  simp [Parameter.trees]

@[simp] theorem Parameter.listTrees_events (ps : List Parameter) : (Parameter.listTrees ps).flatMap (·.events) = [] := by
  cases ps with
  | nil => rfl
  | cons p ps => simp [Parameter.listTrees, List.flatMap_assoc]

@[simp] theorem eventsOf_parameters (ps : List Parameter) : eventsOf (ps.map Parameter.step) = [] := by
  simp [eventsOf, Parameter.step, Step.event?, List.filterMap_eq_nil_iff]

@[simp] theorem Subroutine.tree_events (s : Subroutine) : s.tree.events = eventsOf s.steps := by
  cases h : s.resultType <;>
    simp [Subroutine.tree, Subroutine.steps, Subroutine.stepsFromName, bodyTree, blockTrees_events, h,
      List.flatMap_map, eventsOf_cons, Step.event?]

/-- What is seen of the tree of a class is what is seen of its steps. -/
theorem ClassDeclaration.tree_events (c : ClassDeclaration) : c.tree.events = eventsOf c.steps := by
  simp [ClassDeclaration.tree, ClassDeclaration.steps, List.flatMap_map, eventsOf_cons, Step.event?]

end JackCompiler
