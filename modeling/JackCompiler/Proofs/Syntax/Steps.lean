import JackCompiler.Proofs.Syntax.Tree

/-!
# The steps of a tree

What reading the tokens of a tree goes through, by recursion on the tree: every part between the beginning and the end of
its rule, operands before their operators. Trees have no places, so the steps stand nowhere.
-/

namespace JackCompiler

/-- The steps of a part between the beginning and the end of its rule. -/
def during (rule : Rule) (steps : List Step) : List Step :=
  .enter rule :: steps ++ [.leave rule]

/-! ## Expressions -/

mutual

/-- The steps of an expression inside its rule. -/
def Expression.chainSteps : Expression → List Step
  | .term t => during .term t.innerSteps
  | .binary left operator right => left.chainSteps ++ during .term right.innerSteps ++ [.binary operator]

/-- The steps of a term inside its rule. -/
def Term.innerSteps : Term → List Step
  | .integer value => [.integer value]
  | .string body => [.string body .nowhere]
  | .constant word => [.constant word]
  | .variable name => [.read name .nowhere]
  | .element name index => .use name .nowhere :: during .expression index.chainSteps ++ [.element name .nowhere]
  | .call callee arguments =>
    .receiver callee :: during .expressionList (argumentSteps callee 0 arguments) ++ [.call callee arguments.length]
  | .parenthesized inner => during .expression inner.chainSteps
  | .unary operator operand => during .term operand.innerSteps ++ [.unary operator]

/-- The steps of the arguments of a call after `count` others. -/
def argumentSteps (callee : Callee) (count : Nat) : List Expression → List Step
  | [] => []
  | argument :: others =>
    during .expression argument.chainSteps ++
      .argument callee (count + 1) (some .nowhere) :: argumentSteps callee (count + 1) others

end

/-- The steps of an expression. -/
def Expression.steps (e : Expression) : List Step :=
  during .expression e.chainSteps

/-- The steps of a term. -/
def Term.steps (t : Term) : List Step :=
  during .term t.innerSteps

/-- The steps of a call. -/
def callSteps (callee : Callee) (arguments : List Expression) : List Step :=
  .receiver callee :: during .expressionList (argumentSteps callee 0 arguments) ++ [.call callee arguments.length]

/-! ## Statements -/

mutual

/-- The steps of a statement. -/
def Statement.steps : Statement → List Step
  | .let name value => during .letStatement (.use name .nowhere :: value.steps ++ [.assign name .nowhere])
  | .letElement name index value =>
    during .letStatement (.use name .nowhere :: index.steps ++ .elementAddress name .nowhere :: value.steps ++
      [.assignElement])
  | .if condition block =>
    during .ifStatement (condition.steps ++ .beginIf :: during .statements (blockSteps block) ++ [.endIf])
  | .ifElse condition block elseBlock =>
    during .ifStatement (condition.steps ++ .beginIf :: during .statements (blockSteps block) ++
      .beginElse :: during .statements (blockSteps elseBlock) ++ [.endIfElse])
  | .while condition block =>
    during .whileStatement (.beginWhile :: condition.steps ++ .testWhile :: during .statements (blockSteps block) ++
      [.endWhile])
  | .do callee arguments => during .doStatement (callSteps callee arguments ++ [.discard])
  | .return value => during .returnStatement (value.elim [.noValue] Expression.steps ++ [.ret])

/-- The steps of statements one after another. -/
def blockSteps : List Statement → List Step
  | [] => []
  | statement :: others => statement.steps ++ blockSteps others

end

/-! ## Declarations -/

/-- The steps of names of one type that are declared as variables of a kind. -/
def declareSteps (kind : VariableKind) (type : String) (names : List String) : List Step :=
  names.map fun name => .declare kind type name .nowhere

/-- The steps of variables that are declared together. -/
def NamesOfType.steps (kind : VariableKind) (d : NamesOfType) : List Step :=
  declareSteps kind d.type.name d.names

/-- The steps of a declaration of variables of the class. -/
def ClassVariables.steps (d : ClassVariables) : List Step :=
  during .classVarDec (d.names.steps d.kind.kind)

/-- The steps of a declaration of locals. -/
def localSteps (d : NamesOfType) : List Step :=
  during .varDec (d.steps .«local»)

/-- The step of a parameter. -/
def Parameter.step (p : Parameter) : Step :=
  .declare .argument p.type.name p.name .nowhere

namespace Subroutine

/-- The steps from the name of a subroutine on. -/
def stepsFromName (s : Subroutine) : List Step :=
  .beginSubroutine s.kind :: during .parameterList (s.parameters.map Parameter.step) ++
    during .subroutineBody (s.locals.flatMap localSteps ++ .beginBody s.kind s.name ::
      during .statements (blockSteps s.body) ++ [.endBody])

/-- The steps of a subroutine. -/
def steps (s : Subroutine) : List Step :=
  during .subroutineDec s.stepsFromName

end Subroutine

/-- The steps of a class. -/
def ClassDeclaration.steps (c : ClassDeclaration) : List Step :=
  during .«class» (.className c.name :: c.declarations.flatMap ClassVariables.steps ++
    c.subroutines.flatMap Subroutine.steps)

end JackCompiler
