import JackCompiler.Grammar.Step

/-!
# Goals

The grammar as a predictive table. A goal is a part of a class that is still to be read. The next token alone decides what
becomes of a goal: it is replaced by other goals, or it takes the token and is replaced, or it cannot be met. The weight of
a goal bounds how often it can be replaced before a token is taken.

    class          = 'class' className '{' classVarDec* subroutineDec* '}'
    classVarDec    = ('static' | 'field') type varName (',' varName)* ';'
    type           = 'int' | 'char' | 'boolean' | className
    subroutineDec  = ('constructor' | 'function' | 'method') ('void' | type) subroutineName
                     '(' parameterList ')' subroutineBody
    parameterList  = (type varName (',' type varName)*)?
    subroutineBody = '{' varDec* statements '}'
    varDec         = 'var' type varName (',' varName)* ';'
    statements     = (letStatement | ifStatement | whileStatement | doStatement | returnStatement)*
    letStatement   = 'let' varName ('[' expression ']')? '=' expression ';'
    ifStatement    = 'if' '(' expression ')' '{' statements '}' ('else' '{' statements '}')?
    whileStatement = 'while' '(' expression ')' '{' statements '}'
    doStatement    = 'do' subroutineCall ';'
    returnStatement= 'return' expression? ';'
    expression     = term (op term)*
    term           = integerConstant | stringConstant | keywordConstant | varName | varName '[' expression ']'
                     | subroutineCall | '(' expression ')' | ('-' | '~') term
    subroutineCall = subroutineName '(' expressionList ')'
                     | (className | varName) '.' subroutineName '(' expressionList ')'
    expressionList = (expression (',' expression)*)?
-/

namespace JackCompiler

/-- A part of a class that is still to be read, with what was read before and is needed then. -/
inductive Goal where
  /-- Nothing is to be read, and a step is due. -/
  | emit (step : Step)
  /-- The reserved word `class`. -/
  | classKeyword
  /-- The given symbol. -/
  | symbol (char : Char)
  /-- The name of the class. -/
  | className
  /-- Declarations of class variables, any number. -/
  | classVariables
  /-- The type of variables, and their names. -/
  | typedNames (kind : VariableKind)
  /-- A name of a variable, and maybe more after commas. -/
  | names (kind : VariableKind) (type : String)
  /-- More names of variables after commas, if any. -/
  | moreNames (kind : VariableKind) (type : String)
  /-- Subroutines, any number. -/
  | subroutines
  /-- The type of a subroutine's value, or `void`. -/
  | resultType
  /-- The name of a subroutine, its parameters and its body. -/
  | subroutine (kind : SubroutineKind)
  /-- Parameters, if any. -/
  | parameters
  /-- The type of a parameter, its name, and maybe more after commas. -/
  | parameter
  /-- The name of a parameter, and maybe more parameters after commas. -/
  | parameterName (type : String)
  /-- More parameters after commas, if any. -/
  | moreParameters
  /-- Declarations of locals, any number. -/
  | locals
  /-- Statements, any number. -/
  | statements
  /-- What a `let` assigns to, and the value. -/
  | target
  /-- After the name that a `let` assigns to: an index, if any, and the value. -/
  | assignment (name : String) (place : Position)
  /-- An `else` with its block, if any. -/
  | elseBlock
  /-- The call of a `do`. -/
  | doCall
  /-- The value of a `return`, if any. -/
  | result
  /-- An expression. -/
  | expression
  /-- Operators, each with its second operand, any number. -/
  | operations
  /-- A term. -/
  | term
  /-- The tokens of a term. -/
  | operand
  /-- After a name that begins a term: an index, a call, or nothing. -/
  | reference (name : String) (place : Position)
  /-- After the first name of a call: a dot and a second name, if any, and the arguments. -/
  | call (name : String)
  /-- The name after the dot of a call, and the arguments. -/
  | qualifiedCall (qualifier : String)
  /-- The arguments of a call, if any, and the closing parenthesis. -/
  | arguments (callee : Callee)
  /-- An argument after `count` others, and maybe more after commas, and the closing parenthesis. -/
  | argument (callee : Callee) (count : Nat)
  /-- After `count` arguments: more after commas, if any, and the closing parenthesis. -/
  | moreArguments (callee : Callee) (count : Nat)
  deriving DecidableEq, Repr

/-- What the next token makes of a goal. -/
inductive Move where
  /-- The goal is met, and a step is due. -/
  | emit (step : Step)
  /-- Other goals take the place of the goal. -/
  | expand (goals : List Goal)
  /-- The token is taken, and other goals take the place of the goal. -/
  | take (goals : List Goal)
  /-- The goal cannot be met; `expected` says what would begin it. -/
  | fail (expected : String)
  deriving DecidableEq, Repr

namespace Goal

/-- The goal of reading a part whose beginning and end are observable. -/
def within (rule : Rule) (goals : List Goal) : List Goal :=
  emit (.enter rule) :: goals ++ [emit (.leave rule)]

/-- The goals of a block in braces. -/
def block : List Goal :=
  symbol '\x7b' :: within .statements [statements] ++ [symbol '\x7d']

/-- The goals after the name of a callee. -/
def callOf (callee : Callee) : List Goal :=
  [emit (.receiver callee), symbol '(', emit (.enter .expressionList), arguments callee]

/-- The goals after the last argument of a call. -/
def endCall (callee : Callee) (count : Nat) : List Goal :=
  [emit (.leave .expressionList), symbol ')', emit (.call callee count)]

/-- The name of the type that a token is, if it is one. -/
def typeName? : TokenKind → Option String
  | .keyword .int => some "int"
  | .keyword .char => some "char"
  | .keyword .boolean => some "boolean"
  | .identifier name => some name
  | _ => none

/-- The kind of class variable that a reserved word declares. -/
def classVariableKind? : TokenKind → Option VariableKind
  | .keyword .static => some .static
  | .keyword .field => some .field
  | _ => none

/-- The kind of subroutine that a reserved word declares. -/
def subroutineKind? : TokenKind → Option SubroutineKind
  | .keyword .constructor => some .constructor
  | .keyword .function => some .function
  | .keyword .method => some .method
  | _ => none

/-- The operator with two operands that a token is, if it is one. -/
def operator? : TokenKind → Option BinaryOperator
  | .symbol c => BinaryOperator.ofSymbol? c
  | _ => none

/-- The goals after the first word of a statement, if a token is one. -/
def statement? : TokenKind → Option (List Goal)
  | .keyword .«let» => some (within .letStatement [target, symbol ';'])
  | .keyword .«if» =>
    some (within .ifStatement
      (symbol '(' :: expression :: symbol ')' :: emit .beginIf :: block ++ [elseBlock]))
  | .keyword .while =>
    some (within .whileStatement
      (emit .beginWhile :: symbol '(' :: expression :: symbol ')' :: emit .testWhile :: block ++ [emit .endWhile]))
  | .keyword .«do» => some (within .doStatement [doCall, symbol ';', emit .discard])
  | .keyword .«return» => some (within .returnStatement [result, symbol ';', emit .ret])
  | _ => none

/-- The goals after the first token of a term that is neither, if a token is one. -/
def operand? (p : Position) : TokenKind → Option (List Goal)
  | .integer value => some [emit (.integer value)]
  | .string body => some [emit (.string body p)]
  | .identifier name => some [reference name p]
  | .keyword word => (KeywordConstant.ofKeyword? word).map fun constant => [emit (.constant constant)]
  | .symbol c =>
    if c = '(' then some [expression, symbol ')']
    else if c = '-' then some [term, emit (.unary .negate)]
    else if c = '~' then some [term, emit (.unary .complement)]
    else none

/-- Takes a token that is a name, and cannot be met otherwise. -/
def takeName (head : Option Token) (expected : String) (goals : String → Position → List Goal) : Move :=
  match head with
  | some ⟨.identifier name, p⟩ => .take (goals name p)
  | _ => .fail expected

/-- Takes a token that names a type, and cannot be met otherwise. -/
def takeType (head : Option Token) (expected : String) (goals : String → List Goal) : Move :=
  match head.bind fun token => typeName? token.kind with
  | some type => .take (goals type)
  | none => .fail expected

/-- Takes the given symbol and goes on with `goals`, or goes on with `others` at once. -/
def takeOptional (head : Option Token) (c : Char) (goals others : List Goal) : Move :=
  if head.any fun token => token.kind = .symbol c then .take goals else .expand others

/-- What the next token, or the end of the tokens, makes of a goal. -/
def move (goal : Goal) (head : Option Token) : Move :=
  match goal with
  | emit step => .emit step
  | classKeyword =>
    if head.any fun token => token.kind = .keyword .«class» then .take [] else .fail "keyword `class`"
  | symbol c =>
    if head.any fun token => token.kind = .symbol c then .take [] else .fail ("'" ++ c.toString ++ "'")
  | className => takeName head "class name" fun name _ => [emit (.className name)]
  | classVariables =>
    match head.bind fun token => classVariableKind? token.kind with
    | some kind => .take (within .classVarDec [typedNames kind, symbol ';'] ++ [classVariables])
    | none => .expand []
  | typedNames kind => takeType head "type" fun type => [names kind type]
  | names kind type => takeName head "variable name" fun name p => [emit (.declare kind type name p), moreNames kind type]
  | moreNames kind type => takeOptional head ',' [names kind type] []
  | subroutines =>
    match head.bind fun token => subroutineKind? token.kind with
    | some kind => .take (within .subroutineDec [resultType, subroutine kind] ++ [subroutines])
    | none => .expand []
  | resultType =>
    if head.any fun token => token.kind = .keyword .void then .take []
    else takeType head "type or `void`" fun _ => []
  | subroutine kind =>
    takeName head "subroutine name" fun name _ =>
      emit (.beginSubroutine kind) :: symbol '(' :: within .parameterList [parameters] ++
        symbol ')' :: within .subroutineBody
          (symbol '\x7b' :: locals :: emit (.beginBody kind name) :: within .statements [statements] ++
            [symbol '\x7d', emit .endBody])
  | parameters =>
    if head.any fun token => token.kind = .symbol ')' then .expand [] else .expand [parameter]
  | parameter => takeType head "type" fun type => [parameterName type]
  | parameterName type =>
    takeName head "parameter name" fun name p => [emit (.declare .argument type name p), moreParameters]
  | moreParameters => takeOptional head ',' [parameter] []
  | locals =>
    if head.any fun token => token.kind = .keyword .var then
      .take (within .varDec [typedNames .«local», symbol ';'] ++ [locals])
    else .expand []
  | statements =>
    match head.bind fun token => statement? token.kind with
    | some goals => .take (goals ++ [statements])
    | none => .expand []
  | target => takeName head "variable name" fun name p => [emit (.use name p), assignment name p]
  | assignment name p =>
    takeOptional head '['
      [expression, symbol ']', emit (.elementAddress name p), symbol '=', expression, emit .assignElement]
      [symbol '=', expression, emit (.assign name p)]
  | elseBlock =>
    if head.any fun token => token.kind = .keyword .«else» then
      .take (emit .beginElse :: block ++ [emit .endIfElse])
    else .expand [emit .endIf]
  | doCall => takeName head "subroutine name" fun name _ => [call name]
  | result =>
    if head.any fun token => token.kind = .symbol ';' then .expand [emit .noValue] else .expand [expression]
  | expression => .expand (within .expression [term, operations])
  | operations =>
    match head.bind fun token => operator? token.kind with
    | some operator => .take [term, emit (.binary operator), operations]
    | none => .expand []
  | term => .expand (within .term [operand])
  | operand =>
    match head.bind fun token => operand? token.position token.kind with
    | some goals => .take goals
    | none => .fail "term"
  | reference name p =>
    if head.any fun token => token.kind = .symbol '(' || token.kind = .symbol '.' then .expand [call name]
    else takeOptional head '[' [emit (.use name p), expression, symbol ']', emit (.element name p)]
      [emit (.read name p)]
  | call name => takeOptional head '.' [qualifiedCall name] (callOf (.own name))
  | qualifiedCall qualifier =>
    takeName head "subroutine name" fun name _ => callOf (.qualified qualifier name)
  | arguments callee =>
    if head.any fun token => token.kind = .symbol ')' then .expand (endCall callee 0)
    else .expand [argument callee 0]
  | argument callee count =>
    .expand [expression, emit (.argument callee (count + 1) (head.map (·.position))), moreArguments callee (count + 1)]
  | moreArguments callee count => takeOptional head ',' [argument callee count] (endCall callee count)

/-- The goals of a class. -/
def ofClass : List Goal :=
  within .«class» [classKeyword, className, symbol '\x7b', classVariables, subroutines, symbol '\x7d']

/-- A bound on how often a goal can be replaced before a token is taken, steps included. -/
def weight : Goal → Nat
  | parameters | elseBlock => 2
  | term | moreArguments .. => 4
  | expression => 8
  | result => 9
  | assignment .. => 11
  | argument .. => 14
  | arguments _ => 15
  | call _ => 19
  | reference .. => 20
  | _ => 1

/-- The weight of goals together. -/
def weightSum : List Goal → Nat
  | [] => 0
  | goal :: goals => goal.weight + weightSum goals

/-- A bound on the weight of the goals that take the place of a goal with its token. -/
def maxWeight : Nat := 24

@[simp] theorem weightSum_nil : weightSum [] = 0 := rfl

@[simp] theorem weightSum_cons (goal : Goal) (goals : List Goal) :
    weightSum (goal :: goals) = goal.weight + weightSum goals := rfl

@[simp] theorem weightSum_append (goals others : List Goal) :
    weightSum (goals ++ others) = weightSum goals + weightSum others := by
  induction goals with
  | nil => simp
  | cons goal goals ih => simp [ih, Nat.add_assoc]

theorem weight_pos (goal : Goal) : 0 < goal.weight := by
  cases goal <;> simp [weight]

/-- The goals that take the place of a goal are lighter than the goal. -/
theorem weightSum_lt_of_expand {goal : Goal} {head : Option Token} {goals : List Goal}
    (h : goal.move head = .expand goals) : weightSum goals < goal.weight := by
  revert h
  cases goal <;> simp only [move, takeName, takeType, takeOptional] <;> (repeat' split) <;> intro h <;> cases h <;>
    simp [weight, within, callOf, endCall]

theorem weightSum_le_of_statement {kind : TokenKind} {goals : List Goal} (h : statement? kind = some goals) :
    weightSum goals + 1 ≤ maxWeight := by
  unfold statement? at h
  split at h <;> cases h <;> simp [weight, within, block, maxWeight]

theorem weightSum_le_of_operand {p : Position} {kind : TokenKind} {goals : List Goal}
    (h : operand? p kind = some goals) : weightSum goals ≤ maxWeight := by
  cases kind <;> simp only [operand?, Option.map_eq_some_iff] at h
  case keyword =>
    obtain ⟨-, -, rfl⟩ := h
    simp [weight, maxWeight]
  case symbol =>
    repeat' split at h
    all_goals cases h <;> simp [weight, maxWeight]
  all_goals
    cases h
    simp [weight, maxWeight]

/-- The goals that take the place of a goal with its token have a bounded weight. -/
theorem weightSum_le_of_take {goal : Goal} {head : Option Token} {goals : List Goal}
    (h : goal.move head = .take goals) : weightSum goals ≤ maxWeight := by
  cases goal
  case statements =>
    simp only [move] at h
    split at h
    · next hs =>
      cases h
      obtain ⟨token, -, ht⟩ := Option.bind_eq_some_iff.mp hs
      simpa [weight] using weightSum_le_of_statement ht
    · cases h
  case operand =>
    simp only [move] at h
    split at h
    · next hs =>
      cases h
      obtain ⟨token, -, ht⟩ := Option.bind_eq_some_iff.mp hs
      exact weightSum_le_of_operand ht
    · cases h
  all_goals
    revert h
    simp only [move, takeName, takeType, takeOptional]
    (repeat' split) <;> intro h <;> cases h <;> simp [weight, within, block, callOf, maxWeight]

/-- Only a token can be taken. -/
theorem move_none_ne_take (goal : Goal) (goals : List Goal) : goal.move none ≠ .take goals := by
  cases goal <;> simp [move, takeName, takeType, takeOptional]

end Goal

end JackCompiler
