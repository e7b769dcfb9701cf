import JackCompiler.Grammar.Step

/-!
# Syntax trees

The grammar said without a parser: one type for each part of a class, one constructor for each way to write it, and the
kinds of tokens that a part is written with. A list of kinds is derivable from `class` exactly when it is
`ClassDeclaration.kinds` of some tree.

    class          = 'class' className '{' classVarDec* subroutineDec* '}'
    classVarDec    = ('static' | 'field') type varName (',' varName)* ';'
    subroutineDec  = ('constructor' | 'function' | 'method') ('void' | type) subroutineName
                     '(' parameterList ')' subroutineBody
    expression     = term (op term)*

Operators have one level and group to the left, so a chain of them is a tree that leans to the left. A name that is used
says nothing of what it stands for: that is for the scope to decide.
-/

namespace JackCompiler

/-! ## Expressions -/

/-- The reserved word of a constant. -/
def KeywordConstant.keyword : KeywordConstant → Keyword
  | .true => .true
  | .false => .false
  | .null => .null
  | .this => .this

/-- The symbol of an operator with one operand. -/
def UnaryOperator.symbol : UnaryOperator → Char
  | .negate => '-'
  | .complement => '~'

/-- The symbol of an operator with two operands. -/
def BinaryOperator.symbol : BinaryOperator → Char
  | .add => '+'
  | .subtract => '-'
  | .multiply => '*'
  | .divide => '/'
  | .and => '&'
  | .or => '|'
  | .less => '<'
  | .greater => '>'
  | .equal => '='

/-- The kinds of tokens before the arguments of a call. -/
def Callee.kinds : Callee → List TokenKind
  | .own subroutine => [.identifier subroutine]
  | .qualified qualifier subroutine => [.identifier qualifier, .symbol '.', .identifier subroutine]

mutual

/-- An expression: a term, or an expression and one more operator with its second operand. -/
inductive Expression where
  | term (t : Term)
  | binary (left : Expression) (operator : BinaryOperator) (right : Term)

/-- A term. -/
inductive Term where
  | integer (value : UInt16)
  | string (body : String)
  | constant (word : KeywordConstant)
  | «variable» (name : String)
  | element (name : String) (index : Expression)
  | call (callee : Callee) (arguments : List Expression)
  | parenthesized (inner : Expression)
  | unary (operator : UnaryOperator) (operand : Term)

end

mutual

/-- The kinds of tokens that an expression is written with. -/
def Expression.kinds : Expression → List TokenKind
  | .term t => t.kinds
  | .binary left operator right => left.kinds ++ .symbol operator.symbol :: right.kinds

/-- The kinds of tokens that a term is written with. -/
def Term.kinds : Term → List TokenKind
  | .integer value => [.integer value]
  | .string body => [.string body]
  | .constant word => [.keyword word.keyword]
  | .variable name => [.identifier name]
  | .element name index => .identifier name :: .symbol '[' :: index.kinds ++ [.symbol ']']
  | .call callee arguments => callee.kinds ++ .symbol '(' :: argumentKinds arguments ++ [.symbol ')']
  | .parenthesized inner => .symbol '(' :: inner.kinds ++ [.symbol ')']
  | .unary operator operand => .symbol operator.symbol :: operand.kinds

/-- The kinds of tokens that the arguments of a call are written with. -/
def argumentKinds : List Expression → List TokenKind
  | [] => []
  | argument :: others => argument.kinds ++ moreArgumentKinds others

/-- The kinds of tokens of arguments after the first, each with its comma. -/
def moreArgumentKinds : List Expression → List TokenKind
  | [] => []
  | argument :: others => .symbol ',' :: argument.kinds ++ moreArgumentKinds others

end

/-- The kinds of tokens that a call is written with. -/
def callKinds (callee : Callee) (arguments : List Expression) : List TokenKind :=
  callee.kinds ++ .symbol '(' :: argumentKinds arguments ++ [.symbol ')']

/-! ## Statements -/

/-- A statement. -/
inductive Statement where
  | «let» (name : String) (value : Expression)
  | letElement (name : String) (index value : Expression)
  | «if» (condition : Expression) (block : List Statement)
  | ifElse (condition : Expression) (block elseBlock : List Statement)
  | while (condition : Expression) (block : List Statement)
  | «do» (callee : Callee) (arguments : List Expression)
  | «return» (value : Option Expression)

/-- The kinds of tokens of a statement's part in parentheses. -/
def conditionKinds (condition : Expression) : List TokenKind :=
  .symbol '(' :: condition.kinds ++ [.symbol ')']

/-- The kinds of tokens of a block whose statements are written with the given kinds. -/
def braced (kinds : List TokenKind) : List TokenKind :=
  .symbol '\x7b' :: kinds ++ [.symbol '\x7d']

mutual

/-- The kinds of tokens that a statement is written with. -/
def Statement.kinds : Statement → List TokenKind
  | .let name value => .keyword .«let» :: .identifier name :: .symbol '=' :: value.kinds ++ [.symbol ';']
  | .letElement name index value =>
    .keyword .«let» :: .identifier name :: .symbol '[' :: index.kinds ++
      .symbol ']' :: .symbol '=' :: value.kinds ++ [.symbol ';']
  | .if condition block => .keyword .«if» :: conditionKinds condition ++ braced (blockKinds block)
  | .ifElse condition block elseBlock =>
    .keyword .«if» :: conditionKinds condition ++ braced (blockKinds block) ++
      .keyword .«else» :: braced (blockKinds elseBlock)
  | .while condition block => .keyword .while :: conditionKinds condition ++ braced (blockKinds block)
  | .do callee arguments => .keyword .«do» :: callKinds callee arguments ++ [.symbol ';']
  | .return value => .keyword .«return» :: value.elim [] Expression.kinds ++ [.symbol ';']

/-- The kinds of tokens that statements are written with. -/
def blockKinds : List Statement → List TokenKind
  | [] => []
  | statement :: others => statement.kinds ++ blockKinds others

end

/-- The tokens of `while (1) { do f(a[x], -y); }`. -/
example :
    (Statement.while (.term (.integer 1))
      [.do (.own "f") [.term (.element "a" (.term (.variable "x"))), .term (.unary .negate (.variable "y"))]]).kinds =
      [.keyword .while, .symbol '(', .integer 1, .symbol ')', .symbol '\x7b', .keyword .do, .identifier "f",
        .symbol '(', .identifier "a", .symbol '[', .identifier "x", .symbol ']', .symbol ',', .symbol '-',
        .identifier "y", .symbol ')', .symbol ';', .symbol '\x7d'] := by
  cbv

/-! ## Declarations -/

/-- The type of a variable, a parameter or a subroutine's value. -/
inductive TypeName where
  | int | char | boolean
  | ofClass (name : String)

namespace TypeName

/-- The kind of token that a type is written with. -/
def kind : TypeName → TokenKind
  | int => .keyword .int
  | char => .keyword .char
  | boolean => .keyword .boolean
  | ofClass name => .identifier name

/-- The name of a type. -/
def name : TypeName → String
  | int => "int"
  | char => "char"
  | boolean => "boolean"
  | ofClass name => name

end TypeName

/-- One name after another, each with its comma. -/
def moreNameKinds (names : List String) : List TokenKind :=
  names.flatMap fun name => [.symbol ',', .identifier name]

/-- Variables of one type that are declared together: the first name, and the others after commas. -/
structure NamesOfType where
  type : TypeName
  first : String
  others : List String

namespace NamesOfType

/-- The names in order. -/
def names (d : NamesOfType) : List String :=
  d.first :: d.others

/-- The kinds of tokens that a type and its names are written with. -/
def kinds (d : NamesOfType) : List TokenKind :=
  d.type.kind :: .identifier d.first :: moreNameKinds d.others

end NamesOfType

/-- The two kinds of variable of a class. -/
inductive ClassVariableKind where
  | static | field

/-- The kind of variable. -/
def ClassVariableKind.kind : ClassVariableKind → VariableKind
  | static => .static
  | field => .field

/-- The reserved word that declares variables of a class. -/
def ClassVariableKind.keyword : ClassVariableKind → Keyword
  | static => .static
  | field => .field

/-- A declaration of variables of the class. -/
structure ClassVariables where
  kind : ClassVariableKind
  names : NamesOfType

/-- The kinds of tokens that a declaration of variables of the class is written with. -/
def ClassVariables.kinds (d : ClassVariables) : List TokenKind :=
  .keyword d.kind.keyword :: d.names.kinds ++ [.symbol ';']

/-- The kinds of tokens that a declaration of locals is written with. -/
def localKinds (d : NamesOfType) : List TokenKind :=
  .keyword .var :: d.kinds ++ [.symbol ';']

/-- A parameter of a subroutine. -/
structure Parameter where
  type : TypeName
  name : String

namespace Parameter

/-- The kinds of tokens that a parameter is written with. -/
def kinds (p : Parameter) : List TokenKind :=
  [p.type.kind, .identifier p.name]

/-- The kinds of tokens of parameters after the first, each with its comma. -/
def moreKinds (ps : List Parameter) : List TokenKind :=
  ps.flatMap fun p => .symbol ',' :: p.kinds

/-- The kinds of tokens that parameters are written with. -/
def listKinds : List Parameter → List TokenKind
  | [] => []
  | p :: ps => p.kinds ++ moreKinds ps

end Parameter

/-- The reserved word that declares a subroutine. -/
def SubroutineKind.keyword : SubroutineKind → Keyword
  | constructor => .constructor
  | function => .function
  | method => .method

/-- A subroutine; one without a type for its value is `void`. -/
structure Subroutine where
  kind : SubroutineKind
  resultType : Option TypeName
  name : String
  parameters : List Parameter
  locals : List NamesOfType
  body : List Statement

namespace Subroutine

/-- The kinds of tokens from the name of a subroutine on. -/
def kindsFromName (s : Subroutine) : List TokenKind :=
  .identifier s.name :: .symbol '(' :: Parameter.listKinds s.parameters ++
    .symbol ')' :: braced (s.locals.flatMap localKinds ++ blockKinds s.body)

/-- The kinds of tokens that a subroutine is written with. -/
def kinds (s : Subroutine) : List TokenKind :=
  .keyword s.kind.keyword :: s.resultType.elim (.keyword .void) TypeName.kind :: s.kindsFromName

end Subroutine

/-- A class. -/
structure ClassDeclaration where
  name : String
  declarations : List ClassVariables
  subroutines : List Subroutine

/-- The kinds of tokens that a class is written with. -/
def ClassDeclaration.kinds (c : ClassDeclaration) : List TokenKind :=
  .keyword .«class» :: .identifier c.name ::
    braced (c.declarations.flatMap ClassVariables.kinds ++ c.subroutines.flatMap Subroutine.kinds)

/-! ## Parts

The tokens of a part are tokens of the whole. -/

section

variable {ks : List TokenKind} {name : String} {index value condition argument : Expression} {callee : Callee}
  {arguments others : List Expression} {block elseBlock : List Statement}

theorem Expression.subset_of_binary {left : Expression} {operator : BinaryOperator} {right : Term}
    (h : (Expression.binary left operator right).kinds ⊆ ks) : left.kinds ⊆ ks ∧ right.kinds ⊆ ks := by
  simp only [Expression.kinds, List.append_subset, List.cons_subset] at h
  exact ⟨h.1, h.2.2⟩

theorem Term.subset_of_element (h : (Term.element name index).kinds ⊆ ks) :
    .identifier name ∈ ks ∧ index.kinds ⊆ ks := by
  simp only [Term.kinds, List.cons_append, List.append_subset, List.cons_subset] at h
  obtain ⟨hname, -, hindex, -⟩ := h
  exact ⟨hname, hindex⟩

theorem subset_of_call (h : callKinds callee arguments ⊆ ks) : callee.kinds ⊆ ks ∧ argumentKinds arguments ⊆ ks := by
  simp only [callKinds, List.append_subset, List.cons_subset] at h
  obtain ⟨⟨hcallee, -, harguments⟩, -⟩ := h
  exact ⟨hcallee, harguments⟩

theorem Term.subset_of_parenthesized {inner : Expression} (h : (Term.parenthesized inner).kinds ⊆ ks) :
    inner.kinds ⊆ ks := by
  simp only [Term.kinds, List.cons_append, List.append_subset, List.cons_subset] at h
  exact h.2.1

theorem Term.subset_of_unary {operator : UnaryOperator} {operand : Term}
    (h : (Term.unary operator operand).kinds ⊆ ks) : operand.kinds ⊆ ks := by
  simp only [Term.kinds, List.cons_subset] at h
  exact h.2

/-- The arguments of a call are written with more tokens when they come after others. -/
theorem argumentKinds_subset (es : List Expression) : argumentKinds es ⊆ moreArgumentKinds es := by
  cases es with
  | nil => exact List.Subset.refl _
  | cons e es => simp [argumentKinds, moreArgumentKinds]

theorem subset_of_arguments (h : argumentKinds (argument :: others) ⊆ ks) :
    argument.kinds ⊆ ks ∧ argumentKinds others ⊆ ks := by
  simp only [argumentKinds, List.append_subset] at h
  exact ⟨h.1, List.Subset.trans (argumentKinds_subset others) h.2⟩

namespace Statement

theorem subset_of_let (h : (Statement.let name value).kinds ⊆ ks) : .identifier name ∈ ks ∧ value.kinds ⊆ ks := by
  simp only [Statement.kinds, List.cons_append, List.append_subset, List.cons_subset] at h
  obtain ⟨-, hname, -, hvalue, -⟩ := h
  exact ⟨hname, hvalue⟩

theorem subset_of_letElement (h : (Statement.letElement name index value).kinds ⊆ ks) :
    .identifier name ∈ ks ∧ index.kinds ⊆ ks ∧ value.kinds ⊆ ks := by
  simp only [Statement.kinds, List.cons_append, List.append_assoc, List.append_subset, List.cons_subset] at h
  obtain ⟨-, hname, -, hindex, -, -, hvalue, -⟩ := h
  exact ⟨hname, hindex, hvalue⟩

theorem subset_of_if (h : (Statement.if condition block).kinds ⊆ ks) : condition.kinds ⊆ ks ∧ blockKinds block ⊆ ks := by
  simp only [Statement.kinds, conditionKinds, braced, List.cons_append, List.append_assoc, List.append_subset,
    List.cons_subset] at h
  obtain ⟨-, -, hcondition, -, -, -, hblock, -⟩ := h
  exact ⟨hcondition, hblock⟩

theorem subset_of_ifElse (h : (Statement.ifElse condition block elseBlock).kinds ⊆ ks) :
    condition.kinds ⊆ ks ∧ blockKinds block ⊆ ks ∧ blockKinds elseBlock ⊆ ks := by
  simp only [Statement.kinds, conditionKinds, braced, List.cons_append, List.append_assoc, List.append_subset,
    List.cons_subset] at h
  obtain ⟨-, -, hcondition, -, -, -, hblock, -, -, -, -, helse, -⟩ := h
  exact ⟨hcondition, hblock, helse⟩

theorem subset_of_while (h : (Statement.while condition block).kinds ⊆ ks) :
    condition.kinds ⊆ ks ∧ blockKinds block ⊆ ks := by
  simp only [Statement.kinds, conditionKinds, braced, List.cons_append, List.append_assoc, List.append_subset,
    List.cons_subset] at h
  obtain ⟨-, -, hcondition, -, -, -, hblock, -⟩ := h
  exact ⟨hcondition, hblock⟩

theorem subset_of_do (h : (Statement.do callee arguments).kinds ⊆ ks) : callKinds callee arguments ⊆ ks := by
  simp only [Statement.kinds, List.cons_append, List.append_subset, List.cons_subset] at h
  exact h.2.1

theorem subset_of_return (h : (Statement.return (some value)).kinds ⊆ ks) : value.kinds ⊆ ks := by
  simp only [Statement.kinds, List.cons_append, List.append_subset, List.cons_subset] at h
  exact h.2.1

end Statement

theorem subset_of_block {statement : Statement} (h : blockKinds (statement :: block) ⊆ ks) :
    statement.kinds ⊆ ks ∧ blockKinds block ⊆ ks := by
  simp only [blockKinds, List.append_subset] at h
  exact h

end

/-- A parameter is written with tokens of the list that it stands in. -/
theorem Parameter.kinds_subset_listKinds {ps : List Parameter} {p : Parameter} (hp : p ∈ ps) :
    p.kinds ⊆ listKinds ps := by
  intro kind hk
  cases ps with
  | nil => cases hp
  | cons first others =>
    rcases List.mem_cons.mp hp with rfl | hp
    · exact List.mem_append_left _ hk
    · exact List.mem_append_right _ (List.mem_flatMap.mpr ⟨p, hp, List.mem_cons_of_mem _ hk⟩)

/-- The parts of a subroutine from the type of its value on. -/
theorem Subroutine.subset_of_kinds {s : Subroutine} {ks : List TokenKind} (h : s.kinds ⊆ ks) :
    s.resultType.elim (.keyword .void) TypeName.kind ∈ ks ∧ .identifier s.name ∈ ks ∧
      Parameter.listKinds s.parameters ⊆ ks ∧ s.locals.flatMap localKinds ⊆ ks ∧ blockKinds s.body ⊆ ks := by
  simp only [kinds, kindsFromName, braced, List.cons_append, List.append_assoc, List.cons_subset,
    List.append_subset] at h
  obtain ⟨-, hresult, hname, -, hparameters, -, -, hlocals, hbody, -⟩ := h
  exact ⟨hresult, hname, hparameters, hlocals, hbody⟩

namespace ClassDeclaration

variable {c : ClassDeclaration}

theorem kinds_subset_of_mem_declarations {d : ClassVariables} (hd : d ∈ c.declarations) : d.kinds ⊆ c.kinds := by
  intro kind hk
  have inside : kind ∈ c.declarations.flatMap ClassVariables.kinds := List.mem_flatMap.mpr ⟨d, hd, hk⟩
  simp [kinds, braced, inside]

theorem kinds_subset_of_mem_subroutines {s : Subroutine} (hs : s ∈ c.subroutines) : s.kinds ⊆ c.kinds := by
  intro kind hk
  have inside : kind ∈ c.subroutines.flatMap Subroutine.kinds := List.mem_flatMap.mpr ⟨s, hs, hk⟩
  simp [kinds, braced, inside]

end ClassDeclaration

/-! ## Tokens without places -/

/-- Tokens of the given kinds, all nowhere. -/
def unplaced (kinds : List TokenKind) : List Token :=
  kinds.map fun kind => ⟨kind, .nowhere⟩

@[simp] theorem unplaced_nil : unplaced [] = [] := rfl

@[simp] theorem unplaced_cons (kind : TokenKind) (kinds : List TokenKind) :
    unplaced (kind :: kinds) = ⟨kind, .nowhere⟩ :: unplaced kinds := rfl

@[simp] theorem unplaced_append (kinds others : List TokenKind) :
    unplaced (kinds ++ others) = unplaced kinds ++ unplaced others := by
  simp [unplaced]

@[simp] theorem map_kind_unplaced (kinds : List TokenKind) : (unplaced kinds).map (·.kind) = kinds := by
  simp [unplaced, Function.comp_def]

end JackCompiler
