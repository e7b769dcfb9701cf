import JackCompiler.Proofs.Generation.Declarations
import JackCompiler.Proofs.Syntax.Tree

/-!
# The code generation rules

The rules of section 4.3 of the specification as functions on trees: the code of each part is put together from the code of
its parts, and nothing is passed from one part to the next but the number of the next `if` or `while`. The rules have their
own tables of segments, operators, constants and labels; they know nothing of steps, walks and generators.

A `Context` says what the names stand for where a part stands. Code for a name that stands for nothing is not asked for:
what a part needs of its context is collected in its demands, and the rules are only meant for a part whose demands are met.
-/

namespace JackCompiler

open Vm

/-! ## Contexts -/

/-- What a part of a class knows of its surroundings: the name of the class, and what the names stand for. -/
structure Context where
  className : String
  find? : String → Option Variable

namespace Rules

/-- The segment that holds the variables of a kind. -/
def segment : VariableKind → Segment
  | .static => .static
  | .field => .this
  | .argument => .argument
  | .«local» => .«local»

/-- Reads a variable. -/
def push (v : Variable) : Instruction :=
  .push (segment v.kind) v.index

/-- Assigns to a variable. -/
def pop (v : Variable) : Instruction :=
  .pop (segment v.kind) v.index

/-- Applies an operator to the operand on the stack. -/
def unary : UnaryOperator → Instruction
  | .negate => .arithmetic .neg
  | .complement => .arithmetic .not

/-- Applies an operator to the two operands on the stack. -/
def binary : BinaryOperator → Instruction
  | .add => .arithmetic .add
  | .subtract => .arithmetic .sub
  | .multiply => .call "Math.multiply" 2
  | .divide => .call "Math.divide" 2
  | .and => .arithmetic .and
  | .or => .arithmetic .or
  | .less => .arithmetic .lt
  | .greater => .arithmetic .gt
  | .equal => .arithmetic .eq

/-- Pushes a constant. -/
def constant : KeywordConstant → List Instruction
  | .true => [.push .constant 0, .arithmetic .not]
  | .false => [.push .constant 0]
  | .null => [.push .constant 0]
  | .this => [.push .pointer 0]

/-- Builds a string: makes room for its characters and appends them one by one. -/
def string (body : String) : List Instruction :=
  [.push .constant (UInt16.ofNat body.length), .call "String.new" 1] ++
    body.toList.flatMap fun c => [.push .constant (UInt16.ofNat c.toNat), .call "String.appendChar" 2]

/-- A label: a stem and a number. -/
def label (stem : String) (n : Nat) : String :=
  stem ++ "_" ++ toString n

/-- Starts a subroutine: a constructor makes its object, a method takes it from its first argument. -/
def prologue (fields : Nat) : SubroutineKind → List Instruction
  | .constructor => [.push .constant (UInt16.ofNat fields), .call "Memory.alloc" 1, .pop .pointer 0]
  | .function => []
  | .method => [.push .argument 0, .pop .pointer 0]

end Rules

namespace Context

variable (Γ : Context)

/-- The context of declarations: a name stands for its last declaration in the innermost scope that declares it. -/
def ofDeclarations (className : String) (cs ss : List Declaration) : Context where
  className := className
  find? name := (lastNamed? (Declaration.made ss) name).or (lastNamed? (Declaration.made cs) name)

/-- Reads the variable that a name stands for. -/
def read (name : String) : List Instruction :=
  ((Γ.find? name).map Rules.push).toList

/-- Assigns to the variable that a name stands for. -/
def write (name : String) : List Instruction :=
  ((Γ.find? name).map Rules.pop).toList

/-- Pushes the object that a call works on, if it works on one: the own object, or that of the variable before the dot. -/
def receiver : Callee → List Instruction
  | .own _ => [.push .pointer 0]
  | .qualified qualifier _ => Γ.read qualifier

/-- How many arguments a call gets besides the written ones. -/
def receivers : Callee → Nat
  | .own _ => 1
  | .qualified qualifier _ => if (Γ.find? qualifier).isSome then 1 else 0

/-- The function that a call calls: a name before the dot is that of a variable, whose type counts, or of a class. -/
def function : Callee → String
  | .own subroutine => Γ.className ++ "." ++ subroutine
  | .qualified qualifier subroutine =>
    match Γ.find? qualifier with
    | some v => v.type ++ "." ++ subroutine
    | none => qualifier ++ "." ++ subroutine

/-- Calls with the arguments on the stack, of which `n` are written. -/
def call (callee : Callee) (n : Nat) : Instruction :=
  .call (Γ.function callee) (UInt16.ofNat (n + Γ.receivers callee))

end Context

/-! ## Expressions -/

section

variable (Γ : Context)

mutual

/-- The code of an expression leaves its value on the stack; operators apply strictly from left to right. -/
def Expression.code : Expression → List Instruction
  | .term t => t.code
  | .binary left operator right => left.code ++ right.code ++ [Rules.binary operator]

/-- The code of a term. -/
def Term.code : Term → List Instruction
  | .integer value => [.push .constant value]
  | .string body => Rules.string body
  | .constant word => Rules.constant word
  | .variable name => Γ.read name
  | .element name index =>
    index.code ++ Γ.read name ++ [.arithmetic .add, .pop .pointer 1, .push .that 0]
  | .call callee arguments => Γ.receiver callee ++ argumentCode arguments ++ [Γ.call callee arguments.length]
  | .parenthesized inner => inner.code
  | .unary operator operand => operand.code ++ [Rules.unary operator]

/-- The code of the arguments of a call, from left to right. -/
def argumentCode : List Expression → List Instruction
  | [] => []
  | argument :: others => argument.code ++ argumentCode others

end

/-- The code of a call. -/
def callCode (callee : Callee) (arguments : List Expression) : List Instruction :=
  Γ.receiver callee ++ argumentCode Γ arguments ++ [Γ.call callee arguments.length]

end

/-! ## Statements -/

mutual

/-- How many `if` and `while` a statement has, itself included. -/
def Statement.constructs : Statement → Nat
  | .let .. | .letElement .. | .do .. | .return .. => 0
  | .if _ block => 1 + blockConstructs block
  | .ifElse _ block elseBlock => 1 + blockConstructs block + blockConstructs elseBlock
  | .while _ block => 1 + blockConstructs block

/-- How many `if` and `while` statements have. -/
def blockConstructs : List Statement → Nat
  | [] => 0
  | statement :: others => statement.constructs + blockConstructs others

end

section

variable (Γ : Context)

mutual

/-- The code of a statement before which the subroutine has `k` words `if` and `while`. The next such word owns the
numbers `2 * k` and `2 * k + 1`; those in its blocks come after it. -/
def Statement.code (k : Nat) : Statement → List Instruction
  | .let name value => value.code Γ ++ Γ.write name
  | .letElement name index value =>
    index.code Γ ++ Γ.read name ++ [.arithmetic .add] ++ value.code Γ ++
      [.pop .temp 0, .pop .pointer 1, .push .temp 0, .pop .that 0]
  | .if condition block =>
    condition.code Γ ++ [.arithmetic .not, .ifGoto (Rules.label "IF_ELSE" (2 * k))] ++
      blockCode (k + 1) block ++ [.label (Rules.label "IF_ELSE" (2 * k))]
  | .ifElse condition block elseBlock =>
    condition.code Γ ++ [.arithmetic .not, .ifGoto (Rules.label "IF_ELSE" (2 * k))] ++
      blockCode (k + 1) block ++
      [.goto (Rules.label "IF_END" (2 * k + 1)), .label (Rules.label "IF_ELSE" (2 * k))] ++
      blockCode (k + 1 + blockConstructs block) elseBlock ++ [.label (Rules.label "IF_END" (2 * k + 1))]
  | .while condition block =>
    [.label (Rules.label "WHILE_TOP" (2 * k))] ++ condition.code Γ ++
      [.arithmetic .not, .ifGoto (Rules.label "WHILE_END" (2 * k + 1))] ++ blockCode (k + 1) block ++
      [.goto (Rules.label "WHILE_TOP" (2 * k)), .label (Rules.label "WHILE_END" (2 * k + 1))]
  | .do callee arguments => callCode Γ callee arguments ++ [.pop .temp 0]
  | .return value => value.elim [.push .constant 0] (Expression.code Γ) ++ [.«return»]

/-- The code of statements one after another. -/
def blockCode (k : Nat) : List Statement → List Instruction
  | [] => []
  | statement :: others => statement.code k ++ blockCode (k + statement.constructs) others

end

end

/-- Whether the last of some statements is a `return`. -/
def endsInReturn (body : List Statement) : Bool :=
  match body.getLast? with
  | some (.return _) => true
  | _ => false

/-! ## Declarations -/

/-- The declarations of names of one type as variables of a kind. -/
def NamesOfType.declarations (kind : VariableKind) (d : NamesOfType) : List Declaration :=
  d.names.map fun name => ⟨kind, d.type.name, name⟩

/-- The declaration of a parameter. -/
def Parameter.declaration (p : Parameter) : Declaration :=
  ⟨.argument, p.type.name, p.name⟩

namespace Subroutine

/-- The first argument of a method is its object; no text declares it. -/
def implicit (className : String) (s : Subroutine) : List Declaration :=
  match s.kind with
  | .method => [⟨.argument, className, "this"⟩]
  | .constructor | .function => []

/-- The declarations of the scope of a subroutine in order: its arguments, then its locals. -/
def scope (className : String) (s : Subroutine) : List Declaration :=
  s.implicit className ++ s.parameters.map Parameter.declaration ++
    s.locals.flatMap (NamesOfType.declarations .«local»)

end Subroutine

namespace ClassDeclaration

variable (c : ClassDeclaration)

/-- The declarations of the scope of the class in order. -/
def scope : List Declaration :=
  c.declarations.flatMap fun d => d.names.declarations d.kind.kind

/-- What the names in the body of a subroutine stand for. -/
def context (s : Subroutine) : Context :=
  .ofDeclarations c.name c.scope (s.scope c.name)

/-- The code of a subroutine: its head with the number of declared locals, its start, its statements, and a return of 0
unless the statements end in a return. -/
def subroutineCode (s : Subroutine) : List Instruction :=
  .function (c.name ++ "." ++ s.name) (UInt16.ofNat (s.locals.flatMap NamesOfType.names).length) ::
    Rules.prologue (Declaration.countOf .field c.scope) s.kind ++ blockCode (c.context s) 0 s.body ++
    if endsInReturn s.body then [] else [.push .constant 0, .«return»]

/-- The code of a class. -/
def code : List Instruction :=
  c.subroutines.flatMap c.subroutineCode

/-- The variables of the class: each name where it was first declared, as it was last declared. -/
def symbols : List Variable :=
  scopeOf (Declaration.made c.scope)

end ClassDeclaration

/-! ## Demands -/

/-- What a part of a class needs. -/
inductive Demand where
  /-- A name in the place of a variable stands for one. -/
  | declared (name : String)
  /-- The arguments of a call, of which some are written, can be counted. -/
  | callable (callee : Callee) (arguments : Nat)
  /-- The characters of a string can be counted and pushed. -/
  | text (body : String)

/-- Whether a context meets a demand. -/
def Demand.Met (Γ : Context) : Demand → Prop
  | .declared name => (Γ.find? name).isSome
  | .callable callee arguments => arguments + Γ.receivers callee ≤ 65535
  | .text body => body.length ≤ 32767 ∧ ∀ c ∈ body.toList, c.toNat ≤ 32767

/-- Whether a context meets all of some demands. -/
def Context.Meets (Γ : Context) (ds : List Demand) : Prop :=
  ∀ d ∈ ds, d.Met Γ

section

variable {Γ : Context} {d : Demand} {ds ds' : List Demand}

@[simp] theorem meets_nil : Γ.Meets [] :=
  List.forall_mem_nil _

@[simp] theorem meets_cons : Γ.Meets (d :: ds) ↔ d.Met Γ ∧ Γ.Meets ds :=
  List.forall_mem_cons

@[simp] theorem meets_append : Γ.Meets (ds ++ ds') ↔ Γ.Meets ds ∧ Γ.Meets ds' :=
  List.forall_mem_append

end

mutual

/-- The demands of an expression. -/
def Expression.demands : Expression → List Demand
  | .term t => t.demands
  | .binary left _ right => left.demands ++ right.demands

/-- The demands of a term. -/
def Term.demands : Term → List Demand
  | .integer _ => []
  | .string body => [.text body]
  | .constant _ => []
  | .variable name => [.declared name]
  | .element name index => .declared name :: index.demands
  | .call callee arguments => argumentDemands arguments ++ [.callable callee arguments.length]
  | .parenthesized inner => inner.demands
  | .unary _ operand => operand.demands

/-- The demands of the arguments of a call. -/
def argumentDemands : List Expression → List Demand
  | [] => []
  | argument :: others => argument.demands ++ argumentDemands others

end

/-- The demands of a call. -/
def callDemands (callee : Callee) (arguments : List Expression) : List Demand :=
  argumentDemands arguments ++ [.callable callee arguments.length]

mutual

/-- The demands of a statement. -/
def Statement.demands : Statement → List Demand
  | .let name value => .declared name :: value.demands
  | .letElement name index value => .declared name :: index.demands ++ value.demands
  | .if condition block => condition.demands ++ blockDemands block
  | .ifElse condition block elseBlock => condition.demands ++ blockDemands block ++ blockDemands elseBlock
  | .while condition block => condition.demands ++ blockDemands block
  | .do callee arguments => callDemands callee arguments
  | .return value => value.elim [] Expression.demands

/-- The demands of statements one after another. -/
def blockDemands : List Statement → List Demand
  | [] => []
  | statement :: others => statement.demands ++ blockDemands others

end

/-- What a subroutine has to be: its scope is admissible and meets the demands of its statements. -/
structure Subroutine.Valid (strict : Bool) (c : ClassDeclaration) (s : Subroutine) : Prop where
  scope : Admissible strict (s.scope c.name)
  body : (c.context s).Meets (blockDemands s.body)

/-- What a class has to be: its scope is admissible, and its subroutines are what they have to be. -/
structure ClassDeclaration.Valid (strict : Bool) (c : ClassDeclaration) : Prop where
  scope : Admissible strict c.scope
  subroutines : ∀ s ∈ c.subroutines, s.Valid strict c

/-! Whether a class is what it has to be can be computed. -/

instance (Γ : Context) (d : Demand) : Decidable (d.Met Γ) :=
  match d with
  | .declared name => inferInstanceAs (Decidable ((Γ.find? name).isSome = true))
  | .callable callee arguments => inferInstanceAs (Decidable (arguments + Γ.receivers callee ≤ 65535))
  | .text body =>
    -- the characters of the body are tried, not all characters that there are
    have := List.decidableBAll (fun c : Char => c.toNat ≤ 32767) body.toList
    inferInstanceAs (Decidable (body.length ≤ 32767 ∧ ∀ c ∈ body.toList, c.toNat ≤ 32767))

instance (Γ : Context) (ds : List Demand) : Decidable (Γ.Meets ds) :=
  inferInstanceAs (Decidable (∀ d ∈ ds, d.Met Γ))

instance (strict : Bool) (ds : List Declaration) : Decidable (Admissible strict ds) :=
  decidable_of_iff
    ((∀ kind ∈ VariableKind.all, Declaration.countOf kind ds ≤ 65535) ∧ (strict = true → (ds.map (·.name)).Nodup))
    ⟨fun h => ⟨fun kind => h.1 kind (by cases kind <;> decide), h.2⟩, fun h => ⟨fun kind _ => h.counts kind, h.distinct⟩⟩

instance (strict : Bool) (c : ClassDeclaration) (s : Subroutine) : Decidable (s.Valid strict c) :=
  decidable_of_iff (Admissible strict (s.scope c.name) ∧ (c.context s).Meets (blockDemands s.body))
    ⟨fun h => ⟨h.1, h.2⟩, fun h => ⟨h.scope, h.body⟩⟩

instance (strict : Bool) (c : ClassDeclaration) : Decidable (c.Valid strict) :=
  decidable_of_iff (Admissible strict c.scope ∧ ∀ s ∈ c.subroutines, s.Valid strict c)
    ⟨fun h => ⟨h.1, h.2⟩, fun h => ⟨h.scope, h.subroutines⟩⟩

end JackCompiler
