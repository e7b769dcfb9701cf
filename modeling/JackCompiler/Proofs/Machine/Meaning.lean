import JackCompiler.Proofs.Generation.Rules
import JackCompiler.Proofs.Machine.Machine

/-!
# What programs mean

The meaning of trees without any code: an expression has a value and may change the store through the calls in it, an
assignment changes the store, and statements run until they end or return. Operators apply strictly from left to right;
products and quotients, strings and calls are calls of functions. A name without a variable has no meaning.
-/

namespace JackCompiler

variable (functions : Functions) (Γ : Context)

/-! ## Values -/

namespace Store

/-- The value of a variable; fields are words of the object. -/
def get (σ : Store) (v : Variable) : Word :=
  match v.kind with
  | .static => σ.statics v.index
  | .field => σ.memory (σ.this + v.index)
  | .argument => σ.arguments v.index
  | .«local» => σ.locals v.index

/-- Stores a word in memory. -/
def poke (σ : Store) (address x : Word) : Store :=
  { σ with memory := Function.update σ.memory address x }

/-- Assigns to a variable. -/
def set (σ : Store) (v : Variable) (x : Word) : Store :=
  match v.kind with
  | .static => { σ with statics := Function.update σ.statics v.index x }
  | .field => σ.poke (σ.this + v.index) x
  | .argument => { σ with arguments := Function.update σ.arguments v.index x }
  | .«local» => { σ with locals := Function.update σ.locals v.index x }

end Store

/-- The value of a constant with a reserved word. -/
def KeywordConstant.value (σ : Store) : KeywordConstant → Word
  | .true => 0xFFFF
  | .false => 0
  | .null => 0
  | .this => σ.this

/-- The value of an operator with one operand. -/
def UnaryOperator.value : UnaryOperator → Word → Word
  | .negate, x => -x
  | .complement, x => ~~~x

/-- The value of an operator with two operands. -/
def BinaryOperator.value (σ : Store) (x y : Word) : BinaryOperator → Word × Store
  | .add => (x + y, σ)
  | .subtract => (x - y, σ)
  | .multiply => σ.call functions "Math.multiply" [x, y]
  | .divide => σ.call functions "Math.divide" [x, y]
  | .and => (x &&& y, σ)
  | .or => (x ||| y, σ)
  | .less => (Word.ofBool (Word.less x y), σ)
  | .greater => (Word.ofBool (Word.less y x), σ)
  | .equal => (Word.ofBool (x = y), σ)

/-- Appends characters to a string. -/
def appendValue (s : Word) (σ : Store) : List Char → Word × Store
  | [] => (s, σ)
  | c :: cs =>
    let appended := σ.call functions "String.appendChar" [s, UInt16.ofNat c.toNat]
    appendValue appended.1 appended.2 cs

/-- The value of a string constant: a new string to which the characters are appended. -/
def stringValue (σ : Store) (body : String) : Word × Store :=
  let new := σ.call functions "String.new" [UInt16.ofNat body.length]
  appendValue functions new.1 new.2 body.toList

/-- The object that a call works on, if it works on one: the own object, or the value of the variable before the dot. -/
def Context.objects (σ : Store) : Callee → List Word
  | .own _ => [σ.this]
  | .qualified qualifier _ => ((Γ.find? qualifier).map σ.get).toList

mutual

/-- The value of an expression, and the store after it. -/
def Expression.eval : Expression → Store → Option (Word × Store)
  | .term t, σ => t.eval σ
  | .binary left operator right, σ => do
    let (x, σ) ← left.eval σ
    let (y, σ) ← right.eval σ
    return operator.value functions σ x y

/-- The value of a term, and the store after it. The index of an element comes before its array. -/
def Term.eval : Term → Store → Option (Word × Store)
  | .integer value, σ => some (value, σ)
  | .string body, σ => some (stringValue functions σ body)
  | .constant word, σ => some (word.value σ, σ)
  | .variable name, σ => do
    let v ← Γ.find? name
    return (σ.get v, σ)
  | .element name index, σ => do
    let (i, σ) ← index.eval σ
    let v ← Γ.find? name
    return (σ.memory (σ.get v + i), σ)
  | .call callee arguments, σ => do
    let objects := Γ.objects σ callee
    let (xs, σ) ← evalArguments arguments σ
    return σ.call functions (Γ.function callee) (objects ++ xs)
  | .parenthesized inner, σ => inner.eval σ
  | .unary operator operand, σ => do
    let (x, σ) ← operand.eval σ
    return (operator.value x, σ)

/-- The values of the arguments of a call from left to right, and the store after them. -/
def evalArguments : List Expression → Store → Option (List Word × Store)
  | [], σ => some ([], σ)
  | argument :: others, σ => do
    let (x, σ) ← argument.eval σ
    let (xs, σ) ← evalArguments others σ
    return (x :: xs, σ)

end

/-! ## Assignments -/

/-- The store after an assignment to a variable. -/
def assign (name : String) (value : Expression) (σ : Store) : Option Store := do
  let (x, σ) ← value.eval functions Γ σ
  let v ← Γ.find? name
  return σ.set v x

/-- The store after an assignment to an element: index, array and value are evaluated in this order, then it is stored. -/
def assignElement (name : String) (index value : Expression) (σ : Store) : Option Store := do
  let (i, σ) ← index.eval functions Γ σ
  let v ← Γ.find? name
  let address := σ.get v + i
  let (x, σ) ← value.eval functions Γ σ
  return σ.poke address x

/-- Whether a statement is a `let`. -/
def Statement.IsLet : Statement → Prop
  | .let .. | .letElement .. => True
  | _ => False

/-- The store after a `let`; other statements are no assignments. -/
def Statement.assigned : Statement → Store → Option Store
  | .let name value, σ => assign functions Γ name value σ
  | .letElement name index value, σ => assignElement functions Γ name index value σ
  | _, _ => none

/-! ## Statements -/

/-- How statements end: they reach their end, or they return a word. -/
inductive Outcome where
  | normal (σ : Store)
  | returned (x : Word) (σ : Store)

/-- The result of a subroutine whose statements end in some way: one that returns nothing yields 0. -/
def Outcome.result : Outcome → Word
  | normal _ => 0
  | returned x _ => x

/-- The store in which statements end. -/
def Outcome.store : Outcome → Store
  | normal σ => σ
  | returned _ σ => σ

mutual

/-- A statement ends in some way when it begins in a store. A condition holds when it is all ones. -/
inductive Statement.Executes : Statement → Store → Outcome → Prop
  | assigned {s σ σ'} : s.assigned functions Γ σ = some σ' → Statement.Executes s σ (.normal σ')
  | ifTrue (c block) {σ σ' o} :
    c.eval functions Γ σ = some (0xFFFF, σ') → BlockExecutes block σ' o → Statement.Executes (.if c block) σ o
  | ifFalse (c block) {σ x σ'} :
    c.eval functions Γ σ = some (x, σ') → x ≠ 0xFFFF → Statement.Executes (.if c block) σ (.normal σ')
  | ifElseTrue (c block elseBlock) {σ σ' o} :
    c.eval functions Γ σ = some (0xFFFF, σ') → BlockExecutes block σ' o → Statement.Executes (.ifElse c block elseBlock) σ o
  | ifElseFalse (c block elseBlock) {σ x σ' o} :
    c.eval functions Γ σ = some (x, σ') → x ≠ 0xFFFF → BlockExecutes elseBlock σ' o →
    Statement.Executes (.ifElse c block elseBlock) σ o
  | whileAgain (c block) {σ σ' σ'' o} :
    c.eval functions Γ σ = some (0xFFFF, σ') → BlockExecutes block σ' (.normal σ'') →
    Statement.Executes (.while c block) σ'' o → Statement.Executes (.while c block) σ o
  | whileReturned (c block) {σ σ' x σ''} :
    c.eval functions Γ σ = some (0xFFFF, σ') → BlockExecutes block σ' (.returned x σ'') →
    Statement.Executes (.while c block) σ (.returned x σ'')
  | whileFalse (c block) {σ x σ'} :
    c.eval functions Γ σ = some (x, σ') → x ≠ 0xFFFF → Statement.Executes (.while c block) σ (.normal σ')
  | done (callee arguments) {σ x σ'} :
    (Term.call callee arguments).eval functions Γ σ = some (x, σ') → Statement.Executes (.do callee arguments) σ (.normal σ')
  | returned (e) {σ x σ'} : e.eval functions Γ σ = some (x, σ') → Statement.Executes (.return (some e)) σ (.returned x σ')
  | returnedNothing {σ} : Statement.Executes (.return none) σ (.returned 0 σ)

/-- Statements one after another end in some way when they begin in a store. -/
inductive BlockExecutes : List Statement → Store → Outcome → Prop
  | nil {σ} : BlockExecutes [] σ (.normal σ)
  | next {s others σ σ' o} : s.Executes σ (.normal σ') → BlockExecutes others σ' o → BlockExecutes (s :: others) σ o
  | leave {s others σ x σ'} : s.Executes σ (.returned x σ') → BlockExecutes (s :: others) σ (.returned x σ')

end

end JackCompiler
