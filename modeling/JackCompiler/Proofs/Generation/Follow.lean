import JackCompiler.Generation.Compile
import JackCompiler.Proofs.Generation.Rules
import JackCompiler.Proofs.Syntax.Steps

/-!
# Following the steps of a tree

A generator that follows the steps of an expression gets through exactly when the demands of the expression are met, and
then it has written the code of the rules and changed nothing else. `Writes` says this of any steps; it composes, so each
part of a tree is a chain of `Writes.append`. Statements number their `if` and `while` on the way (`WritesBlock`).
-/

namespace JackCompiler

open Vm

theorem Vm.Code.writeAll_append (code : Code) (a b : List Instruction) :
    code.writeAll (a ++ b) = (code.writeAll a).writeAll b := by
  simp [Code.writeAll]

/-! ## Runs of a generator -/

namespace Generator

variable {g g' : Generator}

/-- Goes through steps up to the first one that fails, and watches nothing. -/
def follow (g : Generator) : List Step → Except Error Generator
  | [] => .ok g
  | step :: steps =>
    match g.step step with
    | .ok g => g.follow steps
    | .error e => .error e

/-- A record does not change where a run comes to. -/
theorem run_eq_follow (g : Generator) (recorder : Recorder) (steps : List Step) :
    (g.run recorder steps).1 = g.follow steps := by
  induction steps generalizing g recorder with
  | nil => rfl
  | cons step steps ih =>
    rw [run, follow]
    rcases g.step step with e | h
    · rfl
    · exact ih h _

@[simp] theorem follow_nil : g.follow [] = .ok g' ↔ g' = g := by
  simp [follow, eq_comm]

theorem follow_cons {step : Step} {steps : List Step} :
    g.follow (step :: steps) = .ok g' ↔ ∃ h, g.step step = .ok h ∧ h.follow steps = .ok g' := by
  rw [follow]
  rcases g.step step with e | h <;> simp

theorem follow_append {steps others : List Step} :
    g.follow (steps ++ others) = .ok g' ↔ ∃ h, g.follow steps = .ok h ∧ h.follow others = .ok g' := by
  induction steps generalizing g with
  | nil => simp
  | cons step steps ih =>
    simp only [List.cons_append, follow_cons, ih]
    constructor
    · rintro ⟨h, hs, h', hh, ho⟩
      exact ⟨h', ⟨h, hs, hh⟩, ho⟩
    · rintro ⟨h', ⟨h, hs, hh⟩, ho⟩
      exact ⟨h, hs, h', hh, ho⟩

@[simp] theorem follow_singleton {step : Step} : g.follow [step] = .ok g' ↔ g.step step = .ok g' := by
  simp [follow_cons]

@[simp] theorem emit_nil : g.emit [] = g := rfl

@[simp] theorem emit_emit (a b : List Instruction) : (g.emit a).emit b = g.emit (a ++ b) := by
  simp [emit, Code.writeAll_append]

/-- Following steps gets through exactly when a condition holds, and then comes to the given generator. -/
def Reaches (g : Generator) (steps : List Step) (needs : Prop) (goal : Generator) : Prop :=
  ∀ h, g.follow steps = .ok h ↔ needs ∧ h = goal

namespace Reaches

variable {g1 g2 : Generator} {step : Step} {steps others : List Step} {needs needs' : Prop}

theorem nil (g : Generator) : g.Reaches [] True g := by
  intro h
  simp

theorem of_step (h : g.step step = .ok g1) : g.Reaches [step] True g1 := by
  intro g'
  rw [follow_singleton, h]
  simp [eq_comm]

theorem append (h : g.Reaches steps needs g1) (h' : needs → g1.Reaches others needs' g2) :
    g.Reaches (steps ++ others) (needs ∧ needs') g2 := by
  intro g'
  rw [follow_append]
  constructor
  · rintro ⟨_, hs, ho⟩
    obtain ⟨hn, rfl⟩ := (h _).mp hs
    obtain ⟨hn', rfl⟩ := (h' hn _).mp ho
    exact ⟨⟨hn, hn'⟩, rfl⟩
  · rintro ⟨⟨hn, hn'⟩, rfl⟩
    exact ⟨g1, (h _).mpr ⟨hn, rfl⟩, (h' hn _).mpr ⟨hn', rfl⟩⟩

/-- The condition may be said in another way, and where it leads to as far as it holds. -/
theorem congr (h : g.Reaches steps needs g1) (hn : needs ↔ needs') (hg : needs' → g1 = g2) :
    g.Reaches steps needs' g2 := by
  intro g'
  rw [h g', hn]
  constructor
  · rintro ⟨h', rfl⟩
    exact ⟨h', hg h'⟩
  · rintro ⟨h', rfl⟩
    exact ⟨h', (hg h').symm⟩

end Reaches

/-- A generator sees a context: it is in the class, and its table resolves names in the same way. -/
structure Sees (g : Generator) (Γ : Context) : Prop where
  className : g.className = Γ.className
  lookup? : ∀ name, g.table.lookup? name = Γ.find? name

end Generator

/-! ## Steps that write -/

/-- Steps that get a generator through exactly when a condition holds, and then have written code and done nothing else. -/
def Writes (Γ : Context) (steps : List Step) (needs : Prop) (code : List Instruction) : Prop :=
  ∀ g : Generator, g.Sees Γ → g.Reaches steps needs (g.emit code)

namespace Writes

variable {Γ : Context} {step : Step} {steps others : List Step} {needs needs' : Prop} {code code' : List Instruction}

theorem sees_emit {g : Generator} (h : g.Sees Γ) (code : List Instruction) : (g.emit code).Sees Γ :=
  ⟨h.className, h.lookup?⟩

theorem nil : Writes Γ [] True [] :=
  fun g _ => .nil g

theorem append (h : Writes Γ steps needs code) (h' : Writes Γ others needs' code') :
    Writes Γ (steps ++ others) (needs ∧ needs') (code ++ code') := by
  intro g hg
  refine ((h g hg).append fun _ => h' _ (sees_emit hg code)).congr Iff.rfl fun _ => ?_
  rw [Generator.emit_emit]

/-- A step that always gets through. -/
theorem of_step (h : ∀ g : Generator, g.Sees Γ → g.step step = .ok (g.emit code)) : Writes Γ [step] True code :=
  fun g hg => .of_step (h g hg)

theorem cons (h : Writes Γ [step] needs code) (h' : Writes Γ others needs' code') :
    Writes Γ (step :: others) (needs ∧ needs') (code ++ code') :=
  h.append h'

/-- The condition may be said in another way, and the code too as far as the condition holds. -/
theorem congr (h : Writes Γ steps needs code) (hn : needs ↔ needs') (hc : needs' → code = code') :
    Writes Γ steps needs' code' :=
  fun g hg => (h g hg).congr hn fun h' => by rw [hc h']

/-- Beginning and ending a rule writes nothing. -/
theorem during (rule : Rule) (h : Writes Γ steps needs code) : Writes Γ (during rule steps) needs code := by
  have enter : Writes Γ [.enter rule] True [] := of_step fun _ _ => rfl
  have leave : Writes Γ [.leave rule] True [] := of_step fun _ _ => rfl
  exact ((enter.cons h).append leave).congr (by simp) (by simp)

end Writes

/-! ## Single steps -/

section

variable {Γ : Context}

/-- A step with a variable gets through when the name stands for one. -/
theorem Writes.of_emitWith {step : Step} {name : String} {p : Position} {code : Variable → List Instruction}
    (h : ∀ g : Generator, g.step step = g.emitWith name p code) :
    Writes Γ [step] ((Demand.declared name).Met Γ) ((Γ.find? name).elim [] code) := by
  intro g hg g'
  rw [Generator.follow_singleton, h g, Generator.emitWith, Generator.variableAt, SymbolTable.resolve, hg.lookup?,
    Demand.Met]
  rcases Γ.find? name with _ | v
  · simp
  · simp [eq_comm]

theorem read_eq (v : Variable) : v.read = Rules.push v := by
  obtain ⟨name, type, kind, index⟩ := v
  cases kind <;> rfl

theorem write_eq (v : Variable) : v.write = Rules.pop v := by
  obtain ⟨name, type, kind, index⟩ := v
  cases kind <;> rfl

/-- The code that begins with reading a variable. -/
theorem elim_read (name : String) (is : List Instruction) (h : (Demand.declared name).Met Γ) :
    ((Γ.find? name).elim [] fun v => v.read :: is) = Γ.read name ++ is := by
  rw [Demand.Met, Option.isSome_iff_exists] at h
  obtain ⟨v, h⟩ := h
  simp [Context.read, h, read_eq]

theorem writes_use (name : String) (p : Position) : Writes Γ [.use name p] ((Demand.declared name).Met Γ) [] := by
  refine (Writes.of_emitWith fun _ => rfl).congr Iff.rfl fun _ => ?_
  cases Γ.find? name <;> rfl

theorem writes_read (name : String) (p : Position) :
    Writes Γ [.read name p] ((Demand.declared name).Met Γ) (Γ.read name) := by
  refine (Writes.of_emitWith fun _ => rfl).congr Iff.rfl fun h => ?_
  rw [elim_read name [] h, List.append_nil]

theorem writes_element (name : String) (p : Position) :
    Writes Γ [.element name p] ((Demand.declared name).Met Γ)
      (Γ.read name ++ [.arithmetic .add, .pop .pointer 1, .push .that 0]) :=
  (Writes.of_emitWith fun _ => rfl).congr Iff.rfl (elim_read name _)

theorem writes_elementAddress (name : String) (p : Position) :
    Writes Γ [.elementAddress name p] ((Demand.declared name).Met Γ) (Γ.read name ++ [.arithmetic .add]) :=
  (Writes.of_emitWith fun _ => rfl).congr Iff.rfl (elim_read name _)

theorem writes_assign (name : String) (p : Position) :
    Writes Γ [.assign name p] ((Demand.declared name).Met Γ) (Γ.write name) := by
  refine (Writes.of_emitWith fun _ => rfl).congr Iff.rfl fun _ => ?_
  rw [Context.write]
  cases Γ.find? name <;> simp [write_eq]

theorem stringCode_eq_ok_iff (body : String) (p : Position) (code : List Instruction) :
    stringCode body p = .ok code ↔ (Demand.text body).Met Γ ∧ code = Rules.string body := by
  rw [stringCode, maxConstant, Demand.Met]
  by_cases hl : body.length ≤ 32767
  · rw [if_neg (Nat.not_lt.mpr hl)]
    split
    · next c hf =>
      have hc : 32767 < c.toNat := by simpa using List.find?_some hf
      have hm := List.mem_of_find?_eq_some hf
      constructor
      · intro h
        cases h
      · rintro ⟨⟨-, h⟩, -⟩
        exact absurd (h c hm) (Nat.not_le.mpr hc)
    · next hf =>
      have hc : ∀ c ∈ body.toList, c.toNat ≤ 32767 := by simpa using hf
      constructor
      · intro h
        cases h
        exact ⟨⟨hl, hc⟩, rfl⟩
      · rintro ⟨-, rfl⟩
        rfl
  · rw [if_pos (Nat.lt_of_not_le hl)]
    constructor
    · intro h
      cases h
    · rintro ⟨⟨h, -⟩, -⟩
      exact absurd h hl

theorem writes_string (body : String) (p : Position) :
    Writes Γ [.string body p] ((Demand.text body).Met Γ) (Rules.string body) := by
  intro g _ g'
  have h := stringCode_eq_ok_iff (Γ := Γ) body p
  rw [Generator.follow_singleton, Generator.step]
  rcases hc : stringCode body p with e | code
  · have hn : ¬(Demand.text body).Met Γ := fun hm => by
      have := (h (Rules.string body)).mpr ⟨hm, rfl⟩
      rw [hc] at this
      cases this
    simp [hn]
  · obtain ⟨hm, rfl⟩ := (h code).mp hc
    simp [hm, eq_comm]

theorem writes_unary (operator : UnaryOperator) : Writes Γ [.unary operator] True [Rules.unary operator] :=
  .of_step fun _ _ => by cases operator <;> rfl

theorem writes_binary (operator : BinaryOperator) : Writes Γ [.binary operator] True [Rules.binary operator] :=
  .of_step fun _ _ => by cases operator <;> rfl

theorem writes_constant (word : KeywordConstant) : Writes Γ [.constant word] True (Rules.constant word) :=
  .of_step fun _ _ => by cases word <;> rfl

theorem receiverCode_eq {g : Generator} (hg : g.Sees Γ) (callee : Callee) : g.receiverCode callee = Γ.receiver callee := by
  cases callee with
  | own subroutine => rfl
  | qualified qualifier subroutine =>
    rw [Generator.receiverCode, hg.lookup?, Context.receiver, Context.read]
    cases Γ.find? qualifier <;> simp [read_eq]

theorem target_eq {g : Generator} (hg : g.Sees Γ) (callee : Callee) : g.target callee = Γ.function callee := by
  cases callee with
  | own subroutine => simp [Generator.target, Context.function, qualify, hg.className]
  | qualified qualifier subroutine =>
    rw [Generator.target, hg.lookup?, Context.function]
    cases Γ.find? qualifier <;> rfl

theorem receiver_length (callee : Callee) : (Γ.receiver callee).length = Γ.receivers callee := by
  cases callee with
  | own subroutine => rfl
  | qualified qualifier subroutine =>
    rw [Context.receiver, Context.read, Context.receivers]
    cases Γ.find? qualifier <;> rfl

theorem writes_receiver (callee : Callee) : Writes Γ [.receiver callee] True (Γ.receiver callee) :=
  .of_step fun g hg => by rw [Generator.step, receiverCode_eq hg]

theorem writes_argument (callee : Callee) (number : Nat) (p : Option Position) :
    Writes Γ [.argument callee number p] (number ≤ 65535) [] := by
  intro g _ g'
  rw [Generator.follow_singleton, Generator.step, maxArguments]
  by_cases h : number ≤ 65535
  · simp [h, eq_comm]
  · simp [h]

theorem writes_call (callee : Callee) (n : Nat) :
    Writes Γ [.call callee n] ((Demand.callable callee n).Met Γ) [Γ.call callee n] := by
  intro g hg g'
  rw [Generator.follow_singleton, Generator.step, receiverCode_eq hg, receiver_length, target_eq hg, Demand.Met]
  simp only [maxArguments]
  by_cases h : n + Γ.receivers callee ≤ 65535
  · simp [h, eq_comm, Context.call, Nat.toUInt16]
  · simp [h]

/-! ## Expressions -/

mutual

/-- The steps of an expression inside its rule write its code when its demands are met. -/
theorem Expression.writes_chain (e : Expression) : Writes Γ e.chainSteps (Γ.Meets e.demands) (e.code Γ) := by
  match e with
  | .term t =>
    rw [Expression.chainSteps, Expression.demands, Expression.code]
    exact t.writes_inner.during .term
  | .binary left operator right =>
    rw [Expression.chainSteps, Expression.demands, Expression.code]
    refine ((left.writes_chain.append (right.writes_inner.during .term)).append (writes_binary operator)).congr ?_ ?_
    · simp
    · intro _
      rfl

/-- The steps of a term inside its rule write its code when its demands are met. -/
theorem Term.writes_inner (t : Term) : Writes Γ t.innerSteps (Γ.Meets t.demands) (t.code Γ) := by
  match t with
  | .integer value =>
    exact (Writes.of_step fun _ _ => rfl).congr (by simp [Term.demands]) fun _ => rfl
  | .string body =>
    exact (writes_string body .nowhere).congr (by simp [Term.demands]) fun _ => rfl
  | .constant word =>
    exact (writes_constant word).congr (by simp [Term.demands]) fun _ => rfl
  | .variable name =>
    exact (writes_read name .nowhere).congr (by simp [Term.demands]) fun _ => rfl
  | .element name index =>
    rw [Term.innerSteps, Term.demands, Term.code]
    refine ((writes_use name .nowhere).cons
      ((index.writes_chain.during .expression).append (writes_element name .nowhere))).congr ?_ ?_
    · rw [meets_cons]
      tauto
    · intro _
      simp
  | .call callee arguments =>
    rw [Term.innerSteps, Term.demands, Term.code]
    refine ((writes_receiver callee).cons
      (((writes_arguments callee 0 arguments).during .expressionList).append
        (writes_call callee arguments.length))).congr ?_ ?_
    · rw [meets_append, meets_cons, Demand.Met]
      constructor
      · rintro ⟨-, ⟨h, -⟩, hc⟩
        exact ⟨h, hc, meets_nil⟩
      · rintro ⟨h, hc, -⟩
        exact ⟨trivial, ⟨h, .inr (by omega)⟩, hc⟩
    · intro _
      simp
  | .parenthesized inner =>
    rw [Term.innerSteps, Term.demands, Term.code]
    exact inner.writes_chain.during .expression
  | .unary operator operand =>
    rw [Term.innerSteps, Term.demands, Term.code]
    refine ((operand.writes_inner.during .term).append (writes_unary operator)).congr ?_ ?_
    · simp
    · intro _
      rfl

/-- The steps of the arguments of a call write their code when their demands are met and they can be counted. -/
theorem writes_arguments (callee : Callee) (count : Nat) (es : List Expression) :
    Writes Γ (argumentSteps callee count es) (Γ.Meets (argumentDemands es) ∧ (es = [] ∨ count + es.length ≤ 65535))
      (argumentCode Γ es) := by
  match es with
  | [] =>
    exact Writes.nil.congr (by simp [argumentDemands]) fun _ => rfl
  | e :: es =>
    rw [argumentSteps, argumentDemands, argumentCode]
    refine ((e.writes_chain.during .expression).append
      ((writes_argument callee (count + 1) (some .nowhere)).cons (writes_arguments callee (count + 1) es))).congr ?_ ?_
    · rw [meets_append]
      constructor
      · rintro ⟨h, hc, hs, hl⟩
        refine ⟨⟨h, hs⟩, .inr ?_⟩
        rcases hl with rfl | hl
        · exact hc
        · rw [List.length_cons]
          omega
      · rintro ⟨⟨h, hs⟩, hl⟩
        rw [List.length_cons] at hl
        have hl : count + (es.length + 1) ≤ 65535 := hl.resolve_left (List.cons_ne_nil e es)
        exact ⟨h, by omega, hs, .inr (by omega)⟩
    · intro _
      rfl

end

theorem Expression.writes (e : Expression) : Writes Γ e.steps (Γ.Meets e.demands) (e.code Γ) :=
  e.writes_chain.during .expression

theorem writes_callSteps (callee : Callee) (arguments : List Expression) :
    Writes Γ (callSteps callee arguments) (Γ.Meets (callDemands callee arguments)) (callCode Γ callee arguments) :=
  (Term.call callee arguments).writes_inner

end

/-! ## Statements -/

/-- Steps that get a generator through exactly when a condition holds, and then have written code that depends on the
innermost construct and on the number of the next one, and have begun and ended some constructs. -/
def WritesBlock (Γ : Context) (steps : List Step) (needs : Prop) (constructs : Nat) (code : Nat → Nat → List Instruction) :
    Prop :=
  ∀ g : Generator, g.Sees Γ →
    g.Reaches steps needs
      { g.emit (code g.innermost g.constructs) with constructs := g.constructs + constructs }

namespace WritesBlock

variable {Γ : Context} {steps others : List Step} {needs needs' : Prop} {n n' : Nat}
  {code code' : Nat → Nat → List Instruction}

theorem sees {g : Generator} (h : g.Sees Γ) (is : List Instruction) (k : Nat) (u : List Nat) :
    { g.emit is with constructs := k, unfinished := u }.Sees Γ :=
  ⟨h.className, h.lookup?⟩

theorem of_writes {is : List Instruction} (h : Writes Γ steps needs is) : WritesBlock Γ steps needs 0 fun _ _ => is :=
  fun g hg => h g hg

theorem append (h : WritesBlock Γ steps needs n code) (h' : WritesBlock Γ others needs' n' code') :
    WritesBlock Γ (steps ++ others) (needs ∧ needs') (n + n') fun i k => code i k ++ code' i (k + n) := by
  intro g hg
  refine ((h g hg).append fun _ => h' _ (sees hg _ _ g.unfinished)).congr Iff.rfl fun _ => ?_
  simp [Generator.emit, Generator.innermost, Code.writeAll, Nat.add_assoc]

theorem congr (h : WritesBlock Γ steps needs n code) (hn : needs ↔ needs') (hc : ∀ i k, code i k = code' i k)
    (hm : n = n') : WritesBlock Γ steps needs' n' code' :=
  fun g hg => (h g hg).congr hn fun _ => by rw [hc, hm]

theorem during (rule : Rule) (h : WritesBlock Γ steps needs n code) :
    WritesBlock Γ (during rule steps) needs n code := by
  have enter : WritesBlock Γ [.enter rule] True 0 fun _ _ => [] := of_writes (.of_step fun _ _ => rfl)
  have leave : WritesBlock Γ [.leave rule] True 0 fun _ _ => [] := of_writes (.of_step fun _ _ => rfl)
  exact ((enter.append h).append leave).congr (by simp) (by simp) (by simp)

/-- A step inside a construct writes code with its number. -/
theorem of_inConstruct {step : Step} {is : Nat → List Instruction}
    (h : ∀ g : Generator, g.step step = .ok (g.inConstruct is)) : WritesBlock Γ [step] True 0 fun i _ => is i :=
  fun g _ => .of_step (h g)

/-- A construct takes the next number and hands it to the steps inside. -/
theorem construct (first last : Step) {start stop : Nat → List Instruction}
    (hf : ∀ g : Generator, g.step first = .ok (g.beginConstruct start))
    (hl : ∀ g : Generator, g.step last = .ok (g.endConstruct stop)) (h : WritesBlock Γ steps needs n code) :
    WritesBlock Γ (first :: steps ++ [last]) needs (1 + n) fun _ k => start k ++ code k (k + 1) ++ stop k := by
  intro g hg
  have hs := sees hg (start g.constructs) (g.constructs + 1) (g.constructs :: g.unfinished)
  refine (((Generator.Reaches.of_step (hf g)).append fun _ => h _ hs).append fun _ => .of_step (hl _)).congr ?_ ?_
  · simp
  · intro _
    simp [Generator.beginConstruct, Generator.endConstruct, Generator.emit, Generator.innermost, Code.writeAll,
      Nat.add_assoc]

end WritesBlock

section

variable {Γ : Context}

theorem elseLabel_eq (k : Nat) : elseLabel k = Rules.label "IF_ELSE" (2 * k) := rfl

theorem endIfLabel_eq (k : Nat) : endIfLabel k = Rules.label "IF_END" (2 * k + 1) := rfl

theorem topLabel_eq (k : Nat) : topLabel k = Rules.label "WHILE_TOP" (2 * k) := rfl

theorem endWhileLabel_eq (k : Nat) : endWhileLabel k = Rules.label "WHILE_END" (2 * k + 1) := rfl

mutual

/-- The steps of a statement write its code when its demands are met. -/
theorem Statement.writes (s : Statement) :
    WritesBlock Γ s.steps (Γ.Meets s.demands) s.constructs fun _ k => s.code Γ k := by
  match s with
  | .let name value =>
    rw [Statement.steps, Statement.demands]
    refine (WritesBlock.of_writes ((writes_use name .nowhere).cons
      (value.writes.append (writes_assign name .nowhere)))).during .letStatement |>.congr ?_ ?_ ?_
    · rw [meets_cons]
      tauto
    · simp [Statement.code]
    · simp [Statement.constructs]
  | .letElement name index value =>
    rw [Statement.steps, Statement.demands]
    have store : Writes Γ [.assignElement] True [.pop .temp 0, .pop .pointer 1, .push .temp 0, .pop .that 0] :=
      .of_step fun _ _ => rfl
    refine (WritesBlock.of_writes (((writes_use name .nowhere).cons
      (index.writes.append ((writes_elementAddress name .nowhere).cons value.writes))).append
        store)).during .letStatement |>.congr ?_ ?_ ?_
    · simp only [List.cons_append, meets_cons, meets_append]
      tauto
    · simp [Statement.code]
    · simp [Statement.constructs]
  | .if condition block =>
    rw [Statement.steps, Statement.demands, List.append_assoc]
    have inside := ((writes_block block).during .statements).construct .beginIf .endIf
      (fun _ => rfl) (fun _ => rfl)
    refine ((WritesBlock.of_writes condition.writes).append inside).during .ifStatement |>.congr ?_ ?_ ?_
    · rw [meets_append]
    · simp [Statement.code, elseLabel_eq]
    · simp [Statement.constructs]
  | .ifElse condition block elseBlock =>
    have middle : WritesBlock Γ [.beginElse] True 0 _ := .of_inConstruct fun _ => rfl
    have inside := (((writes_block block).during .statements).append
      (middle.append ((writes_block elseBlock).during .statements))).construct .beginIf .endIfElse
      (fun _ => rfl) (fun _ => rfl)
    have whole := ((WritesBlock.of_writes condition.writes).append inside).during .ifStatement
    rw [Statement.steps, Statement.demands]
    simp only [List.append_assoc, List.cons_append, List.nil_append] at whole ⊢
    refine whole.congr ?_ ?_ ?_
    · simp
    · simp [Statement.code, elseLabel_eq, endIfLabel_eq]
    · simp [Statement.constructs, Nat.add_assoc]
  | .while condition block =>
    have middle : WritesBlock Γ [.testWhile] True 0 _ := .of_inConstruct fun _ => rfl
    have inside := ((WritesBlock.of_writes condition.writes).append
      (middle.append ((writes_block block).during .statements))).construct .beginWhile .endWhile
      (fun _ => rfl) (fun _ => rfl)
    have whole := inside.during .whileStatement
    rw [Statement.steps, Statement.demands]
    simp only [List.append_assoc, List.cons_append, List.nil_append] at whole ⊢
    refine whole.congr ?_ ?_ ?_
    · simp
    · simp [Statement.code, topLabel_eq, endWhileLabel_eq]
    · simp [Statement.constructs]
  | .do callee arguments =>
    rw [Statement.steps, Statement.demands]
    have discard : Writes Γ [.discard] True [.pop .temp 0] := .of_step fun _ _ => rfl
    refine (WritesBlock.of_writes ((writes_callSteps callee arguments).append discard)).during .doStatement
      |>.congr ?_ ?_ ?_
    · simp
    · simp [Statement.code]
    · simp [Statement.constructs]
  | .return value =>
    have leave : Writes Γ [.ret] True [.«return»] := .of_step fun _ _ => rfl
    have result : Writes Γ (value.elim [.noValue] Expression.steps) (Γ.Meets (value.elim [] Expression.demands))
        (value.elim [.push .constant 0] (Expression.code Γ)) := by
      cases value with
      | none => exact (Writes.of_step fun _ _ => rfl).congr (by simp) fun _ => rfl
      | some e => exact e.writes
    rw [Statement.steps, Statement.demands]
    refine (WritesBlock.of_writes (result.append leave)).during .returnStatement |>.congr ?_ ?_ ?_
    · simp
    · simp [Statement.code]
    · simp [Statement.constructs]

/-- The steps of statements write their code when their demands are met. -/
theorem writes_block (block : List Statement) :
    WritesBlock Γ (blockSteps block) (Γ.Meets (blockDemands block)) (blockConstructs block)
      fun _ k => blockCode Γ k block := by
  match block with
  | [] =>
    exact (WritesBlock.of_writes .nil).congr (by simp [blockDemands]) (fun _ _ => rfl) rfl
  | s :: others =>
    exact (s.writes.append (writes_block others)).congr (by simp [blockDemands]) (fun _ _ => rfl) rfl

end

end

end JackCompiler
