import JackCompiler.Proofs.Generation.FollowClass
import JackCompiler.Proofs.Grammar.Places
import JackCompiler.Proofs.Grammar.Soundness
import JackCompiler.Proofs.Grammar.WalkClass

/-!
# What is compiled, and to what

Compilation accepts exactly the token lists whose kinds spell a valid class, and makes of them what the rules make of the
class: `compile_eq_ok_iff`. Places of tokens play no part in it, so the walk may take them all away first
(`Generator.follow_relocate`, `readClass_unplaced`); then the walk reads the steps of a tree or stops
(`readClass_tree`, `exists_tree_of_readClass`), and the generator gets through the steps exactly when the tree is valid
(`ClassDeclaration.exists_reaches`).
-/

namespace JackCompiler

/-! ## Places -/

section

variable {f : Position → Position} {g g' : Generator}

theorem Generator.emitWith_place (name : String) (p q : Position) (code : Variable → List Vm.Instruction) :
    g.emitWith name p code = .ok g' ↔ g.emitWith name q code = .ok g' := by
  simp only [emitWith, variableAt]
  cases g.table.resolve name <;> simp

/-- Where a step stands does not matter to what it does. -/
theorem Generator.step_relocate (step : Step) : g.step (step.relocate f) = .ok g' ↔ g.step step = .ok g' := by
  cases step with
  | declare kind type name p =>
    simp only [Step.relocate, Generator.step, declare]
    split
    · simp
    · cases g.table.define name type kind <;> simp
  | string body p =>
    simp only [Step.relocate, Generator.step, stringCode]
    by_cases hl : maxConstant < body.length
    · simp [hl]
    · simp only [if_neg hl]
      cases body.toList.find? fun c => maxConstant < c.toNat <;> simp
  | read | use | element | elementAddress | assign => exact emitWith_place ..
  | argument callee number p =>
    simp only [Step.relocate, Generator.step]
    split <;> simp
  | _ => rfl

theorem Generator.follow_relocate (steps : List Step) :
    g.follow (steps.map (Step.relocate f)) = .ok g' ↔ g.follow steps = .ok g' := by
  induction steps generalizing g with
  | nil => rfl
  | cons step steps ih => simp only [List.map_cons, follow_cons, step_relocate, ih]

end

theorem unplaced_kinds (tokens : List Token) :
    unplaced (tokens.map (·.kind)) = tokens.map (Token.relocate fun _ => .nowhere) := by
  simp [unplaced, Token.relocate, Function.comp_def]

/-- Tokens without their places are read as the same class, if as any, and go through the same steps but for places. -/
theorem readClass_unplaced (tokens : List Token) :
    readClass (unplaced (tokens.map (·.kind))) = (readClass tokens).relocate fun _ => .nowhere := by
  rw [unplaced_kinds, readClass_relocate tokens rfl]

/-! ## Errors of the generator -/

section

variable {g : Generator} {e : GrammarError}

theorem Generator.emitWith_ne_grammar (name : String) (p : Position) (code : Variable → List Vm.Instruction) :
    g.emitWith name p code ≠ .error (.grammar e) := by
  simp only [emitWith, variableAt]
  cases g.table.resolve name <;> simp

/-- No step finds fault with the order of tokens. -/
theorem Generator.step_ne_grammar (step : Step) : g.step step ≠ .error (.grammar e) := by
  cases step with
  | declare kind type name p =>
    simp only [Generator.step, declare]
    split
    · simp
    · cases g.table.define name type kind <;> simp
  | beginSubroutine kind =>
    cases kind with
    | constructor | function => simp [Generator.step, beginSubroutine]
    | method =>
      simp only [Generator.step, beginSubroutine]
      split <;> simp
  | string body p =>
    simp only [Generator.step]
    cases stringCode body p <;> simp
  | read | use | element | elementAddress | assign => exact emitWith_ne_grammar _ _ _
  | argument callee number p =>
    simp only [Generator.step]
    split <;> simp
  | call callee n =>
    simp only [Generator.step]
    split <;> simp
  | _ => simp [Generator.step]

theorem Generator.follow_ne_grammar (steps : List Step) : g.follow steps ≠ .error (.grammar e) := by
  induction steps generalizing g with
  | nil => simp [follow]
  | cons step steps ih =>
    rw [follow]
    cases hs : g.step step with
    | ok h => exact ih
    | error e' =>
      rintro ⟨⟩
      exact step_ne_grammar step hs

end

/-! ## Compilation -/

/-- Token lists whose kinds are derivable from `class`. -/
def Derivable (tokens : List Token) : Prop :=
  ∃ c : ClassDeclaration, c.kinds = tokens.map (·.kind)

/-- Compilation succeeds when the generator gets through the steps and the walk has no error. -/
theorem compile_result_eq_ok {strict record : Bool} {tokens : List Token} {r : CompiledClass} :
    (compile strict record tokens).result = .ok r ↔
      (readClass tokens).error? = none ∧
        ∃ h, Generator.follow { strict } (readClass tokens).steps = .ok h ∧ h.compiled = r := by
  simp only [compile, Generator.run_eq_follow]
  rcases Generator.follow { strict } (readClass tokens).steps with e | h <;>
    rcases (readClass tokens).error? with _ | e' <;> simp [Generator.compiled]

/-- Tokens that spell a class are read as it without an error. -/
theorem readClass_of_kinds {c : ClassDeclaration} {tokens : List Token} (hk : c.kinds = tokens.map (·.kind)) :
    (readClass tokens).steps.map (Step.relocate fun _ => .nowhere) = c.steps ∧ (readClass tokens).error? = none := by
  have ht := readClass_tree c
  rw [hk, readClass_unplaced, Reading.relocate, Reading.mk.injEq, Option.map_eq_none_iff] at ht
  exact ht

/-- Tokens that spell a class are compiled exactly when the class is valid, and then to what the rules make of it. -/
theorem compile_kinds_eq_ok_iff {strict record : Bool} {tokens : List Token} {c : ClassDeclaration} {r : CompiledClass}
    (hk : c.kinds = tokens.map (·.kind)) :
    (compile strict record tokens).result = .ok r ↔ c.Valid strict ∧ r = c.compiled := by
  obtain ⟨hs, he⟩ := readClass_of_kinds hk
  obtain ⟨h, hreach, hc⟩ := c.exists_reaches strict
  simp only [compile_result_eq_ok, ← Generator.follow_relocate (f := fun _ => .nowhere) (readClass tokens).steps, hs]
  constructor
  · rintro ⟨-, h', hf, rfl⟩
    obtain ⟨hv, rfl⟩ := (hreach h').mp hf
    exact ⟨hv, hc⟩
  · rintro ⟨hv, rfl⟩
    exact ⟨he, h, (hreach h).mpr ⟨hv, rfl⟩, hc⟩

/-- Compilation accepts exactly the token lists that spell a valid class, and makes of it what the rules make. -/
theorem compile_eq_ok_iff {strict record : Bool} {tokens : List Token} {r : CompiledClass} :
    (compile strict record tokens).result = .ok r ↔
      ∃ c : ClassDeclaration, c.kinds = tokens.map (·.kind) ∧ c.Valid strict ∧ r = c.compiled := by
  constructor
  · intro h
    have he : (readClass (unplaced (tokens.map (·.kind)))).error? = none := by
      rw [readClass_unplaced, Reading.relocate, (compile_result_eq_ok.mp h).1]
      rfl
    obtain ⟨c, hk, -⟩ := exists_tree_of_readClass he
    exact ⟨c, hk.symm, (compile_kinds_eq_ok_iff hk.symm).mp h⟩
  · rintro ⟨c, hk, h⟩
    exact (compile_kinds_eq_ok_iff hk).mpr h

/-- Tokens that spell a class meet no error in their order. -/
theorem compile_ne_grammar {strict record : Bool} {tokens : List Token} (hd : Derivable tokens) (e : GrammarError) :
    (compile strict record tokens).result ≠ .error (.grammar e) := by
  obtain ⟨c, hk⟩ := hd
  simp only [compile, Generator.run_eq_follow, (readClass_of_kinds hk).2]
  cases hf : Generator.follow { strict } (readClass tokens).steps with
  | error e' =>
    rintro ⟨⟩
    exact Generator.follow_ne_grammar _ hf
  | ok h => simp

/-- A valid class is compiled to what the rules make of it: its name, its variables, and the code of its subroutines. -/
theorem compile_valid_class (c : ClassDeclaration) (record : Bool) (tokens : List Token)
    (hk : tokens.map (·.kind) = c.kinds) (hv : c.Valid false) :
    (compile false record tokens).result = .ok ⟨c.name, c.symbols, c.code⟩ :=
  (compile_kinds_eq_ok_iff hk.symm).mpr ⟨hv, rfl⟩

/-- A method that adds the field of its object as often as its argument says. -/
def sampleMethod : Subroutine where
  kind := .method
  resultType := some .int
  name := "times"
  parameters := [⟨.int, "n"⟩]
  locals := [⟨.int, "s", []⟩]
  body :=
    [.while (.binary (.term (.variable "n")) .greater (.integer 0))
      [.let "s" (.binary (.term (.variable "s")) .add (.variable "x")),
        .let "n" (.binary (.term (.variable "n")) .subtract (.integer 1))],
      .return (some (.term (.variable "s")))]

/-- A class with a field and the method. -/
def sampleClass : ClassDeclaration where
  name := "Sum"
  declarations := [⟨.field, .int, "x", []⟩]
  subroutines := [sampleMethod]

theorem compile_sampleClass :
    sampleClass.Valid false ∧
      (compile false false (unplaced sampleClass.kinds)).result =
        .ok ⟨"Sum", [⟨"x", "int", .field, 0⟩],
          [.function "Sum.times" 1, .push .argument 0, .pop .pointer 0, .label "WHILE_TOP_0", .push .argument 1,
            .push .constant 0, .arithmetic .gt, .arithmetic .not, .ifGoto "WHILE_END_1", .push .«local» 0,
            .push .this 0, .arithmetic .add, .pop .«local» 0, .push .argument 1, .push .constant 1, .arithmetic .sub,
            .pop .argument 1, .goto "WHILE_TOP_0", .label "WHILE_END_1", .push .«local» 0, .«return»]⟩ := by
  have hv : sampleClass.Valid false := by decide +kernel
  refine ⟨hv, (compile_valid_class sampleClass false _ ?_ hv).trans ?_⟩
  · decide +kernel
  · decide +kernel

/-- Compilation accepts exactly the valid classes. What is derivable never meets an error in the order of tokens, and
what is not is never compiled. -/
theorem compile_accepts_iff (strict record : Bool) (tokens : List Token) :
    ((∃ r, (compile strict record tokens).result = .ok r) ↔
      ∃ c : ClassDeclaration, c.kinds = tokens.map (·.kind) ∧ c.Valid strict) ∧
    (Derivable tokens → ∀ e, (compile strict record tokens).result = .error e → e.category ≠ "parse") ∧
    (¬Derivable tokens → ∀ r, (compile strict record tokens).result ≠ .ok r) := by
  refine ⟨?_, ?_, ?_⟩
  · constructor
    · rintro ⟨r, h⟩
      obtain ⟨c, hk, hv, -⟩ := compile_eq_ok_iff.mp h
      exact ⟨c, hk, hv⟩
    · rintro ⟨c, hk, hv⟩
      exact ⟨c.compiled, compile_eq_ok_iff.mpr ⟨c, hk, hv, rfl⟩⟩
  · intro hd e h hc
    cases e with
    | grammar cause => exact compile_ne_grammar hd cause h
    | lex | name | file => simp [Error.category] at hc
  · intro hd r h
    obtain ⟨c, hk, -⟩ := compile_eq_ok_iff.mp h
    exact hd ⟨c, hk⟩

end JackCompiler
