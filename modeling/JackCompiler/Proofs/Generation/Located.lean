import JackCompiler.Proofs.Code.Constants
import JackCompiler.Proofs.Grammar.Viable
import JackCompiler.Proofs.Scanning.Places
import JackCompiler.Proofs.Scanning.RoundTrip

/-!
# Where errors stand

A walk hands on the places of the tokens it takes (`standsIn_of_walkFrom`), so a step that fails does so at a token
(`Generator.place_of_step`), and what the scanner and the walk have against a text stands in it as well. One error has no
place: that of a call that has as many arguments as can be counted and in addition works on an object
(`crowded_call_unplaced`). Main statement: `errors_are_located`.
-/

namespace JackCompiler

/-! ## Steps and the tokens that they speak of -/

/-- The place in a step is that of a token: of the name or the string that the step is about, or of some token. -/
def Step.StandsIn (tokens : List Token) : Step → Prop
  | .declare _ _ name p | .read name p | .use name p | .element name p | .elementAddress name p | .assign name p =>
    ⟨.identifier name, p⟩ ∈ tokens
  | .string body p => ⟨.string body, p⟩ ∈ tokens
  | .argument _ _ p => ∃ token ∈ tokens, p = some token.position
  | _ => True

/-- The place in a goal is that of the token with the name that the goal remembers. -/
def Goal.StandsIn (tokens : List Token) : Goal → Prop
  | .emit step => step.StandsIn tokens
  | .assignment name p | .reference name p => ⟨.identifier name, p⟩ ∈ tokens
  | _ => True

section

variable {tokens : List Token} {goal : Goal} {new : List Goal} {token : Token}

theorem standsIn_of_operand {goals : List Goal} (ht : token ∈ tokens)
    (h : Goal.operand? token.position token.kind = some goals) : ∀ g ∈ goals, g.StandsIn tokens := by
  obtain ⟨kind, p⟩ := token
  cases kind with
  | keyword word =>
    simp only [Goal.operand?, Option.map_eq_some_iff] at h
    obtain ⟨constant, -, rfl⟩ := h
    simp [Goal.StandsIn, Step.StandsIn]
  | symbol c =>
    simp only [Goal.operand?] at h
    repeat' split at h
    all_goals cases h <;> simp [Goal.StandsIn, Step.StandsIn]
  | _ =>
    cases h
    simp [Goal.StandsIn, Step.StandsIn, ht]

theorem standsIn_of_statement {kind : TokenKind} {goals : List Goal} (h : Goal.statement? kind = some goals) :
    ∀ g ∈ goals, g.StandsIn tokens := by
  unfold Goal.statement? at h
  split at h <;> cases h <;> simp [Goal.within, Goal.block, Goal.StandsIn, Step.StandsIn]

/-- A goal that takes a token remembers its place, or hands on what it remembers. -/
theorem standsIn_of_take (ht : token ∈ tokens) (hg : goal.StandsIn tokens) (h : goal.move (some token) = .take new) :
    ∀ g ∈ new, g.StandsIn tokens := by
  obtain ⟨kind, p⟩ := token
  cases goal with
  | emit | expression | term | argument => cases h
  | className | names | subroutine | parameterName | target | doCall | qualifiedCall =>
    obtain ⟨name, rfl, rfl⟩ := Goal.eq_of_takeName_take h
    simp [Goal.within, Goal.callOf, Goal.StandsIn, Step.StandsIn, ht]
  | typedNames | parameter =>
    obtain ⟨type, -, rfl⟩ := Goal.eq_of_takeType_take h
    simp [Goal.StandsIn]
  | moreNames | moreParameters | «call» | moreArguments =>
    obtain ⟨-, rfl⟩ := Goal.eq_of_takeOptional_take h
    simp [Goal.StandsIn]
  | assignment name q =>
    obtain ⟨-, rfl⟩ := Goal.eq_of_takeOptional_take h
    simpa [Goal.StandsIn, Step.StandsIn] using hg
  | statements =>
    simp only [Goal.move] at h
    split at h <;> cases h
    next hs =>
      rw [List.forall_mem_append, List.forall_mem_singleton]
      exact ⟨standsIn_of_statement hs, trivial⟩
  | operand =>
    simp only [Goal.move] at h
    split at h <;> cases h
    next hs => exact standsIn_of_operand ht hs
  | reference name q =>
    simp only [Goal.move] at h
    split at h
    · cases h
    · obtain ⟨-, rfl⟩ := Goal.eq_of_takeOptional_take h
      simpa [Goal.StandsIn, Step.StandsIn] using hg
  | _ =>
    simp only [Goal.move, Goal.takeType] at h
    (repeat' split at h) <;> cases h <;> simp [Goal.within, Goal.block, Goal.StandsIn, Step.StandsIn]

/-- A goal that is replaced hands on what it remembers. -/
theorem standsIn_of_expand {head : Option Token} (hg : goal.StandsIn tokens) (h : goal.move head = .expand new)
    (hn : ∀ callee count, goal ≠ .argument callee count) : ∀ g ∈ new, g.StandsIn tokens := by
  cases goal with
  | argument callee count => exact absurd rfl (hn callee count)
  | assignment name p =>
    obtain rfl := Goal.eq_of_takeOptional_expand h
    simpa [Goal.StandsIn, Step.StandsIn] using hg
  | reference name p =>
    simp only [Goal.move] at h
    split at h
    · cases h
      simp [Goal.StandsIn]
    · obtain rfl := Goal.eq_of_takeOptional_expand h
      simpa [Goal.StandsIn, Step.StandsIn] using hg
  | _ =>
    simp only [Goal.move, Goal.takeName, Goal.takeType, Goal.takeOptional] at h
    (repeat' split at h) <;> cases h <;>
      simp [Goal.within, Goal.callOf, Goal.endCall, Goal.StandsIn, Step.StandsIn]

end

/-- Where no token is left, an argument cannot be met, and the walk ends before it is counted. -/
theorem walkFrom_argument_nil {last : Position} {callee : Callee} {count : Nat} {goals : List Goal} {steps : Array Step} :
    walkFrom last (.argument callee count :: goals) [] steps =
      ⟨(steps.push (.enter .expression)).push (.enter .term), .error (.unexpectedEnd "term" last)⟩ := by
  rw [walkFrom_of_expand rfl]
  simp only [List.cons_append, List.nil_append, walkFrom_expression, walkFrom_term]
  exact walkFrom_of_fail rfl

/-- The steps of a walk stand in its tokens. -/
theorem standsIn_of_walkFrom {last : Position} {tokens rest : List Token} {goals : List Goal} {steps : Array Step}
    (hr : rest ⊆ tokens) (hg : ∀ goal ∈ goals, goal.StandsIn tokens) (hs : ∀ step ∈ steps.toList, step.StandsIn tokens) :
    ∀ step ∈ (walkFrom last goals rest steps).steps.toList, step.StandsIn tokens := by
  induction goals, rest, steps using walkFrom.induct with
  | case1 rest steps => rwa [walkFrom_nil]
  | case2 rest steps goal goals step hm ih =>
    obtain rfl := Goal.eq_emit_of_move hm
    obtain ⟨hstep, hg⟩ := List.forall_mem_cons.mp hg
    rw [walkFrom_emit]
    refine ih hr hg ?_
    rw [Array.toList_push, List.forall_mem_append, List.forall_mem_singleton]
    exact ⟨hs, hstep⟩
  | case3 rest steps goal goals new hm _ ih =>
    obtain ⟨hgoal, hg⟩ := List.forall_mem_cons.mp hg
    have later (hnew : ∀ goal ∈ new, goal.StandsIn tokens) :
        ∀ step ∈ (walkFrom last (goal :: goals) rest steps).steps.toList, step.StandsIn tokens := by
      rw [walkFrom_of_expand hm]
      exact ih hr (List.forall_mem_append.mpr ⟨hnew, hg⟩) hs
    by_cases hn : ∀ callee count, goal ≠ .argument callee count
    · exact later (standsIn_of_expand hgoal hm hn)
    · obtain ⟨callee, count, rfl⟩ : ∃ callee count, goal = .argument callee count := by simpa using hn
      cases rest with
      | nil =>
        rw [walkFrom_argument_nil]
        simp only [Array.toList_push, List.forall_mem_append, List.forall_mem_singleton]
        exact ⟨⟨hs, trivial⟩, trivial⟩
      | cons token rest =>
        cases hm
        refine later ?_
        simp only [List.forall_mem_cons, List.not_mem_nil, false_implies, implies_true, and_true]
        exact ⟨trivial, ⟨token, hr List.mem_cons_self, rfl⟩, trivial⟩
  | case4 rest steps goal goals new hm _ _ _ _ ih =>
    cases rest with
    | nil => exact absurd hm (goal.move_none_ne_take new)
    | cons token rest =>
      obtain ⟨hgoal, hg⟩ := List.forall_mem_cons.mp hg
      obtain ⟨htoken, hr⟩ := List.cons_subset.mp hr
      rw [walkFrom_of_take hm]
      exact ih hr (List.forall_mem_append.mpr ⟨standsIn_of_take htoken hgoal hm, hg⟩) hs
  | case5 rest steps goal goals expected hm => rwa [walkFrom_of_fail hm]

/-- The steps of tokens stand in the tokens. -/
theorem standsIn_of_readClass (tokens : List Token) : ∀ step ∈ (readClass tokens).steps, step.StandsIn tokens := by
  refine standsIn_of_walkFrom (List.Subset.refl _) ?_ fun _ h => nomatch h
  simp [Goal.ofClass, Goal.within, Goal.StandsIn, Step.StandsIn]

/-! ## Errors of steps -/

/-- An error stands at a token. -/
def Error.StandsAt (tokens : List Token) (e : Error) : Prop :=
  ∃ token ∈ tokens, e.position? = some token.position

namespace Generator

variable {g : Generator} {tokens : List Token} {e : Error}

/-- Code for a variable fails when there is none with the name. -/
theorem error_of_emitWith {name : String} {p : Position} {code : Variable → List Vm.Instruction}
    (h : g.emitWith name p code = .error e) : g.table.lookup? name = none ∧ e = .name (.undefined name (some p)) := by
  simp only [emitWith, variableAt, SymbolTable.resolve] at h
  cases hl : g.table.lookup? name <;> rw [hl] at h <;> cases h
  exact ⟨rfl, rfl⟩

/-- A declaration fails when the name is there already, or as many variables as can be counted. -/
theorem error_of_declare {kind : VariableKind} {type name : String} {p : Position}
    (h : g.declare kind type name p = .error e) :
    g.table.isDefinedInScope name kind = true ∧ e = .name (.redeclared name (some p)) ∨
      g.table.count kind = SymbolTable.maxCount ∧ e = .name (.tooMany (.variablesOf kind) name (some p)) := by
  unfold declare SymbolTable.define at h
  split at h
  · next hd =>
    cases h
    rw [Bool.and_eq_true] at hd
    exact .inl ⟨hd.2, rfl⟩
  · dsimp only at h
    split at h
    · cases h
    · next hd =>
      split at hd <;> cases hd
      next hc =>
      cases h
      exact .inr ⟨hc, rfl⟩

/-- A subroutine has an index left for the object that it is called on. -/
theorem beginSubroutine_ne_error (kind : SubroutineKind) : g.beginSubroutine kind ≠ .error e := by
  cases kind with
  | constructor | function => nofun
  | method => nofun

theorem place_of_stringCode {body : String} {p : Position} {cause : LexError} (h : stringCode body p = .error cause) :
    cause.position = p := by
  unfold stringCode at h
  split at h
  · cases h
    rfl
  · split at h <;> cases h
    rfl

/-- The object that a call works on is one argument, if it works on one. -/
theorem receiverCode_length (g : Generator) (callee : Callee) :
    g.receiverCode callee = [] ∨ (g.receiverCode callee).length = 1 := by
  cases callee with
  | own => exact .inr rfl
  | qualified qualifier subroutine =>
    rw [receiverCode]
    cases g.table.lookup? qualifier with
    | none => exact .inl rfl
    | some v => exact .inr rfl

/-- Any other step that fails does so at a token; a call does so, without a place, when it has as many arguments as can
be counted and works on an object besides. -/
theorem place_of_step {step : Step} (hs : step.StandsIn tokens) (h : g.step step = .error e) :
    e.StandsAt tokens ∨ ∃ callee n, step = .call callee n ∧ maxArguments ≤ n ∧
      e = .name (.tooMany .arguments (g.target callee) none) := by
  cases step with
  | declare =>
    rcases error_of_declare h with ⟨-, rfl⟩ | ⟨-, rfl⟩
    · exact .inl ⟨_, hs, rfl⟩
    · exact .inl ⟨_, hs, rfl⟩
  | beginSubroutine kind => exact absurd h (beginSubroutine_ne_error kind)
  | string body p =>
    simp only [Generator.step] at h
    split at h <;> cases h
    next hc => exact .inl ⟨_, hs, congrArg some (place_of_stringCode hc)⟩
  | read | use | element | elementAddress | assign =>
    obtain ⟨-, rfl⟩ := error_of_emitWith h
    exact .inl ⟨_, hs, rfl⟩
  | argument callee number p =>
    simp only [Generator.step] at h
    split at h <;> cases h
    obtain ⟨token, ht, rfl⟩ := hs
    exact .inl ⟨token, ht, rfl⟩
  | «call» callee n =>
    simp only [Generator.step] at h
    split at h <;> cases h
    next hn =>
      have few : (g.receiverCode callee).length ≤ 1 := by
        rcases receiverCode_length g callee with none | one
        · rw [none]
          exact Nat.zero_le 1
        · exact Nat.le_of_eq one
      exact .inr ⟨callee, n, rfl, by omega, rfl⟩
  | _ => cases h

theorem follow_append_of_ok {h : Generator} {steps others : List Step} (hs : g.follow steps = .ok h) :
    g.follow (steps ++ others) = h.follow others := by
  induction steps generalizing g with
  | nil =>
    cases hs
    rfl
  | cons step steps ih =>
    obtain ⟨g', hstep, hrest⟩ := follow_cons.mp hs
    rw [List.cons_append, follow, hstep]
    exact ih hrest

/-- A run that fails comes to a step that does. -/
theorem exists_stop_of_follow {steps : List Step} (hf : g.follow steps = .error e) :
    ∃ before step later h, steps = before ++ step :: later ∧ g.follow before = .ok h ∧ h.step step = .error e := by
  induction steps generalizing g with
  | nil => cases hf
  | cons step steps ih =>
    rw [follow] at hf
    split at hf
    · next g' hs =>
      obtain ⟨before, stop, later, h, rfl, hb, he⟩ := ih hf
      refine ⟨step :: before, stop, later, h, rfl, ?_, he⟩
      rw [follow, hs]
      exact hb
    · next hs =>
      cases hf
      exact ⟨[], step, steps, g, rfl, rfl, hs⟩

end Generator

/-! ## Errors of classes -/

/-- Going through the steps of tokens, a generator comes to a step. -/
def ComesTo (strict : Bool) (tokens : List Token) (g : Generator) (step : Step) : Prop :=
  ∃ before later, (readClass tokens).steps = before ++ step :: later ∧ Generator.follow { strict } before = .ok g

section

variable {strict record : Bool} {tokens : List Token} {e : Error}

/-- What a generator comes to is a step of the tokens. -/
theorem ComesTo.mem {g : Generator} {step : Step} (h : ComesTo strict tokens g step) : step ∈ (readClass tokens).steps := by
  obtain ⟨before, later, hs, -⟩ := h
  rw [hs]
  exact List.mem_append_right before List.mem_cons_self

/-- A compilation fails at a step that a generator comes to, or else in the order of the tokens. -/
theorem cause_of_compile (h : (compile strict record tokens).result = .error e) :
    (∃ g step, ComesTo strict tokens g step ∧ g.step step = .error e) ∨
      ∃ cause, (readClass tokens).error? = some cause ∧ e = .grammar cause := by
  simp only [compile, Generator.run_eq_follow] at h
  cases hf : Generator.follow { strict } (readClass tokens).steps with
  | error e' =>
    rw [hf] at h
    cases h
    obtain ⟨before, step, later, g, hs, hb, he⟩ := Generator.exists_stop_of_follow hf
    exact .inl ⟨g, step, ⟨before, later, hs, hb⟩, he⟩
  | ok g =>
    rw [hf] at h
    cases he : (readClass tokens).error? <;> rw [he] at h <;> cases h
    exact .inr ⟨_, rfl, rfl⟩

/-- An error in the order of tokens stands at a token, or nowhere when there is none. -/
theorem place_of_readClass {cause : GrammarError} (h : (readClass tokens).error? = some cause) :
    (Error.grammar cause).StandsAt tokens ∨ tokens = [] ∧ cause.position = .nowhere := by
  cases cause with
  | trailingToken found =>
    obtain ⟨used, rest, rfl, -⟩ := exists_derivable_of_trailing h
    exact .inl ⟨found, List.mem_append_right used List.mem_cons_self, rfl⟩
  | unexpectedToken expected found =>
    obtain ⟨used, rest, expected', rfl, he, -⟩ := stopsAfter_of_readClass h (by rintro _ ⟨⟩)
    cases rest with
    | nil => cases he
    | cons token rest =>
      cases he
      exact .inl ⟨found, List.mem_append_right used List.mem_cons_self, rfl⟩
  | unexpectedEnd expected last =>
    obtain ⟨used, rest, expected', rfl, he, -⟩ := stopsAfter_of_readClass h (by rintro _ ⟨⟩)
    cases rest with
    | cons token rest => cases he
    | nil =>
      cases he
      rw [List.append_nil]
      rcases List.eq_nil_or_concat used with rfl | ⟨others, token, rfl⟩
      · exact .inr ⟨rfl, rfl⟩
      · exact .inl ⟨token, by simp, by simp [Error.position?, GrammarError.position, Token.endPosition]⟩

/-- An error of compilation stands at a token, or nowhere when there is none, or it is that of a crowded call. -/
theorem place_of_compile (h : (compile strict record tokens).result = .error e) :
    e.StandsAt tokens ∨ tokens = [] ∧ e.position? = some .nowhere ∨
      ∃ callee n name, .call callee n ∈ (readClass tokens).steps ∧ maxArguments ≤ n ∧
        e = .name (.tooMany .arguments name none) := by
  rcases cause_of_compile h with ⟨g, step, comes, hs⟩ | ⟨cause, hc, rfl⟩
  · rcases Generator.place_of_step (standsIn_of_readClass tokens step comes.mem) hs with at' | ⟨callee, n, rfl, hn, he⟩
    · exact .inl at'
    · exact .inr (.inr ⟨callee, n, _, comes.mem, hn, he⟩)
  · rcases place_of_readClass hc with at' | ⟨rfl, hp⟩
    · exact .inl at'
    · exact .inr (.inl ⟨rfl, congrArg some hp⟩)

end

/-! ## Main statement -/

/-- An error of scanning and compiling a text stands at a character of it, or nowhere when the text has no token. Only one
error has no place: that of a call that is written with as many arguments as can be counted, or more, and works on an
object besides. -/
theorem errors_are_located {strict : Bool} {text : String} {e : Error} (h : compileText strict text = .error e) :
    (∃ p, e.position? = some p ∧ (p.IsIn text.toList ∨ p = ⟨0, 0⟩ ∧ scan text = .ok [])) ∨
      ∃ tokens callee n name, scan text = .ok tokens ∧ .call callee n ∈ (readClass tokens).steps ∧ maxArguments ≤ n ∧
        e = .name (.tooMany .arguments name none) := by
  have places := scan_places text
  unfold compileText at h
  split at h
  · next tokens hscan =>
    rw [hscan] at places
    rcases place_of_compile h with ⟨token, ht, hp⟩ | ⟨rfl, hp⟩ | ⟨callee, n, name, hm, hn, he⟩
    · exact .inl ⟨_, hp, .inl (places token ht)⟩
    · exact .inl ⟨_, hp, .inr ⟨rfl, hscan⟩⟩
    · exact .inr ⟨tokens, callee, n, name, hscan, hm, hn, he⟩
  · next cause hscan =>
    cases h
    rw [hscan] at places
    exact .inl ⟨_, rfl, .inl places⟩

/-- A name that is not declared is found where it stands in the second row, and a text without a token has no place. -/
theorem errors_are_located_samples :
    (compileText false "class A \x7b function int f() \x7b\n  return x; \x7d \x7d" = .error (.name (.undefined "x" (some ⟨2, 10⟩))) ∧
      Position.IsIn "class A \x7b function int f() \x7b\n  return x; \x7d \x7d".toList ⟨2, 10⟩) ∧
    compileText false " // nothing" = .error (.grammar (.unexpectedEnd "keyword `class`" ⟨0, 0⟩)) ∧
      scan " // nothing" = .ok [] := by
  have undefined : compileText false "class A \x7b function int f() \x7b\n  return x; \x7d \x7d" =
      .error (.name (.undefined "x" (some ⟨2, 10⟩))) := by decide +kernel
  have nothing : compileText false " // nothing" = .error (.grammar (.unexpectedEnd "keyword `class`" ⟨0, 0⟩)) := by
    decide +kernel
  refine ⟨⟨undefined, ?_⟩, nothing, ?_⟩
  · rcases errors_are_located undefined with ⟨p, hp, isIn | ⟨rfl, -⟩⟩ | ⟨_, _, _, _, -, -, -, he⟩
    · cases hp
      exact isIn
    · cases hp
    · cases he
  · rcases errors_are_located nothing with ⟨p, hp, ⟨before, c, after, -, rfl⟩ | ⟨-, none⟩⟩ | ⟨_, _, _, _, -, -, -, he⟩
    · have row := congrArg Position.row (Option.some.inj hp)
      simp [GrammarError.position, Position.behind] at row
      omega
    · exact none
    · cases he

/-! ## A crowded call -/

/-- A function that calls a method of its class with `n` arguments. -/
def crowdedFunction (n : Nat) : Subroutine where
  kind := .function
  resultType := none
  name := "main"
  parameters := []
  locals := []
  body := [.do (.own "run") (List.replicate n (.term (.integer 0))), .return none]

def crowdedClass (n : Nat) : ClassDeclaration where
  name := "Main"
  declarations := []
  subroutines := [crowdedFunction n]

/-- The tokens of the class, those of the arguments after the first apart from the others. -/
theorem crowdedClass_kinds (n : Nat) :
    (crowdedClass (n + 1)).kinds =
      [.keyword .«class», .identifier "Main", .symbol '\x7b', .keyword .function, .keyword .void, .identifier "main",
        .symbol '(', .symbol ')', .symbol '\x7b', .keyword .«do», .identifier "run", .symbol '(', .integer 0] ++
        moreArgumentKinds (List.replicate n (.term (.integer 0))) ++
        [.symbol ')', .symbol ';', .keyword .«return», .symbol ';', .symbol '\x7d', .symbol '\x7d'] := by
  simp [ClassDeclaration.kinds, crowdedClass, crowdedFunction, Subroutine.kinds, Subroutine.kindsFromName, braced,
    Parameter.listKinds, blockKinds, Statement.kinds, callKinds, Callee.kinds, argumentKinds, List.replicate_succ,
    Expression.kinds, Term.kinds, SubroutineKind.keyword]

theorem mem_moreArgumentKinds_replicate {n : Nat} {kind : TokenKind}
    (h : kind ∈ moreArgumentKinds (List.replicate n (.term (.integer 0)))) : kind = .symbol ',' ∨ kind = .integer 0 := by
  induction n with
  | zero => cases h
  | succ n ih =>
    rw [List.replicate_succ, moreArgumentKinds, List.cons_append, List.mem_cons, Expression.kinds, Term.kinds,
      List.singleton_append, List.mem_cons] at h
    rcases h with h | h | h
    · exact .inl h
    · exact .inr h
    · exact ih h

theorem crowdedClass_writable (n : Nat) : ∀ kind ∈ (crowdedClass (n + 1)).kinds, kind.Writable := by
  have main' : (TokenKind.identifier "Main").Writable := writable_identifier rfl rfl rfl rfl
  have main : (TokenKind.identifier "main").Writable := writable_identifier rfl rfl rfl rfl
  have run : (TokenKind.identifier "run").Writable := writable_identifier rfl rfl rfl rfl
  have zero : (TokenKind.integer 0).Writable := writable_integer (by decide)
  have symbol {c : Char} (hc : symbolChars.contains c = true := by rfl) : (TokenKind.symbol c).Writable :=
    writable_symbol (List.contains_iff_mem.mp hc)
  rw [crowdedClass_kinds]
  refine List.forall_mem_append.mpr ⟨List.forall_mem_append.mpr ⟨?_, fun kind hk => ?_⟩, ?_⟩
  · simp only [List.forall_mem_cons, List.not_mem_nil, false_implies, implies_true, and_true]
    exact ⟨writable_keyword _, main', symbol, writable_keyword _, writable_keyword _, main, symbol, symbol, symbol,
      writable_keyword _, run, symbol, zero⟩
  · rcases mem_moreArgumentKinds_replicate hk with rfl | rfl
    · exact symbol
    · exact zero
  · simp only [List.forall_mem_cons, List.not_mem_nil, false_implies, implies_true, and_true]
    exact ⟨symbol, symbol, writable_keyword _, symbol, symbol, symbol⟩

/-- The steps of the class up to the arguments. -/
def crowdedHead : List Step :=
  [.enter .«class», .className "Main", .enter .subroutineDec, .beginSubroutine .function, .enter .parameterList,
    .leave .parameterList, .enter .subroutineBody, .beginBody .function "main", .enter .statements, .enter .doStatement,
    .receiver (.own "run"), .enter .expressionList]

theorem crowdedClass_steps (n : Nat) :
    ∃ later, (crowdedClass n).steps =
      crowdedHead ++ argumentSteps (.own "run") 0 (List.replicate n (.term (.integer 0))) ++
        [.leave .expressionList] ++ .call (.own "run") n :: later := by
  simp [ClassDeclaration.steps, crowdedClass, crowdedFunction, Subroutine.steps, Subroutine.stepsFromName, during,
    blockSteps, Statement.steps, callSteps, crowdedHead]

theorem argumentDemands_replicate (n : Nat) : argumentDemands (List.replicate n (.term (.integer 0))) = [] := by
  induction n with
  | zero => rfl
  | succ n ih =>
    rw [List.replicate_succ, argumentDemands, ih]
    rfl

/-- A generator gets through the arguments of the call, as many as can be counted, and not through the call itself. -/
theorem crowded_call_fails (strict : Bool) :
    ∃ g : Generator, Generator.follow { strict } (crowdedHead ++
        argumentSteps (.own "run") 0 (List.replicate 65535 (.term (.integer 0))) ++ [.leave .expressionList]) = .ok g ∧
      g.step (.call (.own "run") 65535) = .error (.name (.tooMany .arguments "Main.run" none)) := by
  obtain ⟨g, hg, hn, ht⟩ : ∃ g : Generator, Generator.follow { strict } crowdedHead = .ok g ∧ g.className = "Main" ∧
      g.table = tableOf [] [] := ⟨_, rfl, rfl, rfl⟩
  have sees : g.Sees (Context.ofDeclarations "Main" [] []) := by
    refine ⟨hn, fun name => ?_⟩
    rw [ht]
    exact lookup?_tableOf [] [] name
  have counted := writes_arguments (.own "run") 0 (List.replicate 65535 (.term (.integer 0))) g sees
  rw [argumentDemands_replicate, List.length_replicate] at counted
  have through := (counted _).mpr ⟨⟨meets_nil, .inr (Nat.le_refl _)⟩, rfl⟩
  refine ⟨g.emit (argumentCode (.ofDeclarations "Main" [] []) (List.replicate 65535 (.term (.integer 0)))), ?_, ?_⟩
  · rw [List.append_assoc, Generator.follow_append_of_ok hg, Generator.follow_append_of_ok through]
    rfl
  · simp only [Generator.step, Generator.emit, Generator.receiverCode, Generator.target, hn]
    rfl

/-- Where steps without their places lead to a call that fails, so do the steps. -/
theorem follow_of_relocate {f : Position → Position} {g h : Generator} {steps before later : List Step} {callee : Callee}
    {n : Nat} {e : Error} (hs : steps.map (Step.relocate f) = before ++ .call callee n :: later)
    (hb : g.follow before = .ok h) (he : h.step (.call callee n) = .error e) : g.follow steps = .error e := by
  obtain ⟨first, others, rfl, rfl, ho⟩ := List.map_eq_append_iff.mp hs
  obtain ⟨step, others, rfl, hstep, -⟩ := List.map_eq_cons_iff.mp ho
  obtain rfl : step = .call callee n := by
    cases step <;> simp only [Step.relocate, reduceCtorEq] at hstep
    exact hstep
  rw [Generator.follow_relocate] at hb
  rw [Generator.follow_append_of_ok hb, Generator.follow, he]

/-- A call with as many arguments as can be counted, of a method of the same class, is an error without a place. -/
theorem crowded_call_unplaced :
    ¬∀ (strict : Bool) (text : String) (e : Error), compileText strict text = .error e →
      ∃ p, e.position? = some p ∧ (p.IsIn text.toList ∨ p = ⟨0, 0⟩ ∧ scan text = .ok []) := by
  intro located
  obtain ⟨tokens, hscan, hkinds⟩ := scan_written (crowdedClass_writable 65534)
  obtain ⟨later, hsteps⟩ := crowdedClass_steps 65535
  obtain ⟨g, hg, he⟩ := crowded_call_fails false
  have failed : compileText false (String.ofList (written (crowdedClass 65535).kinds)) =
      .error (.name (.tooMany .arguments "Main.run" none)) := by
    have run := follow_of_relocate ((readClass_of_kinds hkinds.symm).1.trans hsteps) hg he
    rw [compileText, hscan]
    simp only [compile, Generator.run_eq_follow, run]
  obtain ⟨p, hp, -⟩ := located _ _ _ failed
  cases hp

end JackCompiler
