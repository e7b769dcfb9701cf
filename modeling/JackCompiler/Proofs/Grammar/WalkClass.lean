import JackCompiler.Proofs.Grammar.WalkStatement

/-!
# Classes are walked through

Declarations, subroutines and the class around them take exactly the tokens of their trees. The main statement is
`readClass_tree`: the tokens of the tree of a class are read as its steps, without an error.
-/

namespace JackCompiler

variable {last : Position} {goals : List Goal} {rest : List Token} {steps : Array Step}

/-! ## Names of variables -/

@[simp] theorem typeName?_kind (type : TypeName) : Goal.typeName? type.kind = some type.name := by
  cases type <;> rfl

theorem typedNames_move (kind : VariableKind) (type : TypeName) (p : Position) :
    (Goal.typedNames kind).move (some ⟨type.kind, p⟩) = .take [.names kind type.name] := by
  simp [Goal.move, Goal.takeType]

theorem parameter_move (type : TypeName) (p : Position) :
    Goal.parameter.move (some ⟨type.kind, p⟩) = .take [.parameterName type.name] := by
  simp [Goal.move, Goal.takeType]

/-- Names after commas are walked through up to the semicolon. -/
theorem walk_moreNames (kind : VariableKind) (type : String) (names : List String) {p : Position} {steps : Array Step} :
    walkFrom last (.moreNames kind type :: goals) (unplaced (moreNameKinds names) ++ ⟨.symbol ';', p⟩ :: rest) steps =
      walkFrom last goals (⟨.symbol ';', p⟩ :: rest) (steps ++ declareSteps kind type names) := by
  induction names generalizing steps with
  | nil =>
    simp only [moreNameKinds, List.flatMap_nil, unplaced_nil, List.nil_append]
    rw [walkFrom_of_expand rfl]
    simp [declareSteps]
  | cons name names ih =>
    simp only [moreNameKinds, List.flatMap_cons, unplaced_cons, List.cons_append, List.nil_append] at ih ⊢
    rw [walkFrom_of_take rfl, List.singleton_append, walkFrom_of_take rfl]
    simp only [List.cons_append, List.nil_append, walkFrom_emit]
    rw [ih]
    simp [declareSteps]

/-- A type and its names are walked through up to the semicolon. -/
theorem NamesOfType.walk (kind : VariableKind) (d : NamesOfType) {p : Position} :
    walkFrom last (.typedNames kind :: goals) (unplaced d.kinds ++ ⟨.symbol ';', p⟩ :: rest) steps =
      walkFrom last goals (⟨.symbol ';', p⟩ :: rest) (steps ++ d.steps kind) := by
  simp only [NamesOfType.kinds, unplaced_cons, List.cons_append]
  rw [walkFrom_of_take (typedNames_move kind d.type _), List.singleton_append, walkFrom_of_take rfl]
  simp only [List.cons_append, List.nil_append, walkFrom_emit]
  rw [walk_moreNames]
  simp [NamesOfType.steps, NamesOfType.names, declareSteps]

/-! ## Parts that repeat -/

/-- Parts of one form are walked through one after another when each of them leads back to their goal. -/
theorem walk_flatMap {α : Type} {goal : Goal} {kinds : α → List TokenKind} {parts : α → List Step}
    (h : ∀ (a : α) (rest : List Token) (steps : Array Step),
      walkFrom last (goal :: goals) (unplaced (kinds a) ++ rest) steps =
        walkFrom last (goal :: goals) rest (steps ++ parts a)) (as : List α) {steps : Array Step} :
    walkFrom last (goal :: goals) (unplaced (as.flatMap kinds) ++ rest) steps =
      walkFrom last (goal :: goals) rest (steps ++ as.flatMap parts) := by
  induction as generalizing steps with
  | nil => simp
  | cons a as ih =>
    simp only [List.flatMap_cons, unplaced_append, List.append_assoc]
    rw [h, ih]
    simp

/-- A declaration of variables of the class is walked through. -/
theorem ClassVariables.walk (d : ClassVariables) (rest : List Token) (steps : Array Step) :
    walkFrom last (.classVariables :: goals) (unplaced d.kinds ++ rest) steps =
      walkFrom last (.classVariables :: goals) rest (steps ++ d.steps) := by
  have hm (p : Position) : Goal.classVariables.move (some ⟨.keyword d.kind.keyword, p⟩) =
      .take (Goal.within .classVarDec [.typedNames d.kind.kind, .symbol ';'] ++ [.classVariables]) := by
    cases d.kind <;> rfl
  simp only [ClassVariables.kinds, unplaced_cons, unplaced_append, unplaced_nil, List.append_assoc, List.cons_append,
    List.nil_append]
  rw [walkFrom_of_take (hm _)]
  simp only [List.append_assoc, walkFrom_within, List.cons_append, List.nil_append]
  rw [NamesOfType.walk]
  simp [ClassVariables.steps, during]

/-- A declaration of locals is walked through. -/
theorem walk_locals (d : NamesOfType) (rest : List Token) (steps : Array Step) :
    walkFrom last (.locals :: goals) (unplaced (localKinds d) ++ rest) steps =
      walkFrom last (.locals :: goals) rest (steps ++ localSteps d) := by
  simp only [localKinds, unplaced_cons, unplaced_append, unplaced_nil, List.append_assoc, List.cons_append,
    List.nil_append]
  rw [walkFrom_of_take rfl]
  simp only [List.append_assoc, walkFrom_within, List.cons_append, List.nil_append]
  rw [NamesOfType.walk]
  simp [localSteps, during]

/-! ## Parameters -/

/-- Parameters after commas are walked through up to the parenthesis. -/
theorem walk_moreParameters (ps : List Parameter) {p : Position} {steps : Array Step} :
    walkFrom last (.moreParameters :: goals) (unplaced (Parameter.moreKinds ps) ++ ⟨.symbol ')', p⟩ :: rest) steps =
      walkFrom last goals (⟨.symbol ')', p⟩ :: rest) (steps ++ ps.map Parameter.step) := by
  induction ps generalizing steps with
  | nil =>
    simp only [Parameter.moreKinds, List.flatMap_nil, unplaced_nil, List.nil_append]
    rw [walkFrom_of_expand rfl]
    simp
  | cons parameter ps ih =>
    simp only [Parameter.moreKinds, Parameter.kinds, List.flatMap_cons, unplaced_cons, List.cons_append,
      List.nil_append] at ih ⊢
    rw [walkFrom_of_take rfl, List.singleton_append, walkFrom_of_take (parameter_move parameter.type _),
      List.singleton_append, walkFrom_of_take rfl]
    simp only [List.cons_append, List.nil_append, walkFrom_emit]
    rw [ih]
    simp [Parameter.step]

/-- The parameters of a subroutine are walked through up to the parenthesis. -/
theorem walk_parameters (ps : List Parameter) {p : Position} :
    walkFrom last (.parameters :: goals) (unplaced (Parameter.listKinds ps) ++ ⟨.symbol ')', p⟩ :: rest) steps =
      walkFrom last goals (⟨.symbol ')', p⟩ :: rest) (steps ++ ps.map Parameter.step) := by
  cases ps with
  | nil =>
    rw [Parameter.listKinds, unplaced_nil, List.nil_append, walkFrom_of_expand rfl]
    simp
  | cons parameter ps =>
    have hm : Goal.parameters.move (some ⟨parameter.type.kind, .nowhere⟩) = .expand [.parameter] := by
      cases parameter.type <;> rfl
    simp only [Parameter.listKinds, Parameter.kinds, unplaced_cons, List.cons_append, List.nil_append]
    rw [walkFrom_of_expand hm, List.singleton_append, walkFrom_of_take (parameter_move parameter.type _),
      List.singleton_append, walkFrom_of_take rfl]
    simp only [List.cons_append, List.nil_append, walkFrom_emit]
    rw [walk_moreParameters]
    simp [Parameter.step]

/-! ## Subroutines and classes -/

/-- The declarations of locals end where the statements begin. -/
theorem walkFrom_locals_end (ss : List Statement) {p : Position} :
    walkFrom last (.locals :: goals) (unplaced (blockKinds ss) ++ ⟨.symbol '\x7d', p⟩ :: rest) steps =
      walkFrom last goals (unplaced (blockKinds ss) ++ ⟨.symbol '\x7d', p⟩ :: rest) steps := by
  have hm : Goal.locals.move (unplaced (blockKinds ss) ++ ⟨.symbol '\x7d', p⟩ :: rest).head? = .expand [] := by
    cases ss with
    | nil => rfl
    | cons s ss => cases s <;> rfl
  rw [walkFrom_of_expand hm, List.nil_append]

/-- A subroutine is walked through from its name on. -/
theorem Subroutine.walk_fromName (s : Subroutine) :
    walkFrom last (.subroutine s.kind :: goals) (unplaced s.kindsFromName ++ rest) steps =
      walkFrom last goals rest (steps ++ s.stepsFromName) := by
  simp only [Subroutine.kindsFromName, braced, unplaced_cons, unplaced_append, unplaced_nil, List.append_assoc,
    List.cons_append, List.nil_append]
  rw [walkFrom_of_take rfl]
  simp only [List.append_assoc, List.cons_append, List.nil_append, walkFrom_emit, walkFrom_symbol, walkFrom_within]
  rw [walk_parameters]
  simp only [walkFrom_emit, walkFrom_symbol, walkFrom_within, List.append_assoc, List.cons_append, List.nil_append]
  rw [walk_flatMap walk_locals, walkFrom_locals_end, walkFrom_emit, walkFrom_within]
  simp only [List.cons_append, List.nil_append]
  rw [walk_statements s.body]
  simp [Subroutine.stepsFromName, during]

/-- A subroutine is walked through. -/
theorem Subroutine.walk (s : Subroutine) (rest : List Token) (steps : Array Step) :
    walkFrom last (.subroutines :: goals) (unplaced s.kinds ++ rest) steps =
      walkFrom last (.subroutines :: goals) rest (steps ++ s.steps) := by
  have hm (p : Position) : Goal.subroutines.move (some ⟨.keyword s.kind.keyword, p⟩) =
      .take (Goal.within .subroutineDec [.resultType, .subroutine s.kind] ++ [.subroutines]) := by
    cases s.kind <;> rfl
  have hr (p : Position) :
      Goal.resultType.move (some ⟨s.resultType.elim (.keyword .void) TypeName.kind, p⟩) = .take [] := by
    rcases s.resultType with - | type
    · rfl
    · cases type <;> rfl
  simp only [Subroutine.kinds, unplaced_cons, List.cons_append]
  rw [walkFrom_of_take (hm _)]
  simp only [List.append_assoc, walkFrom_within, List.cons_append, List.nil_append]
  rw [walkFrom_of_take (hr _), List.nil_append, s.walk_fromName]
  simp [Subroutine.steps, during]

/-- The declarations of class variables end where the subroutines begin. -/
theorem walkFrom_classVariables_end (ss : List Subroutine) {p : Position} :
    walkFrom last (.classVariables :: goals)
        (unplaced (ss.flatMap Subroutine.kinds) ++ ⟨.symbol '\x7d', p⟩ :: rest) steps =
      walkFrom last goals (unplaced (ss.flatMap Subroutine.kinds) ++ ⟨.symbol '\x7d', p⟩ :: rest) steps := by
  have hm : Goal.classVariables.move
      (unplaced (ss.flatMap Subroutine.kinds) ++ ⟨.symbol '\x7d', p⟩ :: rest).head? = .expand [] := by
    rcases ss with - | ⟨⟨kind⟩, ss⟩
    · rfl
    · cases kind <;> rfl
  rw [walkFrom_of_expand hm, List.nil_append]

/-- The goals of a class lead through the tokens of its tree and no further. -/
theorem ClassDeclaration.walk (c : ClassDeclaration) :
    walkFrom last Goal.ofClass (unplaced c.kinds ++ rest) steps = ⟨steps ++ c.steps, .ok rest⟩ := by
  have hg : Goal.ofClass = Goal.within .«class»
      [.classKeyword, .className, .symbol '\x7b', .classVariables, .subroutines, .symbol '\x7d'] ++ [] := by
    simp [Goal.ofClass]
  have he (steps : Array Step) (p : Position) :
      walkFrom last [.subroutines, .symbol '\x7d', .emit (.leave .«class»)] (⟨.symbol '\x7d', p⟩ :: rest) steps =
        ⟨steps.push (.leave .«class»), .ok rest⟩ := by
    rw [walkFrom_of_expand rfl, List.nil_append, walkFrom_symbol, walkFrom_emit, walkFrom_nil]
  simp only [ClassDeclaration.kinds, braced, unplaced_cons, unplaced_append, unplaced_nil, List.append_assoc,
    List.cons_append, List.nil_append]
  rw [hg, walkFrom_within]
  simp only [List.cons_append, List.nil_append]
  rw [walkFrom_of_take rfl, List.nil_append, walkFrom_of_take rfl, List.singleton_append, walkFrom_emit,
    walkFrom_symbol, walk_flatMap ClassVariables.walk, walkFrom_classVariables_end, walk_flatMap Subroutine.walk, he]
  simp [ClassDeclaration.steps, during]

/-- The tokens of the tree of a class are read as its steps. -/
theorem readClass_tree (c : ClassDeclaration) : readClass (unplaced c.kinds) = ⟨c.steps, none⟩ := by
  have hw : walkFrom (Token.endPosition (unplaced c.kinds)) Goal.ofClass (unplaced c.kinds ++ []) #[] =
      ⟨#[] ++ c.steps, .ok []⟩ := c.walk
  rw [List.append_nil] at hw
  simp [readClass, hw]

end JackCompiler
