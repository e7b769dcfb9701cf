import JackCompiler.Grammar.Walk

/-!
# Places do not decide anything

Tokens carry the places where they stand, and goals, steps and errors hand these places on. Here a function on places is
applied to all of them at once: a walk through moved tokens is the walk through the tokens, moved. What a list of tokens
is read as therefore depends on their kinds alone, and errors stand wherever the tokens put them.
-/

namespace JackCompiler

/-! ## Moving what has a place -/

/-- Moves a token. -/
def Token.relocate (f : Position → Position) (token : Token) : Token :=
  { token with position := f token.position }

/-- Moves the places that a step speaks of. -/
def Step.relocate (f : Position → Position) : Step → Step
  | .declare kind type name p => .declare kind type name (f p)
  | .string body p => .string body (f p)
  | .read name p => .read name (f p)
  | .use name p => .use name (f p)
  | .element name p => .element name (f p)
  | .elementAddress name p => .elementAddress name (f p)
  | .argument callee number p => .argument callee number (p.map f)
  | .assign name p => .assign name (f p)
  | step => step

/-- Moves the places that a goal remembers. -/
def Goal.relocate (f : Position → Position) : Goal → Goal
  | .emit step => .emit (step.relocate f)
  | .assignment name p => .assignment name (f p)
  | .reference name p => .reference name (f p)
  | goal => goal

/-- Moves the places in what a token makes of a goal. -/
def Move.relocate (f : Position → Position) : Move → Move
  | .emit step => .emit (step.relocate f)
  | .expand goals => .expand (goals.map (Goal.relocate f))
  | .take goals => .take (goals.map (Goal.relocate f))
  | .fail expected => .fail expected

/-- Moves the place of an error in the order of tokens. -/
def GrammarError.relocate (f : Position → Position) : GrammarError → GrammarError
  | .unexpectedToken expected found => .unexpectedToken expected (found.relocate f)
  | .unexpectedEnd expected last => .unexpectedEnd expected (f last)
  | .trailingToken found => .trailingToken (found.relocate f)

/-- Moves the places in what a walk came to. -/
def Walk.relocate (f : Position → Position) (walk : Walk) : Walk :=
  ⟨walk.steps.map (Step.relocate f),
    (walk.outcome.map (List.map (Token.relocate f))).mapError (GrammarError.relocate f)⟩

variable {f : Position → Position}

@[simp] theorem Walk.relocate_ok (steps : Array Step) (rest : List Token) :
    (Walk.mk steps (.ok rest)).relocate f = ⟨steps.map (Step.relocate f), .ok (rest.map (Token.relocate f))⟩ := rfl

@[simp] theorem Walk.relocate_error (steps : Array Step) (e : GrammarError) :
    (Walk.mk steps (.error e)).relocate f = ⟨steps.map (Step.relocate f), .error (e.relocate f)⟩ := rfl

@[simp] theorem Token.relocate_kind (token : Token) : (token.relocate f).kind = token.kind := rfl

@[simp] theorem Token.relocate_position (token : Token) : (token.relocate f).position = f token.position := rfl

theorem GrammarError.relocate_unmet (expected : String) (head : Option Token) (last : Position) :
    (unmet expected head last).relocate f = unmet expected (head.map (Token.relocate f)) (f last) := by
  cases head <;> rfl

/-! ## Moves -/

/-- What is asked of the kind of the next token has the same answer for the moved token. -/
@[simp] theorem any_kind_relocate (head : Option Token) (kind : TokenKind) :
    ((head.map (Token.relocate f)).any fun token => token.kind = kind) = head.any fun token => token.kind = kind := by
  cases head <;> rfl

@[simp] theorem bind_kind_relocate {α : Type} (head : Option Token) (g : TokenKind → Option α) :
    ((head.map (Token.relocate f)).bind fun token => g token.kind) = head.bind fun token => g token.kind := by
  cases head <;> rfl

namespace Goal

theorem takeName_relocate (head : Option Token) (expected : String) {goals goals' : String → Position → List Goal}
    (h : ∀ name p, goals' name (f p) = (goals name p).map (relocate f)) :
    takeName (head.map (Token.relocate f)) expected goals' = (takeName head expected goals).relocate f := by
  rcases head with - | ⟨kind, p⟩
  · rfl
  · cases kind <;> simp [takeName, Token.relocate, Move.relocate, h]

theorem takeType_relocate (head : Option Token) (expected : String) {goals goals' : String → List Goal}
    (h : ∀ type, goals' type = (goals type).map (relocate f)) :
    takeType (head.map (Token.relocate f)) expected goals' = (takeType head expected goals).relocate f := by
  simp only [takeType, bind_kind_relocate]
  split <;> simp [Move.relocate, h]

theorem takeOptional_relocate (head : Option Token) (c : Char) {goals goals' others others' : List Goal}
    (hg : goals' = goals.map (relocate f)) (ho : others' = others.map (relocate f)) :
    takeOptional (head.map (Token.relocate f)) c goals' others' = (takeOptional head c goals others).relocate f := by
  simp only [takeOptional, any_kind_relocate, hg, ho]
  split <;> rfl

theorem relocate_statement {kind : TokenKind} {goals : List Goal} (h : statement? kind = some goals) :
    goals.map (relocate f) = goals := by
  unfold statement? at h
  split at h <;> cases h <;> simp [within, block, relocate, Step.relocate]

theorem operand_relocate (p : Position) (kind : TokenKind) :
    operand? (f p) kind = (operand? p kind).map (List.map (relocate f)) := by
  cases kind <;> simp only [operand?]
  case keyword word => cases KeywordConstant.ofKeyword? word <;> simp [relocate, Step.relocate]
  case symbol c =>
    repeat' split
    all_goals simp [relocate, Step.relocate]
  all_goals simp [relocate, Step.relocate]

/-- What a token makes of a goal, moved, is what the moved token makes of the moved goal. -/
theorem move_relocate (goal : Goal) (head : Option Token) :
    (goal.relocate f).move (head.map (Token.relocate f)) = (goal.move head).relocate f := by
  cases goal with
  | emit | expression | term => rfl
  | className | names | parameterName | target | doCall | qualifiedCall | subroutine =>
    exact takeName_relocate head _ fun _ _ => by simp [relocate, Step.relocate, within, callOf]
  | typedNames | parameter => exact takeType_relocate head _ fun _ => rfl
  | moreNames | moreParameters | assignment | «call» | moreArguments =>
    exact takeOptional_relocate head _ (by simp [relocate, Step.relocate]) (by simp [relocate, Step.relocate, callOf, endCall])
  | statements =>
    simp only [relocate, move, bind_kind_relocate]
    split
    · next h =>
      obtain ⟨token, -, h⟩ := Option.bind_eq_some_iff.mp h
      simp [Move.relocate, relocate_statement h, relocate]
    · rfl
  | operand =>
    cases head with
    | none => rfl
    | some token =>
      simp only [relocate, move, Option.map_some, Option.bind_some, Token.relocate_kind, Token.relocate_position,
        operand_relocate]
      cases operand? token.position token.kind <;> rfl
  | resultType =>
    simp only [relocate, move, any_kind_relocate]
    split
    · rfl
    · exact takeType_relocate head _ fun _ => rfl
  | reference name p =>
    have hopen : ((head.map (Token.relocate f)).any fun token => token.kind = .symbol '(' || token.kind = .symbol '.') =
        head.any fun token => token.kind = .symbol '(' || token.kind = .symbol '.' := by
      cases head <;> rfl
    simp only [relocate, move, hopen]
    split
    · rfl
    · exact takeOptional_relocate head _ rfl rfl
  | argument => simp [relocate, move, Move.relocate, Step.relocate, Option.map_map, Function.comp_def]
  | _ =>
    simp only [relocate, move, any_kind_relocate, bind_kind_relocate]
    split <;> simp [Move.relocate, relocate, Step.relocate, within, block, endCall]

end Goal

/-! ## Walks -/

/-- A walk through moved tokens is the walk through the tokens, moved. -/
theorem walkFrom_relocate (last : Position) (goals : List Goal) (tokens : List Token) (steps : Array Step) :
    walkFrom (f last) (goals.map (Goal.relocate f)) (tokens.map (Token.relocate f)) (steps.map (Step.relocate f)) =
      (walkFrom last goals tokens steps).relocate f := by
  have hhead (tokens : List Token) :
      (tokens.map (Token.relocate f)).head? = tokens.head?.map (Token.relocate f) := List.head?_map
  induction goals, tokens, steps using walkFrom.induct with
  | case1 tokens steps => simp
  | case2 tokens steps goal goals step h ih =>
    have h' := Goal.move_relocate (f := f) goal tokens.head?
    rw [h, ← hhead] at h'
    rw [walkFrom_of_emit h, List.map_cons, walkFrom_of_emit h', ← ih, Array.map_push]
  | case3 tokens steps goal goals new h _ ih =>
    have h' := Goal.move_relocate (f := f) goal tokens.head?
    rw [h, ← hhead] at h'
    rw [walkFrom_of_expand h, List.map_cons, walkFrom_of_expand h', ← ih, List.map_append]
  | case4 tokens steps goal goals new h _ _ _ _ ih =>
    cases tokens with
    | nil => exact absurd h (goal.move_none_ne_take new)
    | cons token tokens =>
      have h' := Goal.move_relocate (f := f) goal (some token)
      rw [List.head?_cons] at h
      rw [List.tail_cons] at ih
      rw [h] at h'
      rw [walkFrom_of_take h, List.map_cons, List.map_cons, walkFrom_of_take h', ← ih, List.map_append]
  | case5 tokens steps goal goals expected h =>
    have h' := Goal.move_relocate (f := f) goal tokens.head?
    rw [h, ← hhead] at h'
    rw [walkFrom_of_fail h, List.map_cons, walkFrom_of_fail h', hhead, ← GrammarError.relocate_unmet]
    rfl

/-- Moves the places in what reading a class yields. -/
def Reading.relocate (f : Position → Position) (reading : Reading) : Reading :=
  ⟨reading.steps.map (Step.relocate f), reading.error?.map (GrammarError.relocate f)⟩

theorem Token.endPosition_relocate (tokens : List Token) (h : f .nowhere = .nowhere) :
    endPosition (tokens.map (relocate f)) = f (endPosition tokens) := by
  simp only [endPosition, List.getLast?_map]
  cases tokens.getLast? with
  | none => exact h.symm
  | some token => rfl

/-- What moved tokens are read as is what the tokens are read as, moved. -/
theorem readClass_relocate (tokens : List Token) (h : f .nowhere = .nowhere) :
    readClass (tokens.map (Token.relocate f)) = (readClass tokens).relocate f := by
  have hw := walkFrom_relocate (f := f) (Token.endPosition tokens) Goal.ofClass tokens #[]
  have hg : Goal.ofClass.map (Goal.relocate f) = Goal.ofClass := rfl
  rw [hg, ← Token.endPosition_relocate tokens h, Array.map_empty] at hw
  simp only [readClass, Reading.relocate, hw]
  rcases walkFrom (Token.endPosition tokens) Goal.ofClass tokens #[] with ⟨steps, e | rest⟩
  · simp
  · cases rest <;> simp [GrammarError.relocate]

end JackCompiler
