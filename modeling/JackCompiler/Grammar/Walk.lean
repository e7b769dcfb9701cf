import JackCompiler.Grammar.Goal

/-!
# Walking through tokens

The walk keeps the goals that are still to be met, the nearest first, and lets each next token decide. It collects the
steps on its way and ends when all goals are met or when one cannot be met. Every token allows a bounded number of moves,
so the walk ends.
-/

namespace JackCompiler

/-- Where a walk came to: the steps on the way, and the tokens left over or what stopped it. -/
structure Walk where
  steps : Array Step
  outcome : Except GrammarError (List Token)

/-- Walks through tokens to meet all goals, after the steps in `steps`; `last` is where an early end is reported. -/
def walkFrom (last : Position) (goals : List Goal) (tokens : List Token) (steps : Array Step) : Walk :=
  match goals with
  | [] => ⟨steps, .ok tokens⟩
  | goal :: goals =>
    match h : goal.move tokens.head? with
    | .emit step => walkFrom last goals tokens (steps.push step)
    | .expand new =>
      have := Goal.weightSum_lt_of_expand h
      walkFrom last (new ++ goals) tokens steps
    | .take new =>
      have := Goal.weightSum_le_of_take h
      have := goal.weight_pos
      have : tokens ≠ [] := fun e => goal.move_none_ne_take new (by simpa [e] using h)
      have := List.length_pos_iff.mpr this
      walkFrom last (new ++ goals) tokens.tail steps
    | .fail expected => ⟨steps, .error (.unmet expected tokens.head? last)⟩
termination_by Goal.maxWeight * tokens.length + Goal.weightSum goals
decreasing_by
  all_goals simp only [Goal.weightSum_cons, Goal.weightSum_append, List.length_tail, Goal.maxWeight] at *
  · have := goal.weight_pos
    omega
  · omega
  · omega

/-! The walk is a well-founded recursion, so each of its moves is unfolded once here. -/

section

variable {last : Position} {goal : Goal} {goals : List Goal} {tokens : List Token} {steps : Array Step}

@[simp] theorem walkFrom_nil : walkFrom last [] tokens steps = ⟨steps, .ok tokens⟩ := by
  rw [walkFrom]

theorem walkFrom_of_emit {step : Step} (h : goal.move tokens.head? = .emit step) :
    walkFrom last (goal :: goals) tokens steps = walkFrom last goals tokens (steps.push step) := by
  rw [walkFrom]
  split <;> simp_all

theorem walkFrom_of_expand {new : List Goal} (h : goal.move tokens.head? = .expand new) :
    walkFrom last (goal :: goals) tokens steps = walkFrom last (new ++ goals) tokens steps := by
  rw [walkFrom]
  split <;> simp_all

theorem walkFrom_of_take {token : Token} {new : List Goal} (h : goal.move (some token) = .take new) :
    walkFrom last (goal :: goals) (token :: tokens) steps = walkFrom last (new ++ goals) tokens steps := by
  have h' : goal.move (token :: tokens).head? = .take new := h
  rw [walkFrom]
  split <;> rename_i heq <;> rw [h'] at heq <;> cases heq
  rfl

theorem walkFrom_of_fail {expected : String} (h : goal.move tokens.head? = .fail expected) :
    walkFrom last (goal :: goals) tokens steps = ⟨steps, .error (.unmet expected tokens.head? last)⟩ := by
  rw [walkFrom]
  split <;> simp_all

end

/-- What reading a class from tokens yields: its steps, or the steps before the first error in the order of tokens. -/
structure Reading where
  steps : List Step
  error? : Option GrammarError

/-- Reads tokens as one class and nothing after it. -/
def readClass (tokens : List Token) : Reading :=
  let walk := walkFrom (Token.endPosition tokens) Goal.ofClass tokens #[]
  ⟨walk.steps.toList,
    match walk.outcome with
    | .ok [] => none
    | .ok (token :: _) => some (.trailingToken token)
    | .error e => some e⟩

end JackCompiler
