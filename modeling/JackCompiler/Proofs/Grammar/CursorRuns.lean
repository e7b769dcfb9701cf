import JackCompiler.Token.Cursor
import JackCompiler.Token.Listing

/-!
# Runs of a cursor

What one operation does to a cursor is said once (`Cursor.perform_cases`): it hands nothing over and leaves the cursor where
it is, or it hands over the next token and moves behind it. A run of operations hands over the tokens in their order, since
each of them does (`Cursor.handedOver_append_rest`). Main statement: whatever is asked, the tokens that were handed over and
those that are left are the tokens of the list, refusals move nothing, the ways to take a token agree with one another and
with looking ahead, and behind the last token a cursor stays (`Cursor.cursor_keeps_tokens`).
-/

namespace JackCompiler.Cursor

/-! ## Runs -/

/-- Whether an operation moves past a token when it succeeds. -/
def Operation.takes : Operation → Bool
  | .advance | .consume _ | .expect _ _ => true
  | _ => false

/-- An answer that is no, no token, or the reason why there is none. -/
def Answer.isRefusal : Answer → Bool
  | .decision holds => !holds
  | .found token? => token?.isNone
  | .outcome (.ok _) => false
  | .outcome (.error _) => true

/-- The token in an answer. -/
def Answer.token? : Answer → Option Token
  | .decision _ => none
  | .found token? => token?
  | .outcome result => result.toOption

/-- The token that an operation takes from a cursor. -/
def handed? (cursor : Cursor) (operation : Operation) : Option Token :=
  if operation.takes then (cursor.perform operation).1.token? else none

/-- The cursor after operations. -/
def after (cursor : Cursor) (operations : List Operation) : Cursor :=
  operations.foldl (fun cursor operation => (cursor.perform operation).2) cursor

/-- The answers to operations, one after another. -/
def answers (cursor : Cursor) : List Operation → List Answer
  | [] => []
  | operation :: operations => (cursor.perform operation).1 :: (cursor.perform operation).2.answers operations

/-- The tokens that operations take, in their order. -/
def handedOver (cursor : Cursor) : List Operation → List Token
  | [] => []
  | operation :: operations =>
    (cursor.handed? operation).toList ++ (cursor.perform operation).2.handedOver operations

/-! ## What each operation does -/

section

variable {cursor : Cursor} {token : Token} {rest : List Token} {condition : Token → Bool} {expected : String}

theorem current_of_nil (h : cursor.rest = []) :
    cursor.current = .error (.unexpectedEnd "more input" (Token.endPosition cursor.tokens)) := by
  rw [current, unmet, peek?, h]
  rfl

theorem current_of_cons (h : cursor.rest = token :: rest) : cursor.current = .ok token := by
  rw [current, peek?, h]
  rfl

theorem advance_of_nil (h : cursor.rest = []) :
    cursor.advance = .error (.unexpectedEnd "more input" (Token.endPosition cursor.tokens)) := by
  rw [advance, current_of_nil h]
  rfl

theorem advance_of_cons (h : cursor.rest = token :: rest) : cursor.advance = .ok (token, cursor.skip) := by
  rw [advance, current_of_cons h]
  rfl

theorem check_of_nil (h : cursor.rest = []) : cursor.check condition = false := by
  rw [check, peek?, h]
  rfl

theorem check_of_cons (h : cursor.rest = token :: rest) : cursor.check condition = condition token := by
  rw [check, peek?, h]
  rfl

theorem consume?_of_nil (h : cursor.rest = []) : cursor.consume? condition = none := by
  rw [consume?, peek?, h]
  rfl

theorem consume?_of_cons (h : cursor.rest = token :: rest) :
    cursor.consume? condition = if condition token then some (token, cursor.skip) else none := by
  rw [consume?, peek?, h, List.head?_cons, Option.filter_some]
  cases condition token <;> rfl

theorem expect_of_nil (h : cursor.rest = []) :
    cursor.expect condition expected = .error (.unexpectedEnd expected (Token.endPosition cursor.tokens)) := by
  rw [expect, consume?_of_nil h, unmet, peek?, h]
  rfl

/-- A token is taken on a condition exactly when the check of this condition succeeds. -/
theorem isSome_consume? (cursor : Cursor) (condition : Token → Bool) :
    (cursor.consume? condition).isSome = cursor.check condition := by
  rcases h : cursor.rest with _ | ⟨token, rest⟩
  · rw [consume?_of_nil h, check_of_nil h]
    rfl
  · rw [consume?_of_cons h, check_of_cons h]
    cases condition token <;> rfl

/-- Nothing is taken on a condition, or the next token. -/
theorem consume?_cases (cursor : Cursor) (condition : Token → Bool) :
    cursor.consume? condition = none ∨
      ∃ token rest, cursor.rest = token :: rest ∧ cursor.consume? condition = some (token, cursor.skip) := by
  rcases h : cursor.rest with _ | ⟨token, rest⟩
  · exact .inl (consume?_of_nil h)
  · rw [consume?_of_cons h]
    cases condition token with
    | false => exact .inl rfl
    | true => exact .inr ⟨token, rest, rfl, rfl⟩

/-- What is taken on a condition is what an advance takes. -/
theorem advance_of_consume? {taken : Token × Cursor} (h : cursor.consume? condition = some taken) :
    cursor.advance = .ok taken := by
  rcases cursor.consume?_cases condition with nothing | ⟨token, rest, next, found⟩
  · rw [nothing] at h
    cases h
  · rw [found] at h
    rw [advance_of_cons next, Option.some.inj h]

/-- What is expected is what is taken on the same condition. -/
theorem toOption_expect (cursor : Cursor) (condition : Token → Bool) (expected : String) :
    (cursor.expect condition expected).toOption = cursor.consume? condition := by
  rw [expect]
  cases cursor.consume? condition <;> rfl

end

/-! ## One operation -/

/-- An operation takes nothing and leaves the cursor where it is, or it takes the next token and the cursor stands behind
it; then it has not refused. -/
theorem perform_cases (cursor : Cursor) (operation : Operation) :
    cursor.handed? operation = none ∧ (cursor.perform operation).2 = cursor ∨
      ∃ token rest, cursor.rest = token :: rest ∧ cursor.handed? operation = some token ∧
        (cursor.perform operation).1.isRefusal = false ∧ (cursor.perform operation).2 = cursor.skip := by
  cases operation with
  | hasMore | peek | peekAt n | current | check condition => exact .inl ⟨rfl, rfl⟩
  | advance =>
    rw [handed?, perform]
    rcases h : cursor.rest with _ | ⟨token, rest⟩
    · rw [advance_of_nil h]
      exact .inl ⟨rfl, rfl⟩
    · rw [advance_of_cons h]
      exact .inr ⟨token, rest, rfl, rfl, rfl, rfl⟩
  | consume condition =>
    rw [handed?, perform]
    rcases cursor.consume?_cases condition with nothing | ⟨token, rest, next, taken⟩
    · rw [nothing]
      exact .inl ⟨rfl, rfl⟩
    · rw [taken]
      exact .inr ⟨token, rest, next, rfl, rfl, rfl⟩
  | expect condition expected =>
    rw [handed?, perform, expect]
    rcases cursor.consume?_cases condition with nothing | ⟨token, rest, next, taken⟩
    · rw [nothing]
      exact .inl ⟨rfl, rfl⟩
    · rw [taken]
      exact .inr ⟨token, rest, next, rfl, rfl, rfl⟩

/-- A refusal leaves the cursor where it is. -/
theorem perform_of_isRefusal {cursor : Cursor} {operation : Operation}
    (h : (cursor.perform operation).1.isRefusal = true) : (cursor.perform operation).2 = cursor := by
  rcases cursor.perform_cases operation with ⟨-, stays⟩ | ⟨token, rest, -, -, accepted, -⟩
  · exact stays
  · rw [accepted] at h
    cases h

/-- No operation changes the list. -/
theorem perform_tokens (cursor : Cursor) (operation : Operation) :
    (cursor.perform operation).2.tokens = cursor.tokens := by
  rcases cursor.perform_cases operation with ⟨-, stays⟩ | ⟨token, rest, -, -, -, moves⟩
  · rw [stays]
  · rw [moves, skip_tokens]

/-- What an operation takes stood in front of what it leaves. -/
theorem handed?_append_rest (cursor : Cursor) (operation : Operation) :
    (cursor.handed? operation).toList ++ (cursor.perform operation).2.rest = cursor.rest := by
  rcases cursor.perform_cases operation with ⟨nothing, stays⟩ | ⟨token, rest, next, taken, -, moves⟩
  · rw [nothing, stays]
    rfl
  · rw [taken, moves, skip_rest, next]
    rfl

/-! ## Runs of operations -/

section

variable (cursor : Cursor) (operations : List Operation)

theorem after_tokens : (cursor.after operations).tokens = cursor.tokens := by
  induction operations generalizing cursor with
  | nil => rfl
  | cons operation operations ih => exact (ih _).trans (cursor.perform_tokens operation)

/-- What a run takes stood in front of what it leaves. -/
theorem handedOver_append_rest : cursor.handedOver operations ++ (cursor.after operations).rest = cursor.rest := by
  induction operations generalizing cursor with
  | nil => rfl
  | cons operation operations ih =>
    rw [handedOver, List.append_assoc, after, List.foldl_cons, ← after, ih, handed?_append_rest]

theorem hasMore_eq_false_iff {cursor : Cursor} : cursor.hasMore = false ↔ cursor.rest = [] := by
  rw [hasMore, Bool.not_eq_false', List.isEmpty_iff]

/-- Behind the last token a cursor stays. -/
theorem after_rest_of_nil (h : cursor.rest = []) : (cursor.after operations).rest = [] := by
  have kept := cursor.handedOver_append_rest operations
  rw [h, List.append_eq_nil_iff] at kept
  exact kept.2

end

/-- An advance leaves what stands behind the next token. -/
theorem perform_advance_rest (cursor : Cursor) : (cursor.perform .advance).2.rest = cursor.rest.tail := by
  rw [perform]
  rcases h : cursor.rest with _ | ⟨token, rest⟩
  · rw [advance_of_nil h]
    exact h
  · rw [advance_of_cons h]
    exact congrArg List.tail h

/-- Looking `n` tokens ahead shows what one more than `n` advances come to. -/
theorem answers_advance (cursor : Cursor) (n : Nat) :
    (cursor.answers (List.replicate (n + 1) .advance))[n]? =
      some (.outcome ((cursor.peekAt? n).elim
        (.error (.unexpectedEnd "more input" (Token.endPosition cursor.tokens))) .ok)) := by
  induction n generalizing cursor with
  | zero =>
    rw [List.replicate_succ, answers, List.getElem?_cons_zero, perform, peekAt?]
    rcases h : cursor.rest with _ | ⟨token, rest⟩
    · rw [advance_of_nil h]
      rfl
    · rw [advance_of_cons h]
      rfl
  | succ n ih =>
    have ahead : (cursor.perform .advance).2.peekAt? n = cursor.peekAt? (n + 1) := by
      rw [peekAt?, peekAt?, perform_advance_rest, List.getElem?_tail]
    rw [List.replicate_succ, answers, List.getElem?_cons_succ, ih, ahead, perform_tokens]

/-- Whatever a cursor over tokens is asked: the tokens that it handed over, in their order, and those that are left are
the tokens, and the list and its listing are what they were. Wherever it has come to, a refusal leaves it there; a token is
taken on a condition exactly when the check of this condition succeeds, the one that an advance takes, and the same token
is found when it is expected; looking `n` tokens ahead shows what one more than `n` advances come to. Where no token is
left, none is left later, and a token that has to be there is missing behind the last one. -/
theorem cursor_keeps_tokens (tokens : List Token) (operations : List Operation) :
    let cursor := (ofTokens tokens).after operations
    let last : Position := (tokens.getLast?.map (·.position)).getD ⟨0, 0⟩
    (ofTokens tokens).handedOver operations ++ cursor.rest = tokens ∧
    (cursor.tokens = tokens ∧ listing cursor.tokens = listing tokens) ∧
    (∀ operation, (cursor.perform operation).1.isRefusal = true → (cursor.perform operation).2 = cursor) ∧
    (∀ condition expected,
      (cursor.consume? condition).isSome = cursor.check condition ∧
      (∀ taken, cursor.consume? condition = some taken → cursor.advance = .ok taken) ∧
      (cursor.expect condition expected).toOption = cursor.consume? condition) ∧
    (∀ n, (cursor.answers (List.replicate (n + 1) .advance))[n]? =
      some (.outcome ((cursor.peekAt? n).elim (.error (.unexpectedEnd "more input" last)) .ok))) ∧
    (cursor.hasMore = false →
      (∀ later, (cursor.after later).hasMore = false) ∧
      cursor.advance = .error (.unexpectedEnd "more input" last) ∧
      cursor.current = .error (.unexpectedEnd "more input" last) ∧
      ∀ condition expected, cursor.expect condition expected = .error (.unexpectedEnd expected last)) := by
  intro cursor last
  have same : cursor.tokens = tokens := (ofTokens tokens).after_tokens operations
  have place : Token.endPosition cursor.tokens = last := congrArg Token.endPosition same
  refine ⟨(ofTokens tokens).handedOver_append_rest operations, ⟨same, congrArg listing same⟩,
    fun operation => perform_of_isRefusal, fun condition expected => ⟨cursor.isSome_consume? condition, ?_,
      cursor.toOption_expect condition expected⟩, fun n => ?_, fun ended => ?_⟩
  · exact fun taken => advance_of_consume?
  · rw [← place]
    exact cursor.answers_advance n
  · rw [hasMore_eq_false_iff] at ended
    rw [← place]
    exact ⟨fun later => hasMore_eq_false_iff.mpr (cursor.after_rest_of_nil later ended), advance_of_nil ended,
      current_of_nil ended, fun condition expected => expect_of_nil ended⟩

/-- The tokens of `do f;`. -/
def sampleTokens : List Token :=
  [⟨.keyword .«do», ⟨1, 1⟩⟩, ⟨.identifier "f", ⟨1, 4⟩⟩, ⟨.symbol ';', ⟨1, 5⟩⟩]

def isSymbol (token : Token) : Bool :=
  token.kind.category = .symbol

/-- A symbol is expected in front of a name, then taken behind it, and then looked for at the end. -/
theorem cursor_keeps_tokens_sample :
    let named := (ofTokens sampleTokens).after [.advance]
    let before := (ofTokens sampleTokens).after [.peekAt 2, .advance, .check isSymbol, .advance]
    let ended := (ofTokens sampleTokens).after [.advance, .advance, .consume isSymbol]
    (named.perform (.expect isSymbol "a symbol")).1.isRefusal = true ∧
      (named.perform (.expect isSymbol "a symbol")).2 = named ∧
      before.advance = .ok (⟨.symbol ';', ⟨1, 5⟩⟩, before.skip) ∧
      ended.hasMore = false ∧ (ended.after [.advance, .peek]).hasMore = false ∧
      ended.expect isSymbol "a symbol" = .error (.unexpectedEnd "a symbol" ⟨1, 5⟩) := by
  intro named before ended
  obtain ⟨-, -, refused, -, -, -⟩ := cursor_keeps_tokens sampleTokens [.advance]
  obtain ⟨-, -, -, taken, -, -⟩ := cursor_keeps_tokens sampleTokens [.peekAt 2, .advance, .check isSymbol, .advance]
  obtain ⟨-, -, -, -, -, stays⟩ := cursor_keeps_tokens sampleTokens [.advance, .advance, .consume isSymbol]
  obtain ⟨later, -, -, missing⟩ := stays rfl
  exact ⟨rfl, refused (.expect isSymbol "a symbol") rfl, (taken isSymbol "a symbol").2.1 _ rfl, rfl,
    later [.advance, .peek], missing isSymbol "a symbol"⟩

end JackCompiler.Cursor
