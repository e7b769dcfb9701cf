import JackCompiler.Error

/-!
# A cursor over tokens

A cursor moves forward over a fixed list of tokens, one token at a time. Looking never moves it, and neither does an
operation that fails. `Cursor.perform` is the cursor as a machine: one operation at a time, with its answer.
-/

namespace JackCompiler

/-- A list of tokens, and what of it is still to be read. -/
structure Cursor where
  tokens : List Token
  rest : List Token
  rest_suffix : rest <:+ tokens

namespace Cursor

/-- The cursor before the first of the tokens. -/
def ofTokens (tokens : List Token) : Cursor :=
  ⟨tokens, tokens, List.suffix_refl tokens⟩

/-- The cursor after the next token. -/
def skip (cursor : Cursor) : Cursor :=
  ⟨cursor.tokens, cursor.rest.tail, (List.tail_suffix cursor.rest).trans cursor.rest_suffix⟩

@[simp] theorem skip_tokens (cursor : Cursor) : cursor.skip.tokens = cursor.tokens := rfl

@[simp] theorem skip_rest (cursor : Cursor) : cursor.skip.rest = cursor.rest.tail := rfl

/-- Whether a token is left. -/
def hasMore (cursor : Cursor) : Bool :=
  !cursor.rest.isEmpty

/-- The next token. -/
def peek? (cursor : Cursor) : Option Token :=
  cursor.rest.head?

/-- The token `n` places after the next one. -/
def peekAt? (cursor : Cursor) (n : Nat) : Option Token :=
  cursor.rest[n]?

/-- The error of not finding what was expected. -/
def unmet (cursor : Cursor) (expected : String) : GrammarError :=
  .unmet expected cursor.peek? (Token.endPosition cursor.tokens)

/-- The next token, which has to be there. -/
def current (cursor : Cursor) : Except GrammarError Token :=
  cursor.peek?.elim (.error (cursor.unmet "more input")) .ok

/-- The next token, which has to be there, and the cursor after it. -/
def advance (cursor : Cursor) : Except GrammarError (Token × Cursor) :=
  cursor.current.map fun token => (token, cursor.skip)

/-- Whether the next token is there and meets a condition. -/
def check (cursor : Cursor) (condition : Token → Bool) : Bool :=
  cursor.peek?.any condition

/-- The next token and the cursor after it, if the token meets a condition. -/
def consume? (cursor : Cursor) (condition : Token → Bool) : Option (Token × Cursor) :=
  (cursor.peek?.filter condition).map fun token => (token, cursor.skip)

/-- The next token and the cursor after it; the token has to meet a condition. -/
def expect (cursor : Cursor) (condition : Token → Bool) (expected : String) : Except GrammarError (Token × Cursor) :=
  (cursor.consume? condition).elim (.error (cursor.unmet expected)) .ok

/-! ## The cursor as a machine -/

/-- What a cursor can be asked. -/
inductive Operation where
  | hasMore
  | peek
  | peekAt (n : Nat)
  | current
  | advance
  | check (condition : Token → Bool)
  | consume (condition : Token → Bool)
  | expect (condition : Token → Bool) (expected : String)

/-- What a cursor answers: yes or no, a token or nothing, a token or the reason why there is none. -/
inductive Answer where
  | decision (holds : Bool)
  | found (token? : Option Token)
  | outcome (result : Except GrammarError Token)

/-- Does one operation: its answer, and the cursor after it. -/
def perform (cursor : Cursor) : Operation → Answer × Cursor
  | .hasMore => (.decision cursor.hasMore, cursor)
  | .peek => (.found cursor.peek?, cursor)
  | .peekAt n => (.found (cursor.peekAt? n), cursor)
  | .current => (.outcome cursor.current, cursor)
  | .advance => moved cursor.advance
  | .check condition => (.decision (cursor.check condition), cursor)
  | .consume condition =>
    match cursor.consume? condition with
    | some (token, next) => (.found (some token), next)
    | none => (.found none, cursor)
  | .expect condition expected => moved (cursor.expect condition expected)
where
  /-- The answer and the cursor after what had to move the cursor. -/
  moved : Except GrammarError (Token × Cursor) → Answer × Cursor
    | .ok (token, next) => (.outcome (.ok token), next)
    | .error e => (.outcome (.error e), cursor)

end Cursor

end JackCompiler
