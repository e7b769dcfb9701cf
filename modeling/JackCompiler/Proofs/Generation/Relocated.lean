import JackCompiler.Proofs.Generation.Located
import JackCompiler.Proofs.Generation.Trace
import JackCompiler.Proofs.Project.Names
import JackCompiler.Proofs.Scanning.Lines
import JackCompiler.Proofs.Scanning.Listing

/-!
# Places reach nothing but errors

A generator that goes through moved steps does what it does with the steps, and its error is moved (`Generator.run_relocate`),
so compilation of moved tokens is that of the tokens, moved (`compile_relocate`). Any tokens are the numbered tokens of their
kinds, each moved from its number to its place (`relocate_numbered`): two token lists of the same kinds are therefore compiled
alike, and where both have an error with a place, the number of the token that it stands at is the same. Main statement:
`places_reach_errors_only`.
-/

namespace JackCompiler

/-! ## Moving errors -/

/-- Moves the place of an error with a name, if it has one. -/
def NameError.relocate (f : Position → Position) : NameError → NameError
  | .undefined name p => .undefined name (p.map f)
  | .redeclared name p => .redeclared name (p.map f)
  | .tooMany what name p => .tooMany what name (p.map f)

namespace Error

/-- Moves the place of an error, if it has one. -/
def relocate (f : Position → Position) : Error → Error
  | lex cause => lex (cause.relocate f)
  | grammar cause => grammar (cause.relocate f)
  | name cause => name (cause.relocate f)
  | file cause => file cause

/-- An error without its place: what it says is kept, and whether it has a place. -/
def unplaced (e : Error) : Error :=
  e.relocate fun _ => .nowhere

variable {f : Position → Position}

/-- A moved error stands where the error stood, moved. -/
@[simp] theorem position?_relocate (e : Error) : (e.relocate f).position? = e.position?.map f := by
  rcases e with cause | cause | cause | cause
  all_goals cases cause <;> rfl

/-- Errors that were moved differ in their places only. -/
@[simp] theorem unplaced_relocate (e : Error) : (e.relocate f).unplaced = e.unplaced := by
  have none (p : Option Position) : (p.map f).map (fun _ => Position.nowhere) = p.map fun _ => Position.nowhere := by
    cases p <;> rfl
  rcases e with cause | cause | cause | cause
  all_goals
    cases cause <;> simp [unplaced, relocate, LexError.relocate, GrammarError.relocate, NameError.relocate,
      Token.relocate, none]

end Error

/-! ## Moving steps -/

section

variable {f : Position → Position}

namespace Generator

theorem emitWith_relocate (g : Generator) (name : String) (p : Position) (code : Variable → List Vm.Instruction) :
    g.emitWith name (f p) code = (g.emitWith name p code).mapError (Error.relocate f) := by
  simp only [emitWith, variableAt, SymbolTable.resolve]
  cases g.table.lookup? name <;> rfl

theorem declare_relocate (g : Generator) (kind : VariableKind) (type name : String) (p : Position) :
    g.declare kind type name (f p) = (g.declare kind type name p).mapError (Error.relocate f) := by
  simp only [declare, SymbolTable.define]
  split
  · rfl
  · by_cases full : g.table.count kind = SymbolTable.maxCount
    · rw [if_pos full]
      rfl
    · rw [if_neg full]
      rfl

/-- A moved step is what the step is, and an error is moved with it. -/
theorem step_relocate_eq (g : Generator) (step : Step) :
    g.step (step.relocate f) = (g.step step).mapError (Error.relocate f) := by
  cases step with
  | declare => exact declare_relocate ..
  | beginSubroutine kind => cases kind <;> rfl
  | string body p =>
    simp only [Step.relocate, Generator.step, stringCode]
    by_cases long : maxConstant < body.length
    · simp only [if_pos long]
      rfl
    · simp only [if_neg long]
      cases body.toList.find? fun c => maxConstant < c.toNat <;> rfl
  | read | use | element | elementAddress | assign => exact emitWith_relocate ..
  | argument =>
    simp only [Step.relocate, Generator.step]
    split <;> rfl
  | «call» =>
    simp only [Step.relocate, Generator.step]
    split <;> rfl
  | _ => rfl

/-- A run through moved steps is the run through the steps, with its error moved and the same record. -/
theorem run_relocate (g : Generator) (recorder : Recorder) (steps : List Step) :
    g.run recorder (steps.map (Step.relocate f)) =
      ((g.run recorder steps).1.mapError (Error.relocate f), (g.run recorder steps).2) := by
  induction steps generalizing g recorder with
  | nil => rfl
  | cons step steps ih =>
    have watched : recorder.watch (step.relocate f) = recorder.watch step := by
      cases recorder with
      | none => rfl
      | some events => rw [Recorder.watch_some, Recorder.watch_some, Step.event?_relocate]
    rw [List.map_cons, run, run, step_relocate_eq, watched]
    cases g.step step with
    | error e => rfl
    | ok h => exact ih h _

end Generator

/-- What moved tokens are compiled to is what the tokens are compiled to, with its error moved. -/
theorem compile_relocate (strict record : Bool) (tokens : List Token) (h : f .nowhere = .nowhere) :
    compile strict record (tokens.map (Token.relocate f)) =
      ⟨(compile strict record tokens).result.mapError (Error.relocate f), (compile strict record tokens).trace?⟩ := by
  simp only [compile, readClass_relocate tokens h, Reading.relocate, Generator.run_relocate]
  rcases (Generator.run { strict } _ (readClass tokens).steps).1 with e | g
  · rfl
  · cases (readClass tokens).error? <;> rfl

end

/-! ## Numbered tokens -/

/-- Tokens of the given kinds, each at its number instead of a place. -/
def numbered (kinds : List TokenKind) : List Token :=
  placed (fun n => ⟨n + 1, 0⟩) 0 kinds

/-- The place of the token with a number. -/
def placeOfNumber (tokens : List Token) (number : Position) : Position :=
  match number.row with
  | 0 => .nowhere
  | n + 1 => placeIn tokens n

theorem map_relocate_placed_eq (f : Position → Position) (place : Nat → Position) (n : Nat) (kinds : List TokenKind) :
    (placed place n kinds).map (Token.relocate f) = placed (fun n => f (place n)) n kinds := by
  induction kinds generalizing n with
  | nil => rfl
  | cons kind kinds ih => rw [placed_cons, List.map_cons, ih, placed_cons, Token.relocate]

theorem exists_of_mem_placed {place : Nat → Position} {n : Nat} {kinds : List TokenKind} {token : Token}
    (h : token ∈ placed place n kinds) : ∃ i < kinds.length, token.position = place (n + i) := by
  induction kinds generalizing n with
  | nil => cases h
  | cons kind kinds ih =>
    rcases List.mem_cons.mp h with rfl | h
    · exact ⟨0, Nat.zero_lt_succ _, rfl⟩
    · obtain ⟨i, hi, hp⟩ := ih h
      exact ⟨i + 1, Nat.succ_lt_succ hi, by rw [hp, Nat.add_right_comm, Nat.add_assoc]⟩

/-- Tokens are the numbered tokens of their kinds, moved from their numbers to their places. -/
theorem relocate_numbered (tokens : List Token) :
    (numbered (tokens.map (·.kind))).map (Token.relocate (placeOfNumber tokens)) = tokens := by
  rw [numbered, map_relocate_placed_eq]
  exact placed_placeIn tokens

/-! ## Main statement -/

/-- Two places that an error over one of two token lists and an error over the other may have: those of the tokens with one
number, none, or nowhere, when the lists are empty. -/
inductive SamePlace (tokens tokens' : List Token) : Option Position → Option Position → Prop
  | token {i : Nat} {token token' : Token} (h : tokens[i]? = some token) (h' : tokens'[i]? = some token') :
    SamePlace tokens tokens' (some token.position) (some token'.position)
  | unplaced : SamePlace tokens tokens' none none
  | nowhere (h : tokens = []) (h' : tokens' = []) : SamePlace tokens tokens' (some ⟨0, 0⟩) (some ⟨0, 0⟩)

/-- Two outcomes that are alike: the same class, or errors that say the same of the same place. -/
inductive Alike (tokens tokens' : List Token) : Except Error CompiledClass → Except Error CompiledClass → Prop
  | ok (r : CompiledClass) : Alike tokens tokens' (.ok r) (.ok r)
  | error {e e' : Error} (same : e.unplaced = e'.unplaced) (place : SamePlace tokens tokens' e.position? e'.position?) :
    Alike tokens tokens' (.error e) (.error e')

section

variable {strict record : Bool} {tokens tokens' : List Token}

/-- Any tokens are compiled as the numbered tokens of their kinds. -/
theorem compile_eq_numbered (strict record : Bool) (tokens : List Token) :
    compile strict record tokens =
      ⟨(compile strict record (numbered (tokens.map (·.kind)))).result.mapError (Error.relocate (placeOfNumber tokens)),
        (compile strict record (numbered (tokens.map (·.kind)))).trace?⟩ := by
  rw [← compile_relocate _ _ _ rfl, relocate_numbered]

theorem getElem?_of_lt {i : Nat} (h : i < tokens.length) :
    ∃ token, tokens[i]? = some token ∧ placeIn tokens i = token.position :=
  ⟨tokens[i], List.getElem?_eq_getElem h, by rw [placeIn, List.getElem?_eq_getElem h]; rfl⟩

/-- An error of the numbered tokens stands alike in all tokens of their kinds. -/
theorem samePlace_of_numbered {e : Error} (h : tokens.map (·.kind) = tokens'.map (·.kind))
    (he : (compile strict record (numbered (tokens.map (·.kind)))).result = .error e) :
    SamePlace tokens tokens' (e.position?.map (placeOfNumber tokens)) (e.position?.map (placeOfNumber tokens')) := by
  have length : tokens'.length = tokens.length := by simpa using (congrArg List.length h).symm
  rcases place_of_compile he with ⟨found, hfound, hp⟩ | ⟨none, hp⟩ | ⟨callee, n, name, -, -, rfl⟩
  · obtain ⟨i, hi, place⟩ := exists_of_mem_placed hfound
    rw [List.length_map] at hi
    obtain ⟨token, htoken, hplace⟩ := getElem?_of_lt hi
    obtain ⟨token', htoken', hplace'⟩ := getElem?_of_lt (length ▸ hi)
    have at_token : placeOfNumber tokens found.position = token.position := by rw [place, Nat.zero_add, ← hplace]; rfl
    have at_token' : placeOfNumber tokens' found.position = token'.position := by rw [place, Nat.zero_add, ← hplace']; rfl
    rw [hp, Option.map_some, Option.map_some, at_token, at_token']
    exact .token htoken htoken'
  · obtain rfl : tokens = [] := by
      have moved := relocate_numbered tokens
      rw [none] at moved
      exact moved.symm
    rw [hp]
    exact .nowhere rfl (List.eq_nil_of_length_eq_zero length)
  · exact .unplaced

/-- Tokens of the same kinds are compiled alike. -/
theorem compile_alike (h : tokens.map (·.kind) = tokens'.map (·.kind)) :
    Alike tokens tokens' (compile strict record tokens).result (compile strict record tokens').result := by
  rw [compile_eq_numbered strict record tokens, compile_eq_numbered strict record tokens', ← h]
  cases he : (compile strict record (numbered (tokens.map (·.kind)))).result with
  | ok r => exact .ok r
  | error e =>
    refine .error ?_ ?_
    · rw [Error.unplaced_relocate, Error.unplaced_relocate]
    · rw [Error.position?_relocate, Error.position?_relocate]
      exact samePlace_of_numbered h he

theorem compile_trace_eq (h : tokens.map (·.kind) = tokens'.map (·.kind)) :
    (compile strict record tokens).trace? = (compile strict record tokens').trace? := by
  rw [compile_eq_numbered strict record tokens, compile_eq_numbered strict record tokens', h]

theorem Alike.eq_ok {outcome outcome' : Except Error CompiledClass} {r : CompiledClass}
    (h : Alike tokens tokens' outcome outcome') (hr : outcome = .ok r) : outcome' = .ok r := by
  cases h with
  | ok => exact hr
  | error => cases hr

/-- A text that is compiled is compiled to the same when its tokens are laid out in another way. -/
theorem compileUnitText_of_kinds {options : UnitOptions} {text text' : String} {compiled : Compiled}
    (h : tokens.map (·.kind) = tokens'.map (·.kind)) (hs : scan text = .ok tokens) (hs' : scan text' = .ok tokens')
    (hc : compileUnitText options text = .ok compiled) : compileUnitText options text' = .ok compiled := by
  obtain ⟨found, hscan, hresult, hlisting, htrace⟩ := compileUnitText_eq_ok_iff.mp hc
  obtain rfl : tokens = found := Except.ok.inj (hs.symm.trans hscan)
  rw [listing_congr h] at hlisting
  rw [compile_trace_eq h] at htrace
  exact compileUnitText_eq_ok_iff.mpr ⟨tokens', hs', (compile_alike h).eq_ok hresult, hlisting, htrace⟩

end

/-- Two token lists of the same kinds are compiled to the same class, or their errors say the same and stand at the tokens with
one number, or both nowhere; the rules that a recorder sees are the same in any case. So two source texts that are scanned to
the same kinds are compiled to the same code and the same trace, whatever their layout. -/
theorem places_reach_errors_only (tokens tokens' : List Token) (h : tokens.map (·.kind) = tokens'.map (·.kind)) :
    (∀ strict record,
      Alike tokens tokens' (compile strict record tokens).result (compile strict record tokens').result ∧
        (compile strict record tokens).trace? = (compile strict record tokens').trace?) ∧
    ∀ (options : UnitOptions) (text text' : String), scan text = .ok tokens → scan text' = .ok tokens' →
      ∀ compiled, compileUnitText options text = .ok compiled ↔ compileUnitText options text' = .ok compiled := by
  refine ⟨fun strict record => ⟨compile_alike h, compile_trace_eq h⟩, fun options text text' hs hs' compiled => ?_⟩
  exact ⟨compileUnitText_of_kinds h hs hs', compileUnitText_of_kinds h.symm hs' hs⟩

/-- The tokens of a function that returns what is not declared, at the given places. -/
def undeclaredAt (places : List Position) : List Token :=
  List.zipWith Token.mk
    [.keyword .«class», .identifier "A", .symbol '\x7b', .keyword .function, .keyword .int, .identifier "f", .symbol '(',
      .symbol ')', .symbol '\x7b', .keyword .«return», .identifier "x", .symbol ';', .symbol '\x7d', .symbol '\x7d']
    places

/-- The tokens in one row. -/
def undeclaredInRow : List Token :=
  undeclaredAt [⟨1, 1⟩, ⟨1, 7⟩, ⟨1, 9⟩, ⟨1, 11⟩, ⟨1, 20⟩, ⟨1, 24⟩, ⟨1, 25⟩, ⟨1, 26⟩, ⟨1, 28⟩, ⟨1, 30⟩, ⟨1, 37⟩, ⟨1, 38⟩,
    ⟨1, 40⟩, ⟨1, 42⟩]

/-- The tokens in four rows. -/
def undeclaredInRows : List Token :=
  undeclaredAt [⟨1, 1⟩, ⟨1, 7⟩, ⟨2, 1⟩, ⟨2, 3⟩, ⟨2, 12⟩, ⟨2, 16⟩, ⟨2, 17⟩, ⟨2, 18⟩, ⟨3, 1⟩, ⟨3, 3⟩, ⟨4, 4⟩, ⟨4, 5⟩, ⟨4, 7⟩,
    ⟨4, 9⟩]

/-- In two layouts of one text the error stands at the same token, and the same rules are begun before it. -/
theorem places_reach_errors_only_undeclared :
    scan "class A \x7b function int f() \x7b return x; \x7d \x7d" = .ok undeclaredInRow ∧
      scan "class A // one\n\x7b function int f()\n\x7b return\n   x; \x7d \x7d" = .ok undeclaredInRows ∧
      undeclaredInRow.map (·.kind) = undeclaredInRows.map (·.kind) ∧
      Alike undeclaredInRow undeclaredInRows (.error (.name (.undefined "x" (some ⟨1, 37⟩))))
        (.error (.name (.undefined "x" (some ⟨4, 4⟩)))) ∧
      (compile false true undeclaredInRow).trace? = (compile false true undeclaredInRows).trace? := by
  have inRow : (compile false true undeclaredInRow).result = .error (.name (.undefined "x" (some ⟨1, 37⟩))) := by
    decide +kernel
  have inRows : (compile false true undeclaredInRows).result = .error (.name (.undefined "x" (some ⟨4, 4⟩))) := by
    decide +kernel
  have kinds : undeclaredInRow.map (·.kind) = undeclaredInRows.map (·.kind) := rfl
  obtain ⟨alike, trace⟩ := (places_reach_errors_only undeclaredInRow undeclaredInRows kinds).1 false true
  rw [inRow, inRows] at alike
  exact ⟨by decide +kernel, by decide +kernel, kinds, alike, trace⟩

end JackCompiler
