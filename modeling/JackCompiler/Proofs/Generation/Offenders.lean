import JackCompiler.Proofs.Generation.StringConstants
import JackCompiler.Proofs.Grammar.Arguments
import JackCompiler.Proofs.Scanning.Shown

/-!
# What an error is about

Every error is about an item of the text, and which one is said without the place that the error carries: the token with
which no class goes on, the name that a step cannot resolve, declare or count, the first argument that is one too many
(`Blames`), or what a defect consists of (`Offends`). The item stands at the place of the error, where its line shows it. One
error points one argument too far: a call that works on an object has one argument less to spare, which the count does not
see (`BlamesNext`, `late_argument_shown`). Main statement: `errors_show_offenders`.
-/

namespace JackCompiler

/-- A step needs the variable that a name at a place stands for. -/
def Step.Uses (name : String) (p : Position) : Step → Prop
  | .read other q | .use other q | .element other q | .elementAddress other q | .assign other q => other = name ∧ q = p
  | _ => False

/-- The token that an error of compilation is about. -/
inductive Blames (strict : Bool) (tokens : List Token) : Error → Token → Prop
  /-- Some class begins with the tokens before, and none with those and the token. -/
  | unexpected {expected : String} {found : Token} {used rest : List Token} (ht : tokens = used ++ found :: rest)
    (hv : Viable used) (hn : ¬Viable (used ++ [found])) : Blames strict tokens (.grammar (.unexpectedToken expected found)) found
  /-- The tokens before are a class. -/
  | trailing {found : Token} {used rest : List Token} (ht : tokens = used ++ found :: rest) (hd : Derivable used) :
    Blames strict tokens (.grammar (.trailingToken found)) found
  /-- Some class begins with the tokens, the last of which it is, and they are none. -/
  | last {expected : String} {p : Position} {token : Token} (ht : tokens.getLast? = some token) (hv : Viable tokens)
    (hd : ¬Derivable tokens) : Blames strict tokens (.grammar (.unexpectedEnd expected p)) token
  /-- A variable with its name is needed and not declared. -/
  | undefined {g : Generator} {step : Step} {name : String} {p : Position} {place : Option Position}
    (ht : ⟨.identifier name, p⟩ ∈ tokens) (hs : ComesTo strict tokens g step) (hu : step.Uses name p)
    (hl : g.table.lookup? name = none) : Blames strict tokens (.name (.undefined name place)) ⟨.identifier name, p⟩
  /-- It is declared, and its scope holds its name. -/
  | redeclared {g : Generator} {kind : VariableKind} {type name : String} {p : Position} {place : Option Position}
    (ht : ⟨.identifier name, p⟩ ∈ tokens) (hs : ComesTo strict tokens g (.declare kind type name p))
    (hd : g.table.isDefinedInScope name kind = true) :
    Blames strict tokens (.name (.redeclared name place)) ⟨.identifier name, p⟩
  /-- It is declared, and as many variables of its kind are as can be counted. -/
  | variable {g : Generator} {kind : VariableKind} {type name : String} {p : Position} {place : Option Position}
    (ht : ⟨.identifier name, p⟩ ∈ tokens) (hs : ComesTo strict tokens g (.declare kind type name p))
    (hc : g.table.count kind = SymbolTable.maxCount) :
    Blames strict tokens (.name (.tooMany (.variablesOf kind) name place)) ⟨.identifier name, p⟩
  /-- It begins the first argument of a call, counted with the object if the call works on one, that is one too many. -/
  | argument {g : Generator} {callee : Callee} {number : Nat} {token : Token} {place p : Option Position}
    (hb : BeginsArgument tokens callee number token)
    (hs : ComesTo strict tokens g (.argument callee (maxArguments + 1) p))
    (hn : number + (g.receiverCode callee).length = maxArguments + 1) :
    Blames strict tokens (.name (.tooMany .arguments (g.target callee) place)) token

/-- An error of a call that works on an object is about an argument, and the token begins the one after it. -/
def BlamesNext (strict : Bool) (tokens : List Token) (e : Error) (token : Token) : Prop :=
  ∃ g callee place, ComesTo strict tokens g (.argument callee (maxArguments + 1) place) ∧
    g.receiverCode callee ≠ [] ∧ BeginsArgument tokens callee (maxArguments + 1) token ∧
    e = .name (.tooMany .arguments (g.target callee) place)

/-- The item that an error of a text is about, and where it stands: where the text halts at a defect, what the defect
consists of, and else the spelling of the token that the error of compilation is about. -/
inductive Offends (strict : Bool) (text : String) : Error → List Char → Position → Prop
  | characters {halt : Halt} {cause : LexError} (hh : halt.Of text.toList)
    (hd : Defect (.behind halt.before) halt.rest cause) : Offends strict text (.lex cause) cause.item cause.position
  | token {tokens : List Token} {e : Error} {token : Token} {spelling : List Char} (hs : scan text = .ok tokens)
    (hb : Blames strict tokens e token) (hp : token.SpelltBy text.toList spelling) :
    Offends strict text e spelling token.position

/-- The item after the one that an error of a text is about: the spelling of the token that begins the next argument. -/
def OffendsNext (strict : Bool) (text : String) (e : Error) (item : List Char) (p : Position) : Prop :=
  ∃ tokens token, scan text = .ok tokens ∧ BlamesNext strict tokens e token ∧ token.SpelltBy text.toList item ∧
    token.position = p

/-! ## Where a generator stops -/

namespace Generator

variable {g h : Generator} {steps before before' later later' : List Step} {step step' : Step} {e e' : Error}

/-- A run that gets through gets through each of its steps. -/
theorem exists_of_mem_of_follow (hf : g.follow steps = .ok h) (hs : step ∈ steps) :
    ∃ before after : Generator, before.step step = .ok after := by
  obtain ⟨first, others, rfl⟩ := List.append_of_mem hs
  obtain ⟨before, -, hf⟩ := follow_append.mp hf
  obtain ⟨after, hs, -⟩ := follow_cons.mp hf
  exact ⟨before, after, hs⟩

/-- A run does not get past a step that fails. -/
theorem follow_append_of_error (hb : g.follow before = .ok h) (he : h.step step = .error e) :
    g.follow (before ++ step :: later) = .error e := by
  rw [follow_append_of_ok hb, follow, he]

/-- A run comes to one step only that fails. -/
theorem stop_eq {h' : Generator} (hs : before ++ step :: later = before' ++ step' :: later') (hb : g.follow before = .ok h)
    (he : h.step step = .error e) (hb' : g.follow before' = .ok h') (he' : h'.step step' = .error e') :
    step = step' ∧ h = h' := by
  have notPast {before before' more : List Step} {step : Step} {h h' : Generator} {e : Error}
      (hb : g.follow before = .ok h) (he : h.step step = .error e) (hb' : g.follow before' = .ok h') :
      before' ≠ before ++ step :: more := by
    rintro rfl
    rw [follow_append_of_error hb he] at hb'
    cases hb'
  rcases List.append_eq_append_iff.mp hs with ⟨more, hbefore, hlater⟩ | ⟨more, hbefore, hlater⟩
  · cases more with
    | nil =>
      rw [List.append_nil] at hbefore
      subst hbefore
      rw [hb] at hb'
      exact ⟨(List.cons.inj hlater).1, Except.ok.inj hb'⟩
    | cons first more =>
      obtain ⟨rfl, -⟩ := List.cons.inj hlater
      exact absurd hbefore (notPast hb he hb')
  · cases more with
    | nil =>
      rw [List.append_nil] at hbefore
      subst hbefore
      rw [hb] at hb'
      exact ⟨(List.cons.inj hlater).1.symm, Except.ok.inj hb'⟩
    | cons first more =>
      obtain ⟨rfl, -⟩ := List.cons.inj hlater
      exact absurd hbefore (notPast hb' he' hb)

end Generator

section

variable {strict record : Bool} {tokens : List Token} {g : Generator} {step : Step} {e : Error} {p : Position}

/-- Compiling fails with the error of a step that a generator comes to. -/
theorem ComesTo.compile_eq (h : ComesTo strict tokens g step) (he : g.step step = .error e) :
    (compile strict record tokens).result = .error e := by
  obtain ⟨before, later, hs, hb⟩ := h
  simp only [compile, Generator.run_eq_follow, hs, Generator.follow_append_of_error hb he]

/-- A generator comes to one step only that fails. -/
theorem ComesTo.stop_eq {g' : Generator} {step' : Step} {e' : Error} (h : ComesTo strict tokens g step)
    (he : g.step step = .error e) (h' : ComesTo strict tokens g' step') (he' : g'.step step' = .error e') :
    step = step' ∧ g = g' := by
  obtain ⟨before, later, hs, hb⟩ := h
  obtain ⟨before', later', hs', hb'⟩ := h'
  exact Generator.stop_eq (hs.symm.trans hs') hb he hb' he'

/-- Where a generator comes to an argument that is one too many, it is the first that the count of arguments does not take. -/
theorem ComesTo.number_eq {callee : Callee} {number : Nat} {place : Option Position}
    (h : ComesTo strict tokens g (.argument callee number place)) (hn : maxArguments < number) :
    number = maxArguments + 1 ∧ ∃ token, place = some token.position ∧ BeginsArgument tokens callee number token := by
  obtain ⟨before, later, hs, hb⟩ := h
  obtain ⟨begins, numbered⟩ := marked_of_readClass tokens before _ later hs
  refine ⟨?_, begins⟩
  rcases numbered with hone | ⟨q, hq⟩
  · rw [maxArguments] at hn
    omega
  · obtain ⟨_, _, passed⟩ := Generator.exists_of_mem_of_follow hb hq
    simp only [Generator.step] at passed
    split at passed
    · omega
    · cases passed

/-- A step that fails in a place, and not on a string constant, is about the token there, or about the argument before. -/
theorem ComesTo.blames (h : ComesTo strict tokens g step) (he : g.step step = .error e) (hp : e.position? = some p)
    (hlex : ∀ cause, e ≠ .lex cause) :
    ∃ token ∈ tokens, token.position = p ∧ (Blames strict tokens e token ∨ BlamesNext strict tokens e token) := by
  have standsIn := standsIn_of_readClass tokens step h.mem
  have named {name : String} {q : Position} {code : Variable → List Vm.Instruction}
      (ht : ⟨.identifier name, q⟩ ∈ tokens) (hu : step.Uses name q) (he : g.emitWith name q code = .error e) :
      ∃ token ∈ tokens, token.position = p ∧ (Blames strict tokens e token ∨ BlamesNext strict tokens e token) := by
    obtain ⟨hl, rfl⟩ := Generator.error_of_emitWith he
    cases hp
    exact ⟨_, ht, rfl, .inl (.undefined ht h hu hl)⟩
  cases step with
  | read | use | element | elementAddress | assign => exact named standsIn ⟨rfl, rfl⟩ he
  | declare kind type name q =>
    rcases Generator.error_of_declare he with ⟨hd, rfl⟩ | ⟨hc, rfl⟩
    · cases hp
      exact ⟨_, standsIn, rfl, .inl (.redeclared standsIn h hd)⟩
    · cases hp
      exact ⟨_, standsIn, rfl, .inl (.variable standsIn h hc)⟩
  | beginSubroutine kind => exact absurd he (Generator.beginSubroutine_ne_error kind)
  | string body q =>
    simp only [Generator.step] at he
    split at he <;> cases he
    exact absurd rfl (hlex _)
  | argument callee number place =>
    simp only [Generator.step] at he
    split at he <;> cases he
    next hn =>
    obtain ⟨rfl, token, rfl, begins⟩ := h.number_eq (Nat.lt_of_not_le hn)
    cases hp
    have ht : token ∈ tokens := by
      obtain ⟨used, rest, rfl, -⟩ := begins
      exact List.mem_append_right used List.mem_cons_self
    refine ⟨token, ht, rfl, ?_⟩
    rcases Generator.receiverCode_length g callee with none | one
    · exact .inl (.argument begins h (by rw [none, List.length_nil]))
    · refine .inr ⟨g, callee, _, h, ?_, begins, rfl⟩
      intro none
      rw [none] at one
      cases one
  | «call» callee n =>
    simp only [Generator.step] at he
    split at he <;> cases he
    cases hp
  | _ => cases he

/-- An error in the order of tokens is about the token at its place. -/
theorem blames_of_readClass {cause : GrammarError} (h : (readClass tokens).error? = some cause) (hne : tokens ≠ []) :
    ∃ token ∈ tokens, token.position = cause.position ∧ Blames strict tokens (.grammar cause) token := by
  cases cause with
  | trailingToken found =>
    obtain ⟨used, rest, ht, hd⟩ := exists_derivable_of_trailing h
    refine ⟨found, ?_, rfl, .trailing ht hd⟩
    rw [ht]
    exact List.mem_append_right used List.mem_cons_self
  | unexpectedToken expected found =>
    obtain ⟨used, rest, expected', ht, he, hs⟩ := stopsAfter_of_readClass h (by rintro _ ⟨⟩)
    obtain ⟨rest, rfl⟩ : ∃ others, rest = found :: others := by
      cases rest <;> cases he
      exact ⟨_, rfl⟩
    refine ⟨found, ?_, rfl, .unexpected ht hs.viable ?_⟩
    · rw [ht]
      exact List.mem_append_right used List.mem_cons_self
    · rintro ⟨later, hd⟩
      rw [List.append_assoc] at hd
      exact hs.not_derivable (found :: later) rfl hd
  | unexpectedEnd expected q =>
    obtain ⟨used, rest, expected', ht, he, hs⟩ := stopsAfter_of_readClass h (by rintro _ ⟨⟩)
    obtain ⟨rfl, rfl⟩ : rest = [] ∧ q = Token.endPosition tokens := by
      cases rest <;> cases he
      exact ⟨rfl, rfl⟩
    rw [List.append_nil] at ht
    subst ht
    have incomplete : ¬Derivable tokens := by simpa using hs.not_derivable [] rfl
    have last : tokens.getLast? = some (tokens.getLast hne) := List.getLast?_eq_some_getLast hne
    refine ⟨_, List.getLast_mem hne, ?_, .last last hs.viable incomplete⟩
    rw [GrammarError.position, Token.endPosition, last]
    rfl

/-- An error of compilation that has a place is about the token there, or about the argument before. -/
theorem blames_of_compile (h : (compile strict record tokens).result = .error e) (hp : e.position? = some p)
    (hne : tokens ≠ []) (hlex : ∀ cause, e ≠ .lex cause) :
    ∃ token ∈ tokens, token.position = p ∧ (Blames strict tokens e token ∨ BlamesNext strict tokens e token) := by
  rcases cause_of_compile h with ⟨g, step, comes, he⟩ | ⟨cause, hc, rfl⟩
  · exact comes.blames he hp hlex
  · cases hp
    obtain ⟨token, ht, hq, blamed⟩ := blames_of_readClass hc hne
    exact ⟨token, ht, hq, .inl blamed⟩

end

/-- Arguments that begin at one position have one number. -/
theorem BeginsArgument.number_eq {text : String} {callee callee' : Callee} {number number' : Nat} {token token' : Token}
    (hscan : scan text = .ok tokens) (h : BeginsArgument tokens callee number token)
    (h' : BeginsArgument tokens callee' number' token') (hp : token.position = token'.position) : number = number' := by
  obtain ⟨used, rest, ht, leads⟩ := h
  obtain ⟨used', rest', ht', leads'⟩ := h'
  have here : tokens[used.length]? = some token := by simp [ht]
  have here' : tokens[used'.length]? = some token' := by simp [ht']
  obtain ⟨rfl, -⟩ := List.append_inj (ht.symm.trans ht') (eq_of_position_eq hscan here here' hp)
  exact leads.number_eq leads'

/-! ## Main statement -/

/-- An error of a text that has a token, or cannot be scanned, shows what it is about: the text has a line with the number of
its row, that line has a character in its column, and there begins the item. Only the error of a call that works on an
object, and has more arguments than can be counted without it, shows the argument after the one that it is about. -/
theorem errors_show_offenders {strict : Bool} {text : String} {e : Error} {p : Position}
    (h : compileText strict text = .error e) (hp : e.position? = some p) (hne : scan text ≠ .ok []) :
    ∃ item, ShownAt text.toList item p ∧ (Offends strict text e item p ∨ OffendsNext strict text e item p) := by
  unfold compileText at h
  split at h
  · next tokens hscan =>
    have hlex (cause : LexError) : e ≠ .lex cause := by
      rintro rfl
      obtain ⟨token, ht, large⟩ := exists_string_of_compile h
      exact large (pushable_of_scan hscan token ht)
    have some' : tokens ≠ [] := by
      rintro rfl
      exact hne hscan
    obtain ⟨token, ht, rfl, blamed⟩ := blames_of_compile h hp some' hlex
    obtain ⟨spelling, spelt⟩ := exists_spelling_of_scan hscan ht
    refine ⟨spelling, spelt.itemAt.shownAt spelt.isVisible, ?_⟩
    rcases blamed with blamed | next
    · exact .inl (.token hscan blamed spelt)
    · exact .inr ⟨tokens, token, hscan, next, spelt, rfl⟩
  · next cause hscan =>
    cases h
    cases hp
    obtain ⟨halt, hh, hd⟩ := exists_defect_of_scan hscan
    exact ⟨cause.item, (hh.itemAt hd).shownAt hd.isVisible, .inl (.characters hh hd)⟩

/-- A name that is not declared is shown in the second row. In another text a comment goes over two rows, a carriage return
stands in front of a newline, and the quote is shown of a string constant that breaks off. In the third the token is shown
that no class goes on with. -/
theorem errors_show_offenders_samples :
    let undeclared := "class A \x7b function int f() \x7b\n  return x; \x7d \x7d"
    let open' := "/* \n é */ class\r\n  \"A\r\n"
    let early := "class A ;"
    (compileText false undeclared = .error (.name (.undefined "x" (some ⟨2, 10⟩))) ∧
      ∃ item, ShownAt undeclared.toList item ⟨2, 10⟩ ∧
        Offends false undeclared (.name (.undefined "x" (some ⟨2, 10⟩))) item ⟨2, 10⟩) ∧
    (compileText false open' = .error (.lex (.unterminatedString ⟨3, 3⟩)) ∧
      ∃ item, ShownAt open'.toList item ⟨3, 3⟩ ∧ Offends false open' (.lex (.unterminatedString ⟨3, 3⟩)) item ⟨3, 3⟩) ∧
    ∃ e, compileText true early = .error e ∧
      ∃ item, ShownAt early.toList item ⟨1, 9⟩ ∧ Offends true early e item ⟨1, 9⟩ := by
  intro undeclared open' early
  have shown {strict : Bool} {text : String} {e : Error} {p : Position} (h : compileText strict text = .error e)
      (hp : e.position? = some p) (hne : scan text ≠ .ok [])
      (he : ∀ name place, e ≠ .name (.tooMany .arguments name place)) :
      ∃ item, ShownAt text.toList item p ∧ Offends strict text e item p := by
    obtain ⟨item, shown, offends | ⟨tokens, token, -, ⟨g, callee, place, -, -, -, rfl⟩, -⟩⟩ := errors_show_offenders h hp hne
    · exact ⟨item, shown, offends⟩
    · exact absurd rfl (he _ _)
  have first : compileText false undeclared = .error (.name (.undefined "x" (some ⟨2, 10⟩))) := by decide +kernel
  have second : compileText false open' = .error (.lex (.unterminatedString ⟨3, 3⟩)) := by decide +kernel
  have third : compileText true early = .error (.grammar (.unexpectedToken "'\x7b'" ⟨.symbol ';', ⟨1, 9⟩⟩)) := by
    decide +kernel
  exact ⟨⟨first, shown first rfl (by decide +kernel) nofun⟩, ⟨second, shown second rfl (by decide +kernel) nofun⟩,
    _, third, shown third rfl (by decide +kernel) nofun⟩

/-! ## The argument after -/

theorem argumentSteps_concat (callee : Callee) (count : Nat) (es : List Expression) (e : Expression) :
    argumentSteps callee count (es ++ [e]) =
      argumentSteps callee count es ++ during .expression e.chainSteps ++
        [.argument callee (count + es.length + 1) (some .nowhere)] := by
  induction es generalizing count with
  | nil => simp [argumentSteps]
  | cons first es ih =>
    rw [List.cons_append, argumentSteps, argumentSteps, ih]
    simp [Nat.add_assoc, Nat.add_comm 1]

/-- A generator gets through as many arguments of the call as can be counted, and comes to one more. -/
theorem crowded_argument_reached (strict : Bool) :
    ∃ (before later : List Step) (g : Generator),
      (crowdedClass 65536).steps = before ++ .argument (.own "run") 65536 (some .nowhere) :: later ∧
        Generator.follow { strict } before = .ok g := by
  obtain ⟨later, hsteps⟩ := crowdedClass_steps 65536
  obtain ⟨_, through, -⟩ := crowded_call_fails strict
  obtain ⟨g, through, -⟩ := Generator.follow_append.mp through
  have count : List.replicate 65536 (Expression.term (.integer 0)) =
      List.replicate 65535 (.term (.integer 0)) ++ [.term (.integer 0)] := List.replicate_succ'
  have zero : ∃ h, g.follow (during .expression (Expression.term (.integer 0)).chainSteps) = .ok h := ⟨_, rfl⟩
  obtain ⟨h, zero⟩ := zero
  refine ⟨crowdedHead ++ argumentSteps (.own "run") 0 (List.replicate 65535 (.term (.integer 0))) ++
    during .expression (Expression.term (.integer 0)).chainSteps, .leave .expressionList :: .call (.own "run") 65536 :: later,
    h, ?_, (Generator.follow_append_of_ok through).trans zero⟩
  rw [hsteps, count, argumentSteps_concat, List.length_replicate]
  simp only [List.append_assoc, List.cons_append, List.nil_append]

/-- What steps without their places lead to, the steps do. -/
theorem exists_comesTo_of_relocate {f : Position → Position} {strict : Bool} {tokens : List Token} {g : Generator}
    {before later : List Step} {callee : Callee} {number : Nat} {place : Option Position}
    (hs : (readClass tokens).steps.map (Step.relocate f) = before ++ .argument callee number place :: later)
    (hb : Generator.follow { strict } before = .ok g) : ∃ q, ComesTo strict tokens g (.argument callee number q) := by
  obtain ⟨first, others, hsteps, rfl, ho⟩ := List.map_eq_append_iff.mp hs
  obtain ⟨step, others, rfl, hstep, -⟩ := List.map_eq_cons_iff.mp ho
  rw [Generator.follow_relocate] at hb
  cases step <;> simp only [Step.relocate, reduceCtorEq, Step.argument.injEq] at hstep
  obtain ⟨rfl, rfl, -⟩ := hstep
  exact ⟨_, first, others, hsteps, hb⟩

theorem Blames.exists_argument {strict : Bool} {tokens : List Token} {name : String} {place : Option Position}
    {token : Token} (h : Blames strict tokens (.name (.tooMany .arguments name place)) token) :
    ∃ g callee number p, BeginsArgument tokens callee number token ∧
      ComesTo strict tokens g (.argument callee (maxArguments + 1) p) ∧
      number + (g.receiverCode callee).length = maxArguments + 1 := by
  cases h with
  | argument begins reached hn => exact ⟨_, _, _, _, begins, reached, hn⟩

/-- A call of a method of the same class that is written with one argument more than can be counted has two too many, its
object counted in; the error shows the second of these. -/
theorem late_argument_shown :
    ¬∀ (strict : Bool) (text : String) (e : Error) (p : Position), compileText strict text = .error e →
      e.position? = some p → scan text ≠ .ok [] →
      ∃ item, ShownAt text.toList item p ∧ Offends strict text e item p := by
  intro shown
  obtain ⟨tokens, hscan, hkinds⟩ := scan_written (crowdedClass_writable 65535)
  obtain ⟨before, later, g, hsteps, hb⟩ := crowded_argument_reached false
  obtain ⟨place, reached⟩ := exists_comesTo_of_relocate ((readClass_of_kinds hkinds.symm).1.trans hsteps) hb
  obtain ⟨-, token, rfl, begins⟩ := reached.number_eq (by decide)
  have failed : g.step (.argument (.own "run") 65536 (some token.position)) =
      .error (.name (.tooMany .arguments (g.target (.own "run")) (some token.position))) := rfl
  have compiled : compileText false (String.ofList (written (crowdedClass 65536).kinds)) =
      .error (.name (.tooMany .arguments (g.target (.own "run")) (some token.position))) := by
    rw [compileText, hscan]
    exact reached.compile_eq failed
  have some' : scan (String.ofList (written (crowdedClass 65536).kinds)) ≠ .ok [] := by
    obtain ⟨used, rest, rfl, -⟩ := begins
    rw [hscan]
    simp
  obtain ⟨item, -, offends⟩ := shown _ _ _ _ compiled rfl some'
  generalize he : Error.name (.tooMany .arguments (g.target (.own "run")) (some token.position)) = e at offends
  generalize hp : token.position = p at offends
  cases offends with
  | characters => cases he
  | @token tokens' _ token' spelling hscan' blamed spelt =>
    rw [hscan] at hscan'
    cases hscan'
    subst he
    obtain ⟨g', callee, number', place, begins', reached', hn⟩ := blamed.exists_argument
    obtain ⟨same, rfl⟩ := reached.stop_eq failed reached' rfl
    obtain rfl : Callee.own "run" = callee := (Step.argument.inj same).1
    have number := begins.number_eq hscan begins' hp
    rw [← number, Generator.receiverCode, List.length_singleton] at hn
    cases hn

end JackCompiler
