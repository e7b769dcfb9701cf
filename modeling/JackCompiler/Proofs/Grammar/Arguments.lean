import JackCompiler.Proofs.Generation.Located

/-!
# Where arguments begin

A step about an argument of a call carries a number and a place. Both are right: the place is that of the token that the
argument begins with, and in front of it stand the callee, the parenthesis, and one argument less than the number, each with
its comma (`BeginsArgument`); a step about the argument before it was taken earlier (`Numbered`). The goals of a walk that
speak of a call remember what was read of it (`Goal.Follows`); goals that stand further back do so once those in front of
them are met (`Fits`), and every move keeps that. The number depends on the tokens alone: it is that of the commas behind the
innermost open parenthesis (`LeadsToArgument.number_eq`). Main statement: `marked_of_readClass`.
-/

namespace JackCompiler

/-- Kinds of tokens that lead up to the argument of a call with the given number: the callee, the parenthesis, and the
arguments before, each with a comma behind it. -/
def LeadsToArgument (callee : Callee) (number : Nat) (kinds : List TokenKind) : Prop :=
  ∃ (earlier : List TokenKind) (others : List Expression), others.length + 1 = number ∧
    kinds = earlier ++ callee.kinds ++ .symbol '(' :: others.flatMap fun other => other.kinds ++ [.symbol ',']

/-- The argument of a call with the given number begins at a token. -/
def BeginsArgument (tokens : List Token) (callee : Callee) (number : Nat) (token : Token) : Prop :=
  ∃ used rest, tokens = used ++ token :: rest ∧ LeadsToArgument callee number (used.map (·.kind))

/-- Among steps there is one about the argument of a call with the given number, if any argument has it. -/
def Numbered (done : List Step) (callee : Callee) (number : Nat) : Prop :=
  number = 0 ∨ ∃ place, .argument callee number place ∈ done

/-- If a step is about an argument, its place is that of the token that the argument with its number begins at, and there was
a step about the argument before. -/
def Step.Marks (tokens : List Token) (done : List Step) : Step → Prop
  | .argument callee number place =>
    (∃ token, place = some token.position ∧ BeginsArgument tokens callee number token) ∧ Numbered done callee (number - 1)
  | _ => True

/-! ## The number of an argument -/

/-- The commas read behind each parenthesis or bracket that is open, the innermost first. -/
def countCommas (levels : List Nat) : TokenKind → List Nat
  | .symbol c =>
    if c = '(' || c = '[' then 0 :: levels
    else if c = ')' || c = ']' then levels.tail
    else if c = ',' then levels.modifyHead (· + 1)
    else levels
  | _ => levels

@[simp] theorem countCommas_open (levels : List Nat) : countCommas levels (.symbol '(') = 0 :: levels := rfl

@[simp] theorem countCommas_openBracket (levels : List Nat) : countCommas levels (.symbol '[') = 0 :: levels := rfl

@[simp] theorem countCommas_close (n : Nat) (levels : List Nat) : countCommas (n :: levels) (.symbol ')') = levels := rfl

@[simp] theorem countCommas_closeBracket (n : Nat) (levels : List Nat) :
    countCommas (n :: levels) (.symbol ']') = levels := rfl

@[simp] theorem countCommas_comma (n : Nat) (levels : List Nat) :
    countCommas (n :: levels) (.symbol ',') = (n + 1) :: levels := rfl

@[simp] theorem countCommas_identifier (levels : List Nat) (name : String) :
    countCommas levels (.identifier name) = levels := rfl

@[simp] theorem countCommas_binary (levels : List Nat) (operator : BinaryOperator) :
    countCommas levels (.symbol operator.symbol) = levels := by
  cases operator <;> rfl

@[simp] theorem countCommas_unary (levels : List Nat) (operator : UnaryOperator) :
    countCommas levels (.symbol operator.symbol) = levels := by
  cases operator <;> rfl

@[simp] theorem foldl_calleeKinds (levels : List Nat) (callee : Callee) :
    callee.kinds.foldl countCommas levels = levels := by
  cases callee <;> rfl

mutual

/-- An expression closes whatever it opens, and its commas stand in between. -/
theorem Expression.foldl_kinds : ∀ (e : Expression) (levels : List Nat), e.kinds.foldl countCommas levels = levels
  | .term t, levels => t.foldl_kinds levels
  | .binary left operator right, levels => by
    rw [Expression.kinds, List.foldl_append, left.foldl_kinds, List.foldl_cons, countCommas_binary, right.foldl_kinds]

theorem Term.foldl_kinds : ∀ (t : Term) (levels : List Nat), t.kinds.foldl countCommas levels = levels
  | .integer _, _ | .string _, _ | .constant _, _ | .variable _, _ => rfl
  | .element name index, levels => by simp [Term.kinds, index.foldl_kinds]
  | .call callee arguments, levels => by
    obtain ⟨count, h⟩ := foldl_argumentKinds arguments 0 levels
    simp [Term.kinds, h]
  | .parenthesized inner, levels => by simp [Term.kinds, inner.foldl_kinds]
  | .unary operator operand, levels => by simp [Term.kinds, operand.foldl_kinds]

theorem foldl_argumentKinds : ∀ (es : List Expression) (n : Nat) (levels : List Nat),
    ∃ count, (argumentKinds es).foldl countCommas (n :: levels) = count :: levels
  | [], n, _ => ⟨n, rfl⟩
  | e :: es, n, levels => by
    rw [argumentKinds, List.foldl_append, e.foldl_kinds]
    exact foldl_moreArgumentKinds es n levels

theorem foldl_moreArgumentKinds : ∀ (es : List Expression) (n : Nat) (levels : List Nat),
    ∃ count, (moreArgumentKinds es).foldl countCommas (n :: levels) = count :: levels
  | [], n, _ => ⟨n, rfl⟩
  | e :: es, n, levels => by
    rw [moreArgumentKinds, List.cons_append, List.foldl_cons, countCommas_comma, List.foldl_append, e.foldl_kinds]
    exact foldl_moreArgumentKinds es (n + 1) levels

end

theorem foldl_others (others : List Expression) (n : Nat) (levels : List Nat) :
    (others.flatMap fun other => other.kinds ++ [.symbol ',']).foldl countCommas (n :: levels) =
      (n + others.length) :: levels := by
  induction others generalizing n with
  | nil => rfl
  | cons other others ih =>
    rw [List.flatMap_cons, List.foldl_append, List.foldl_append, other.foldl_kinds, List.foldl_cons, countCommas_comma,
      List.foldl_nil, ih, List.length_cons, Nat.add_assoc, Nat.add_comm 1]

section

variable {callee callee' : Callee} {number number' : Nat} {kinds : List TokenKind} {e : Expression}

/-- The commas behind the innermost open parenthesis are as many as there are arguments before. -/
theorem LeadsToArgument.exists_levels (h : LeadsToArgument callee number kinds) :
    ∃ count levels, number = count + 1 ∧ kinds.foldl countCommas [] = count :: levels := by
  obtain ⟨earlier, others, rfl, rfl⟩ := h
  refine ⟨others.length, earlier.foldl countCommas [], rfl, ?_⟩
  rw [List.foldl_append, List.foldl_append, foldl_calleeKinds, List.foldl_cons, countCommas_open, foldl_others, Nat.zero_add]

/-- Tokens lead up to an argument with one number at most. -/
theorem LeadsToArgument.number_eq (h : LeadsToArgument callee number kinds) (h' : LeadsToArgument callee' number' kinds) :
    number = number' := by
  obtain ⟨count, levels, rfl, hl⟩ := h.exists_levels
  obtain ⟨count', levels', rfl, hl'⟩ := h'.exists_levels
  rw [hl] at hl'
  rw [(List.cons.inj hl').1]

/-- The first argument stands behind the parenthesis. -/
theorem leadsToArgument_one (earlier : List TokenKind) (callee : Callee) :
    LeadsToArgument callee 1 (earlier ++ callee.kinds ++ [.symbol '(']) :=
  ⟨earlier, [], rfl, by simp⟩

/-- The next argument stands behind the comma after an argument. -/
theorem LeadsToArgument.next (h : LeadsToArgument callee number kinds) (e : Expression) :
    LeadsToArgument callee (number + 1) (kinds ++ e.kinds ++ [.symbol ',']) := by
  obtain ⟨earlier, others, rfl, rfl⟩ := h
  exact ⟨earlier, others ++ [e], by simp, by simp⟩

end

/-! ## What goals remember -/

/-- What a goal remembers of the kinds of tokens that were read before it and the steps that were taken. -/
def Goal.Follows (tokens : List Token) (before : List TokenKind) (done : List Step) : Goal → Prop
  | .emit step => step.Marks tokens done
  | .reference name _ | .call name => ∃ earlier, before = earlier ++ [.identifier name]
  | .qualifiedCall qualifier => ∃ earlier, before = earlier ++ [.identifier qualifier, .symbol '.']
  | .arguments callee => LeadsToArgument callee 1 before
  | .argument callee count => LeadsToArgument callee (count + 1) before ∧ Numbered done callee count
  | .moreArguments callee count =>
    LeadsToArgument callee (count + 1) (before ++ [.symbol ',']) ∧ Numbered done callee count
  | _ => True

/-- Whether a goal has to do with a call that was begun, so that it has something to remember. -/
def Goal.speaksOfCall : Goal → Bool
  | .emit (.argument ..) | .reference .. | .call .. | .qualifiedCall .. | .arguments .. | .argument .. | .moreArguments .. =>
    true
  | _ => false

/-- Goals remember rightly what was read and done: the first one, and the others after whatever meets those in front. -/
def Fits (tokens : List Token) : List TokenKind → List Step → List Goal → Prop
  | _, _, [] => True
  | before, done, goal :: goals =>
    goal.Follows tokens before done ∧
      ∀ ks ss, goal.unplaced.Reads ks ss → Fits tokens (before ++ ks) (done ++ ss) goals

section

variable {tokens used rest : List Token} {before : List TokenKind} {done : List Step} {goal : Goal} {goals new : List Goal}
  {token : Token}

/-- Goals fit in front of others when those fit whatever meets them. -/
theorem Fits.append (hn : Fits tokens before done new)
    (hg : ∀ ks ss, Goal.ReadsAll (new.map Goal.unplaced) ks ss → Fits tokens (before ++ ks) (done ++ ss) goals) :
    Fits tokens before done (new ++ goals) := by
  induction new generalizing before done with
  | nil => simpa using hg [] [] ⟨rfl, rfl⟩
  | cons first new ih =>
    refine ⟨hn.1, fun ks ss hr => ih (hn.2 ks ss hr) fun ks' ss' hr' => ?_⟩
    rw [List.append_assoc, List.append_assoc]
    exact hg _ _ ⟨ks, ks', ss, ss', rfl, rfl, hr, hr'⟩

/-- A goal that has to do with no call has nothing to remember. -/
theorem follows_of_not_speaksOfCall (h : goal.speaksOfCall = false) : goal.Follows tokens before done := by
  cases goal with
  | emit step =>
    cases step with
    | argument => cases h
    | _ => trivial
  | reference | «call» | qualifiedCall | arguments | argument | moreArguments => cases h
  | _ => trivial

/-- Goals that have nothing to remember fit everywhere. -/
theorem fits_of_all (h : new.all (!·.speaksOfCall) = true) : Fits tokens before done new := by
  induction new generalizing before done with
  | nil => trivial
  | cons first new ih =>
    rw [List.all_cons, Bool.and_eq_true, Bool.not_eq_true'] at h
    exact ⟨follows_of_not_speaksOfCall h.1, fun ks ss _ => ih h.2⟩

theorem fits_singleton (h : goal.Follows tokens before done) : Fits tokens before done [goal] :=
  ⟨h, fun _ _ _ => trivial⟩

/-- The goals after a callee fit behind it. -/
theorem fits_callOf {callee : Callee} {earlier : List TokenKind} (h : before = earlier ++ callee.kinds) :
    Fits tokens before done (Goal.callOf callee) := by
  subst h
  refine ⟨trivial, fun ks ss hr => ⟨trivial, fun ks' ss' hr' => ⟨trivial, fun ks'' ss'' hr'' => fits_singleton ?_⟩⟩⟩
  obtain ⟨rfl, -⟩ := hr
  obtain ⟨rfl, -⟩ := hr'
  obtain ⟨rfl, -⟩ := hr''
  rw [List.append_nil, List.append_nil]
  exact leadsToArgument_one earlier callee

theorem not_speaksOfCall_statement {kind : TokenKind} (h : Goal.statement? kind = some new) :
    new.all (!·.speaksOfCall) = true := by
  unfold Goal.statement? at h
  split at h <;> cases h <;> rfl

/-- The goals that take the place of a goal with its token fit behind the token. -/
theorem fits_of_take (hf : goal.Follows tokens before done) (hm : goal.move (some token) = .take new) :
    Fits tokens (before ++ [token.kind]) done new := by
  obtain ⟨kind, p⟩ := token
  cases goal with
  | emit | expression | term | argument => cases hm
  | arguments =>
    simp only [Goal.move] at hm
    split at hm <;> cases hm
  | doCall =>
    obtain ⟨name, rfl, rfl⟩ := Goal.eq_of_takeName_take hm
    exact fits_singleton ⟨before, rfl⟩
  | qualifiedCall qualifier =>
    obtain ⟨name, rfl, rfl⟩ := Goal.eq_of_takeName_take hm
    obtain ⟨earlier, rfl⟩ := hf
    have callee : earlier ++ [.identifier qualifier, .symbol '.'] ++ [.identifier name] =
        earlier ++ (Callee.qualified qualifier name).kinds := by simp [Callee.kinds]
    exact fits_callOf callee
  | «call» name =>
    obtain ⟨rfl, rfl⟩ := Goal.eq_of_takeOptional_take hm
    obtain ⟨earlier, rfl⟩ := hf
    exact fits_singleton ⟨earlier, by simp⟩
  | moreArguments callee count =>
    obtain ⟨rfl, rfl⟩ := Goal.eq_of_takeOptional_take hm
    exact fits_singleton hf
  | operand =>
    simp only [Goal.move, Option.bind_some] at hm
    split at hm <;> cases hm
    next ho =>
    cases kind with
    | identifier name =>
      cases ho
      exact fits_singleton ⟨before, rfl⟩
    | keyword word =>
      simp only [Goal.operand?, Option.map_eq_some_iff] at ho
      obtain ⟨constant, -, rfl⟩ := ho
      exact fits_singleton trivial
    | symbol c =>
      simp only [Goal.operand?] at ho
      (repeat' split at ho) <;> cases ho <;>
        exact fits_of_all rfl
    | _ =>
      cases ho
      exact fits_singleton trivial
  | statements =>
    simp only [Goal.move] at hm
    split at hm <;> cases hm
    next hs =>
    obtain ⟨token, ht, hs⟩ := Option.bind_eq_some_iff.mp hs
    refine fits_of_all ?_
    rw [List.all_append, not_speaksOfCall_statement hs]
    rfl
  | reference name q =>
    simp only [Goal.move] at hm
    split at hm
    · cases hm
    · obtain ⟨rfl, rfl⟩ := Goal.eq_of_takeOptional_take hm
      exact fits_of_all rfl
  | _ =>
    refine fits_of_all ?_
    simp only [Goal.move, Goal.takeName, Goal.takeType, Goal.takeOptional] at hm
    (repeat' split at hm) <;> cases hm <;> rfl

/-- The goals that take the place of a goal fit where the goal does. -/
theorem fits_of_expand (ht : tokens = used ++ rest) (hf : goal.Follows tokens (used.map (·.kind)) done)
    (hm : goal.move rest.head? = .expand new) (hn : ∀ callee count, goal = .argument callee count → rest ≠ []) :
    Fits tokens (used.map (·.kind)) done new := by
  cases goal with
  | reference name p =>
    simp only [Goal.move] at hm
    split at hm
    · cases hm
      exact fits_singleton hf
    · obtain rfl := Goal.eq_of_takeOptional_expand hm
      exact fits_singleton trivial
  | «call» name =>
    obtain rfl := Goal.eq_of_takeOptional_expand hm
    obtain ⟨earlier, h⟩ := hf
    exact fits_callOf (h : _ = earlier ++ (Callee.own name).kinds)
  | arguments callee =>
    simp only [Goal.move] at hm
    split at hm <;> cases hm
    · exact fits_of_all rfl
    · exact fits_singleton ⟨hf, .inl rfl⟩
  | argument callee count =>
    cases hm
    cases rest with
    | nil => exact absurd rfl (hn callee count rfl)
    | cons token rest =>
      obtain ⟨leads, numbered⟩ := hf
      have earlier (ss : List Step) : Numbered (done ++ ss) callee count := by
        refine numbered.imp_right ?_
        rintro ⟨place, h⟩
        exact ⟨place, List.mem_append_left ss h⟩
      refine ⟨trivial, fun ks ss hr => ⟨⟨⟨token, rfl, used, rest, ht, leads⟩, earlier ss⟩, fun ks' ss' hr' =>
        fits_singleton ?_⟩⟩
      obtain ⟨e, rfl, -⟩ := hr
      obtain ⟨rfl, rfl⟩ := hr'
      rw [List.append_nil]
      exact ⟨leads.next e, .inr ⟨_, List.mem_append_right _ List.mem_cons_self⟩⟩
  | moreArguments callee count =>
    obtain rfl := Goal.eq_of_takeOptional_expand hm
    exact fits_of_all rfl
  | _ =>
    refine fits_of_all ?_
    simp only [Goal.move, Goal.takeName, Goal.takeType, Goal.takeOptional] at hm
    (repeat' split at hm) <;> cases hm <;> rfl

/-! ## Walks -/

/-- A move that takes a token keeps goals fitting. -/
theorem Fits.take (h : Fits tokens before done (goal :: goals)) (hm : goal.move (some token) = .take new) :
    Fits tokens (before ++ [token.kind]) done (new ++ goals) := by
  have move : goal.unplaced.move (some ⟨token.kind, .nowhere⟩) = .take (new.map Goal.unplaced) := by
    have moved := Goal.move_relocate (f := fun _ => .nowhere) goal (some token)
    rw [hm] at moved
    exact moved
  refine (fits_of_take h.1 hm).append fun ks ss hr => ?_
  rw [List.append_assoc]
  exact h.2 _ ss (Goal.reads_of_take move hr)

/-- A move that takes no token keeps goals fitting. -/
theorem Fits.expand (ht : tokens = used ++ rest) (h : Fits tokens (used.map (·.kind)) done (goal :: goals))
    (hm : goal.move rest.head? = .expand new) (hn : ∀ callee count, goal = .argument callee count → rest ≠ []) :
    Fits tokens (used.map (·.kind)) done (new ++ goals) := by
  have move : goal.unplaced.move (rest.head?.map (Token.relocate fun _ => .nowhere)) = .expand (new.map Goal.unplaced) := by
    rw [Goal.unplaced, Goal.move_relocate, hm]
    rfl
  refine (fits_of_expand ht h.1 hm hn).append fun ks ss hr => h.2 ks ss (Goal.reads_of_expand_at ?_ move hr)
  rintro callee count hg
  obtain ⟨token, others, rfl⟩ : ∃ token others, rest = token :: others := by
    refine List.exists_cons_of_ne_nil (hn callee count ?_)
    cases goal <;> simp only [Goal.relocate, reduceCtorEq] at hg
    exact hg
  rfl

/-- A step without its place. -/
abbrev Step.unplaced (step : Step) : Step :=
  step.relocate fun _ => .nowhere

theorem Numbered.of_unplaced {callee : Callee} {number : Nat} (h : Numbered (done.map Step.unplaced) callee number) :
    Numbered done callee number := by
  refine h.imp_right ?_
  rintro ⟨place, h⟩
  obtain ⟨step, hm, hs⟩ := List.mem_map.mp h
  cases step <;> simp only [Step.unplaced, Step.relocate, reduceCtorEq, Step.argument.injEq] at hs
  obtain ⟨rfl, rfl, -⟩ := hs
  exact ⟨_, hm⟩

theorem Step.Marks.of_unplaced {step : Step} (h : step.Marks tokens (done.map Step.unplaced)) : step.Marks tokens done := by
  cases step with
  | argument => exact ⟨h.1, h.2.of_unplaced⟩
  | _ => trivial

/-- Every step marks what it is about, given the steps before it. -/
def Marked (tokens : List Token) (steps : List Step) : Prop :=
  ∀ done step later, steps = done ++ step :: later → step.Marks tokens done

theorem Marked.concat {steps : List Step} {step : Step} (h : Marked tokens steps) (hs : step.Marks tokens steps) :
    Marked tokens (steps ++ [step]) := by
  intro done other later heq
  rcases List.eq_nil_or_concat later with rfl | ⟨later, last, rfl⟩
  · obtain ⟨rfl, rfl⟩ := List.append_inj' heq rfl |>.imp_right fun h => (List.cons.inj h).1
    exact hs
  · rw [List.concat_eq_append, ← List.cons_append, ← List.append_assoc] at heq
    exact h done other later (List.append_inj' heq rfl).1

/-- The steps of a walk with goals that fit mark the arguments rightly. -/
theorem marked_of_walkFrom {last : Position} {steps : Array Step} (ht : tokens = used ++ rest)
    (hf : Fits tokens (used.map (·.kind)) (steps.toList.map Step.unplaced) goals) (hs : Marked tokens steps.toList) :
    Marked tokens (walkFrom last goals rest steps).steps.toList := by
  induction goals, rest, steps using walkFrom.induct generalizing used with
  | case1 rest steps => rwa [walkFrom_nil]
  | case2 rest steps goal goals step hm ih =>
    obtain rfl := Goal.eq_emit_of_move hm
    rw [walkFrom_emit]
    refine ih ht ?_ ?_
    · have fits := hf.2 [] [step.unplaced] ⟨rfl, rfl⟩
      rwa [List.append_nil, ← List.map_singleton, ← List.map_append, ← Array.toList_push] at fits
    · rw [Array.toList_push]
      exact hs.concat hf.1.of_unplaced
  | case3 rest steps goal goals new hm _ ih =>
    -- with no token left an argument is not marked, and the walk ends
    by_cases hn : ∀ callee count, goal = .argument callee count → rest ≠ []
    · rw [walkFrom_of_expand hm]
      exact ih ht (hf.expand ht hm hn) hs
    · obtain ⟨callee, count, rfl, rfl⟩ : ∃ callee count, goal = .argument callee count ∧ rest = [] := by simpa using hn
      have entered : Step.Marks tokens steps.toList (.enter .expression) := trivial
      rw [walkFrom_argument_nil, Array.toList_push, Array.toList_push]
      exact (hs.concat entered).concat trivial
  | case4 rest steps goal goals new hm _ _ _ _ ih =>
    cases rest with
    | nil => exact absurd hm (goal.move_none_ne_take new)
    | cons token rest =>
      rw [walkFrom_of_take hm]
      have split : tokens = (used ++ [token]) ++ rest := by
        rw [ht, List.append_assoc]
        rfl
      refine ih split ?_ hs
      rw [List.map_append]
      exact hf.take hm
  | case5 rest steps goal goals expected hm => rwa [walkFrom_of_fail hm]

/-- A step about an argument has the place of the token that the argument with its number begins at, and comes after a step
about the argument before. -/
theorem marked_of_readClass (tokens : List Token) : Marked tokens (readClass tokens).steps := by
  have split : tokens = [] ++ tokens := rfl
  refine marked_of_walkFrom split ?_ fun done step later h => ?_
  · exact fits_of_all rfl
  · cases done <;> cases h

end

end JackCompiler
