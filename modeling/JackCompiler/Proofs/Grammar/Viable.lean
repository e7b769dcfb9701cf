import JackCompiler.Proofs.Generation.Acceptance

/-!
# Where an error in the order of tokens stands

The walk sees one token ahead, and what it has taken it never gives back. So it stops at the first token with which no
class goes on: the tokens before can be completed to a class, since every goal that is left can be met
(`Goal.exists_readsAll`), and with the token itself they cannot, since the walk would stop there whatever follows.
`StopsAfter` says both of a walk with any goals, one lemma a move. Main statement: `grammar_error_stands_first`.
-/

namespace JackCompiler

/-- Token lists that some class begins with. -/
def Viable (tokens : List Token) : Prop :=
  ∃ later, Derivable (tokens ++ later)

/-! ## Every goal can be met -/

namespace Goal

/-- There are tokens that a goal is met with. -/
theorem exists_reads (goal : Goal) : ∃ ks ss, goal.Reads ks ss := by
  cases goal with
  | emit | classKeyword | symbol => exact ⟨_, _, rfl, rfl⟩
  | className => exact ⟨_, _, "A", rfl, rfl⟩
  | classVariables | subroutines | parameters | moreNames | moreParameters | locals | statements | operations
  | arguments | moreArguments => exact ⟨_, _, [], rfl, rfl⟩
  | typedNames => exact ⟨_, _, ⟨.int, "x", []⟩, rfl, rfl⟩
  | names => exact ⟨_, _, "x", [], rfl, rfl⟩
  | resultType => exact ⟨_, _, none, rfl, rfl⟩
  | subroutine kind => exact ⟨_, _, ⟨kind, none, "f", [], [], []⟩, rfl, rfl, rfl⟩
  | parameter => exact ⟨_, _, ⟨.int, "x"⟩, [], rfl, rfl⟩
  | parameterName => exact ⟨_, _, "x", [], rfl, rfl⟩
  | target => exact ⟨_, _, .inl ⟨"x", .term (.integer 0), rfl, rfl⟩⟩
  | assignment => exact ⟨_, _, .inl ⟨.term (.integer 0), rfl, rfl⟩⟩
  | elseBlock => exact ⟨_, _, .inl ⟨rfl, rfl⟩⟩
  | doCall => exact ⟨_, _, .own "f", [], rfl, rfl⟩
  | result => exact ⟨_, _, none, rfl, rfl⟩
  | expression => exact ⟨_, _, .term (.integer 0), rfl, rfl⟩
  | term | operand => exact ⟨_, _, .integer 0, rfl, rfl⟩
  | reference => exact ⟨_, _, .inl ⟨rfl, rfl⟩⟩
  | «call» name => exact ⟨_, _, .own name, [], rfl, rfl⟩
  | qualifiedCall => exact ⟨_, _, "f", [], rfl, rfl⟩
  | argument => exact ⟨_, _, .term (.integer 0), [], rfl, rfl⟩

/-- There are tokens that goals are met with one after another. -/
theorem exists_readsAll (goals : List Goal) : ∃ ks ss, ReadsAll goals ks ss := by
  induction goals with
  | nil => exact ⟨[], [], rfl, rfl⟩
  | cons goal goals ih =>
    obtain ⟨k, s, h⟩ := goal.exists_reads
    obtain ⟨ks, ss, hs⟩ := ih
    exact ⟨k ++ ks, s ++ ss, k, ks, s, ss, rfl, rfl, h, hs⟩

end Goal

/-! ## Walks that stop -/

/-- A goal without the places that it remembers. -/
abbrev Goal.unplaced (goal : Goal) : Goal :=
  goal.relocate fun _ => .nowhere

/-- A walk with some goals takes the tokens `used` and stops in front of `rest`. Whatever stands behind the next token, it
stops there, and the tokens before can be completed so that all goals are met. -/
structure StopsAfter (goals : List Goal) (used rest : List Token) : Prop where
  stuck : ∀ (last : Position) (other : List Token) (steps : Array Step), other.head? = rest.head? →
    ∃ e, (walkFrom last goals (used ++ other) steps).outcome = .error e
  completable : ∃ ks ss, Goal.ReadsAll (goals.map Goal.unplaced) (used.map (·.kind) ++ ks) ss

namespace StopsAfter

variable {goal : Goal} {goals new : List Goal} {token : Token} {used rest : List Token}

/-- A goal that cannot be met stops a walk at once. -/
theorem of_fail {expected : String} (h : goal.move rest.head? = .fail expected) : StopsAfter (goal :: goals) [] rest where
  stuck last other steps hother := by
    rw [List.nil_append, walkFrom_of_fail (by rw [hother, h])]
    exact ⟨_, rfl⟩
  completable := Goal.exists_readsAll _

theorem of_emit {step : Step} (h : StopsAfter goals used rest) : StopsAfter (.emit step :: goals) used rest where
  stuck last other steps hother := by
    rw [walkFrom_emit]
    exact h.stuck last other _ hother
  completable := by
    obtain ⟨ks, ss, hs⟩ := h.completable
    exact ⟨ks, _, Goal.readsAll_emit.mpr ⟨ss, rfl, hs⟩⟩

/-- A walk goes on with the goals that take the place of a goal. If it took no token, all goals are still to be met. -/
theorem of_expand (hm : goal.move (used ++ rest).head? = .expand new) (h : StopsAfter (new ++ goals) used rest) :
    StopsAfter (goal :: goals) used rest where
  stuck last other steps hother := by
    have head : (used ++ other).head? = (used ++ rest).head? := by rw [List.head?_append, List.head?_append, hother]
    rw [walkFrom_of_expand (by rw [head, hm])]
    exact h.stuck last other steps hother
  completable := by
    cases used with
    | nil => exact Goal.exists_readsAll _
    | cons token used =>
      obtain ⟨ks, ss, hs⟩ := h.completable
      rw [List.map_append, Goal.readsAll_append] at hs
      obtain ⟨k, k', s, s', hk, rfl, hnew, hgoals⟩ := hs
      have move : goal.unplaced.move (unplaced k ++ unplaced k').head? = .expand (new.map Goal.unplaced) := by
        have moved := Goal.move_relocate (f := fun _ => .nowhere) goal (some token)
        rw [← unplaced_append, ← hk]
        rw [List.cons_append, List.head?_cons] at hm
        rw [hm] at moved
        exact moved
      exact ⟨ks, s ++ s', k, k', s, s', hk, rfl, Goal.reads_of_expand move hnew, hgoals⟩

/-- A walk that takes a token goes on with the goals that take the place of the goal. -/
theorem of_take (hm : goal.move (some token) = .take new) (h : StopsAfter (new ++ goals) used rest) :
    StopsAfter (goal :: goals) (token :: used) rest where
  stuck last other steps hother := by
    rw [List.cons_append, walkFrom_of_take hm]
    exact h.stuck last other steps hother
  completable := by
    obtain ⟨ks, ss, hs⟩ := h.completable
    rw [List.map_append, Goal.readsAll_append] at hs
    obtain ⟨k, k', s, s', hk, rfl, hnew, hgoals⟩ := hs
    have move : goal.unplaced.move (some ⟨token.kind, .nowhere⟩) = .take (new.map Goal.unplaced) := by
      have moved := Goal.move_relocate (f := fun _ => .nowhere) goal (some token)
      rw [hm] at moved
      exact moved
    refine ⟨ks, s ++ s', token.kind :: k, k', s, s', ?_, rfl, Goal.reads_of_take move hnew, hgoals⟩
    rw [List.map_cons, List.cons_append, hk, List.cons_append]

end StopsAfter

/-- A walk with an error stops after the tokens it took, and the error is about the next one. -/
theorem stopsAfter_of_walkFrom {last : Position} {goals : List Goal} {tokens : List Token} {steps : Array Step}
    {e : GrammarError} (h : (walkFrom last goals tokens steps).outcome = .error e) :
    ∃ used rest expected, tokens = used ++ rest ∧ e = .unmet expected rest.head? last ∧ StopsAfter goals used rest := by
  induction goals, tokens, steps using walkFrom.induct with
  | case1 tokens steps =>
    rw [walkFrom_nil] at h
    cases h
  | case2 tokens steps goal goals step hm ih =>
    rw [walkFrom_of_emit hm] at h
    obtain rfl := Goal.eq_emit_of_move hm
    obtain ⟨used, rest, expected, ht, he, hs⟩ := ih h
    exact ⟨used, rest, expected, ht, he, hs.of_emit⟩
  | case3 tokens steps goal goals new hm _ ih =>
    rw [walkFrom_of_expand hm] at h
    obtain ⟨used, rest, expected, rfl, he, hs⟩ := ih h
    exact ⟨used, rest, expected, rfl, he, hs.of_expand hm⟩
  | case4 tokens steps goal goals new hm _ _ _ _ ih =>
    cases tokens with
    | nil => exact absurd hm (goal.move_none_ne_take new)
    | cons token tokens =>
      rw [walkFrom_of_take hm] at h
      obtain ⟨used, rest, expected, ht, he, hs⟩ := ih h
      rw [List.tail_cons] at ht
      exact ⟨token :: used, rest, expected, by rw [ht, List.cons_append], he, hs.of_take hm⟩
  | case5 tokens steps goal goals expected hm =>
    rw [walkFrom_of_fail hm] at h
    cases h
    exact ⟨[], tokens, expected, rfl, rfl, .of_fail hm⟩

/-- A walk that meets all goals leaves an end of the tokens. -/
theorem suffix_of_walkFrom {last : Position} {goals : List Goal} {tokens rest : List Token} {steps : Array Step}
    (h : (walkFrom last goals tokens steps).outcome = .ok rest) : rest <:+ tokens := by
  induction goals, tokens, steps using walkFrom.induct with
  | case1 tokens steps =>
    rw [walkFrom_nil] at h
    cases h
    exact List.suffix_refl _
  | case2 tokens steps goal goals step hm ih =>
    rw [walkFrom_of_emit hm] at h
    exact ih h
  | case3 tokens steps goal goals new hm _ ih =>
    rw [walkFrom_of_expand hm] at h
    exact ih h
  | case4 tokens steps goal goals new hm _ _ _ _ ih =>
    cases tokens with
    | nil => exact absurd hm (goal.move_none_ne_take new)
    | cons token tokens =>
      rw [walkFrom_of_take hm] at h
      exact (ih h).trans (List.suffix_cons _ _)
  | case5 tokens steps goal goals expected hm =>
    rw [walkFrom_of_fail hm] at h
    cases h

/-! ## Classes -/

section

variable {used rest : List Token}

/-- Where the walk through a class stops, the tokens before can be completed to a class. -/
theorem StopsAfter.viable (h : StopsAfter Goal.ofClass used rest) : Viable used := by
  obtain ⟨ks, ss, hs⟩ := h.completable
  obtain ⟨c, hk, -⟩ := exists_tree_of_reads hs
  refine ⟨unplaced ks, c, ?_⟩
  rw [List.map_append, map_kind_unplaced, hk]

/-- Where the walk through a class stops, no class goes on with the next token. -/
theorem StopsAfter.not_derivable (h : StopsAfter Goal.ofClass used rest) (other : List Token)
    (hother : other.head? = rest.head?) : ¬Derivable (used ++ other) := by
  rintro ⟨c, hk⟩
  obtain ⟨e, he⟩ := h.stuck (Token.endPosition (used ++ other)) other #[] hother
  have noError := (readClass_of_kinds hk).2
  simp only [readClass, he] at noError
  cases noError

theorem take_succ_length (used rest : List Token) (token : Token) :
    (used ++ token :: rest).take (used.length + 1) = used ++ [token] := by
  rw [List.append_cons]
  exact List.take_left' (by simp)

/-- A class does not go on after its end. -/
theorem not_viable_of_derivable (h : Derivable used) (token : Token) : ¬Viable (used ++ [token]) := by
  rintro ⟨later, c', hc'⟩
  obtain ⟨c, hc⟩ := h
  have kinds : c'.kinds = c.kinds ++ (token :: later).map (·.kind) := by
    rw [hc', hc, List.append_assoc, List.map_append, List.singleton_append]
  have whole : walkFrom .nowhere Goal.ofClass (unplaced c'.kinds ++ []) #[] = ⟨#[] ++ c'.steps, .ok []⟩ := c'.walk
  have part : walkFrom .nowhere Goal.ofClass (unplaced c.kinds ++ unplaced ((token :: later).map (·.kind))) #[] =
      ⟨#[] ++ c.steps, .ok (unplaced ((token :: later).map (·.kind)))⟩ := c.walk
  rw [List.append_nil, kinds, unplaced_append, part, Walk.mk.injEq] at whole
  cases whole.2

/-- The walk through a class that goes on after the class was read has read a class before. -/
theorem exists_derivable_of_walkFrom {last : Position} {tokens : List Token}
    (h : (walkFrom last Goal.ofClass tokens #[]).outcome = .ok rest) :
    ∃ used, tokens = used ++ rest ∧ Derivable used := by
  obtain ⟨used, rfl⟩ := suffix_of_walkFrom h
  refine ⟨used, rfl, ?_⟩
  have moved := walkFrom_relocate (f := fun _ => .nowhere) last Goal.ofClass (used ++ rest) #[]
  generalize hw : walkFrom last Goal.ofClass (used ++ rest) #[] = walk at h moved
  obtain ⟨steps, outcome⟩ := walk
  obtain rfl : outcome = .ok rest := h
  rw [← unplaced_kinds, Walk.relocate_ok] at moved
  obtain ⟨kinds, left, ss, hk, hr, -, hs⟩ := readsAll_of_walkFrom moved
  obtain ⟨c, rfl, -⟩ := exists_tree_of_reads hs
  have left_eq : left = rest.map (·.kind) := by
    rw [← map_kind_unplaced left, ← hr]
    simp
  refine ⟨c, ?_⟩
  rw [left_eq, List.map_append] at hk
  exact (List.append_cancel_right hk).symm

end

/-- A token that stands after a class stands right after it. -/
theorem exists_derivable_of_trailing {tokens : List Token} {found : Token}
    (h : (readClass tokens).error? = some (.trailingToken found)) :
    ∃ used rest, tokens = used ++ found :: rest ∧ Derivable used := by
  simp only [readClass] at h
  split at h
  · cases h
  · next token others hw =>
    cases h
    obtain ⟨used, rfl, hd⟩ := exists_derivable_of_walkFrom hw
    exact ⟨used, others, rfl, hd⟩
  · next e hw =>
    cases h
    obtain ⟨used, rest, expected, -, he, -⟩ := stopsAfter_of_walkFrom hw
    cases rest <;> cases he

/-- Any other error of reading a class is that of the walk. -/
theorem stopsAfter_of_readClass {tokens : List Token} {e : GrammarError} (h : (readClass tokens).error? = some e)
    (hne : ∀ found, e ≠ .trailingToken found) :
    ∃ used rest expected, tokens = used ++ rest ∧ e = .unmet expected rest.head? (Token.endPosition tokens) ∧
      StopsAfter Goal.ofClass used rest := by
  simp only [readClass] at h
  split at h
  · cases h
  · cases h
    exact absurd rfl (hne _)
  · next e' hw =>
    cases h
    exact stopsAfter_of_walkFrom hw

/-! ## Main statement -/

/-- An error in the order of tokens is one that reading the tokens as a class meets. -/
theorem error_of_compile {strict record : Bool} {tokens : List Token} {e : GrammarError}
    (h : (compile strict record tokens).result = .error (.grammar e)) : (readClass tokens).error? = some e := by
  simp only [compile, Generator.run_eq_follow] at h
  cases hf : Generator.follow { strict } (readClass tokens).steps with
  | error e' =>
    rw [hf] at h
    cases h
    exact absurd hf (Generator.follow_ne_grammar _)
  | ok g =>
    rw [hf] at h
    cases he : (readClass tokens).error? with
    | none =>
      rw [he] at h
      cases h
    | some e' =>
      rw [he] at h
      cases h
      rfl

/-- An error in the order of tokens stands at the first token with which no class goes on: some class begins with the
tokens before it, and none with those and the token. A trailing token stands right after a class. An end is unexpected
when some class begins with all tokens and they are none; it is reported at the last token. -/
theorem grammar_error_stands_first (strict record : Bool) (tokens : List Token) :
    (∀ expected found, (compile strict record tokens).result = .error (.grammar (.unexpectedToken expected found)) →
      ∃ i, tokens[i]? = some found ∧ Viable (tokens.take i) ∧ ¬Viable (tokens.take (i + 1))) ∧
    (∀ found, (compile strict record tokens).result = .error (.grammar (.trailingToken found)) →
      ∃ i, tokens[i]? = some found ∧ Viable (tokens.take i) ∧ ¬Viable (tokens.take (i + 1)) ∧
        Derivable (tokens.take i)) ∧
    (∀ expected last, (compile strict record tokens).result = .error (.grammar (.unexpectedEnd expected last)) →
      (∃ later, later ≠ [] ∧ Derivable (tokens ++ later)) ∧ ¬Derivable tokens ∧
        (tokens = [] ∧ last = ⟨0, 0⟩ ∨ ∃ token, tokens.getLast? = some token ∧ last = token.position)) := by
  refine ⟨fun expected found h => ?_, fun found h => ?_, fun expected last h => ?_⟩
  · obtain ⟨used, rest, expected', rfl, he, hs⟩ := stopsAfter_of_readClass (error_of_compile h) (by rintro _ ⟨⟩)
    obtain ⟨rest, rfl⟩ : ∃ others, rest = found :: others := by
      cases rest <;> cases he
      exact ⟨_, rfl⟩
    refine ⟨used.length, by simp, ?_, ?_⟩
    · rw [List.take_left]
      exact hs.viable
    · rw [take_succ_length]
      rintro ⟨later, hd⟩
      rw [List.append_assoc] at hd
      exact hs.not_derivable (found :: later) rfl hd
  · obtain ⟨used, rest, rfl, hd⟩ := exists_derivable_of_trailing (error_of_compile h)
    refine ⟨used.length, by simp, ?_, ?_, ?_⟩
    · rw [List.take_left]
      exact ⟨[], by rwa [List.append_nil]⟩
    · rw [take_succ_length]
      exact not_viable_of_derivable hd found
    · rwa [List.take_left]
  · obtain ⟨used, rest, expected', rfl, he, hs⟩ := stopsAfter_of_readClass (error_of_compile h) (by rintro _ ⟨⟩)
    obtain ⟨rfl, rfl⟩ : rest = [] ∧ last = Token.endPosition (used ++ rest) := by
      cases rest <;> cases he
      exact ⟨rfl, rfl⟩
    rw [List.append_nil]
    have incomplete : ¬Derivable used := by simpa using hs.not_derivable [] rfl
    obtain ⟨later, hd⟩ := hs.viable
    refine ⟨⟨later, ?_, hd⟩, incomplete, ?_⟩
    · rintro rfl
      rw [List.append_nil] at hd
      exact incomplete hd
    · rcases List.eq_nil_or_concat used with rfl | ⟨others, token, rfl⟩
      · exact .inl ⟨rfl, rfl⟩
      · exact .inr ⟨token, by simp, by simp [Token.endPosition]⟩

/-- A class without its opening brace, one with a symbol behind it, and one that breaks off. -/
theorem grammar_error_stands_first_samples :
    let head : List Token := [⟨.keyword .«class», ⟨1, 1⟩⟩, ⟨.identifier "A", ⟨1, 7⟩⟩]
    let brace : List Token := [⟨.symbol '\x7b', ⟨1, 9⟩⟩, ⟨.symbol '\x7d', ⟨1, 10⟩⟩]
    let found : Token := ⟨.symbol ';', ⟨1, 11⟩⟩
    ((compile false false (head ++ [found])).result = .error (.grammar (.unexpectedToken "'\x7b'" found)) ∧
      ∃ i, (head ++ [found])[i]? = some found ∧ Viable ((head ++ [found]).take i) ∧
        ¬Viable ((head ++ [found]).take (i + 1))) ∧
    ((compile false false (head ++ brace ++ [found])).result = .error (.grammar (.trailingToken found)) ∧
      ∃ i, (head ++ brace ++ [found])[i]? = some found ∧ Viable ((head ++ brace ++ [found]).take i) ∧
        ¬Viable ((head ++ brace ++ [found]).take (i + 1)) ∧ Derivable ((head ++ brace ++ [found]).take i)) ∧
    ((compile false false head).result = .error (.grammar (.unexpectedEnd "'\x7b'" ⟨1, 7⟩)) ∧
      (∃ later, later ≠ [] ∧ Derivable (head ++ later)) ∧ ¬Derivable head) := by
  intro head brace found
  have wrong : (compile false false (head ++ [found])).result =
      .error (.grammar (.unexpectedToken "'\x7b'" found)) := by decide +kernel
  have trailing : (compile false false (head ++ brace ++ [found])).result =
      .error (.grammar (.trailingToken found)) := by decide +kernel
  have early : (compile false false head).result =
      .error (.grammar (.unexpectedEnd "'\x7b'" ⟨1, 7⟩)) := by decide +kernel
  obtain ⟨later, incomplete, -⟩ := (grammar_error_stands_first false false head).2.2 _ _ early
  exact ⟨⟨wrong, (grammar_error_stands_first false false _).1 _ _ wrong⟩,
    ⟨trailing, (grammar_error_stands_first false false _).2.1 _ trailing⟩, early, later, incomplete⟩

end JackCompiler
