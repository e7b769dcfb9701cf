import JackCompiler.Proofs.Generation.Located
import JackCompiler.Proofs.Grammar.Declared

/-!
# How far a walk came

A walk that is stopped has begun something that could have gone on: whatever goals are left can be met, and then the steps
on the way are the first steps of what is read (`exists_beginning_of_walkFrom`). So the steps of any tokens are the first steps
of some class. They are all steps of the class when the walk came to its end, and not all of them when it was stopped
before.
-/

namespace JackCompiler

/-- Where no token is left, an argument is begun like any other. -/
theorem exists_beginning_of_argument (last : Position) (callee : Callee) (count : Nat) (goals : List Goal)
    (steps : Array Step) :
    ∃ ks ss, Goal.ReadsAll (.argument callee count :: goals) ks ss ∧
      (walkFrom last (.argument callee count :: goals) [] steps).steps.toList <+: steps.toList ++ ss := by
  obtain ⟨ks, ss, hg⟩ := Goal.exists_readsAll goals
  let e : Expression := .term (.integer 0)
  have reads : Goal.ReadsAll (.argument callee count :: goals) (argumentKinds [e] ++ .symbol ')' :: ks)
      (argumentSteps callee count [e] ++ [.leave .expressionList, .call callee (count + 1)] ++ ss) := by
    refine ⟨argumentKinds [e] ++ [.symbol ')'], ks, _, ss, by simp, rfl, ?_, hg⟩
    exact ⟨e, [], rfl, rfl⟩
  refine ⟨_, _, reads, ?_⟩
  rw [walkFrom_argument_nil]
  refine ⟨[.integer 0, .leave .term, .leave .expression, .argument callee (count + 1) (some .nowhere),
    .leave .expressionList, .call callee (count + 1)] ++ ss, ?_⟩
  simp [e, argumentSteps, Expression.chainSteps, Term.innerSteps, during]

/-- Wherever a walk ends, its goals could be met with some tokens so that the steps on its way come first. -/
theorem exists_beginning_of_walkFrom (last : Position) (goals : List Goal) (kinds : List TokenKind) (steps : Array Step) :
    ∃ ks ss, Goal.ReadsAll goals ks ss ∧
      (walkFrom last goals (unplaced kinds) steps).steps.toList <+: steps.toList ++ ss := by
  generalize ht : unplaced kinds = tokens
  induction goals, tokens, steps using walkFrom.induct generalizing kinds with
  | case1 tokens steps =>
    rw [walkFrom_nil]
    exact ⟨[], [], Goal.readsAll_nil.mpr ⟨rfl, rfl⟩, by simp⟩
  | case2 tokens steps goal goals step hm ih =>
    obtain rfl := Goal.eq_emit_of_move hm
    obtain ⟨ks, ss, hg, hp⟩ := ih kinds ht
    rw [walkFrom_emit]
    refine ⟨ks, step :: ss, Goal.readsAll_emit.mpr ⟨ss, rfl, hg⟩, ?_⟩
    rwa [Array.toList_push, List.append_assoc] at hp
  | case3 tokens steps goal goals new hm _ ih =>
    by_cases hend : tokens = [] ∧ ∃ callee count, goal = .argument callee count
    · obtain ⟨rfl, callee, count, rfl⟩ := hend
      exact exists_beginning_of_argument last callee count goals steps
    · obtain ⟨_, _, hg, hp⟩ := ih kinds ht
      obtain ⟨k, ks, s, ss, rfl, rfl, hn, hg⟩ := Goal.readsAll_append.mp hg
      -- The next token has the one place there is, which is what an argument remembers of it.
      have here (callee : Callee) (count : Nat) (hgoal : goal = .argument callee count) :
          tokens.head?.map (·.position) = some .nowhere := by
        subst ht
        cases kinds with
        | nil => exact absurd ⟨rfl, callee, count, hgoal⟩ hend
        | cons kind kinds => rfl
      rw [walkFrom_of_expand hm]
      exact ⟨k ++ ks, s ++ ss, ⟨k, ks, s, ss, rfl, rfl, Goal.reads_of_expand_at here hm hn, hg⟩, hp⟩
  | case4 tokens steps goal goals new hm _ _ _ _ ih =>
    subst ht
    cases kinds with
    | nil => exact absurd hm (goal.move_none_ne_take new)
    | cons kind kinds =>
      obtain ⟨_, _, hg, hp⟩ := ih kinds rfl
      obtain ⟨k, ks, s, ss, rfl, rfl, hn, hg⟩ := Goal.readsAll_append.mp hg
      rw [unplaced_cons, walkFrom_of_take hm]
      exact ⟨kind :: k ++ ks, s ++ ss, ⟨kind :: k, ks, s, ss, rfl, rfl, Goal.reads_of_take hm hn, hg⟩, hp⟩
  | case5 tokens steps goal goals expected hm =>
    obtain ⟨ks, ss, hg⟩ := Goal.exists_readsAll (goal :: goals)
    rw [walkFrom_of_fail hm]
    exact ⟨ks, ss, hg, List.prefix_append _ _⟩

/-! ## Classes -/

/-- Reading came to the end of a class, though other tokens may stand behind. -/
def Reading.IsWhole (reading : Reading) : Prop :=
  ∀ e, reading.error? = some e → ∃ found, e = .trailingToken found

theorem Reading.isWhole_relocate {f : Position → Position} {reading : Reading} :
    (reading.relocate f).IsWhole ↔ reading.IsWhole := by
  obtain ⟨steps, error?⟩ := reading
  cases error? with
  | none => simp [Reading.IsWhole, Reading.relocate]
  | some e => cases e <;> simp [Reading.IsWhole, Reading.relocate, GrammarError.relocate]

section

variable {kinds : List TokenKind} {tokens : List Token}

/-- Reading comes to the end of a class when the walk meets all its goals. -/
theorem isWhole_readClass_iff :
    (readClass tokens).IsWhole ↔
      ∃ rest, (walkFrom (Token.endPosition tokens) Goal.ofClass tokens #[]).outcome = .ok rest := by
  simp only [readClass, Reading.IsWhole]
  rcases hw : (walkFrom (Token.endPosition tokens) Goal.ofClass tokens #[]).outcome with e | rest
  · obtain ⟨-, rest, expected, -, rfl, -⟩ := stopsAfter_of_walkFrom hw
    cases rest <;> simp [GrammarError.unmet]
  · cases rest <;> simp

/-- Kinds of tokens that are read to the end of a class go through all steps of a class. -/
theorem exists_steps_of_kinds (h : (readClass (unplaced kinds)).IsWhole) :
    ∃ c : ClassDeclaration, (readClass (unplaced kinds)).steps = c.steps := by
  rw [isWhole_readClass_iff] at h
  unfold readClass
  rcases hw : walkFrom (Token.endPosition (unplaced kinds)) Goal.ofClass (unplaced kinds) #[] with ⟨steps, e | rest⟩
  · obtain ⟨rest, hr⟩ := h
    rw [hw] at hr
    cases hr
  · obtain ⟨used, left, ss, -, -, hs, hg⟩ := readsAll_of_walkFrom hw
    obtain ⟨c, -, rfl⟩ := exists_tree_of_reads hg
    exact ⟨c, hs⟩

/-- Kinds of tokens whose reading is stopped go through the first steps of a class, and not through all of them. -/
theorem exists_beginning_of_kinds (h : ¬(readClass (unplaced kinds)).IsWhole) :
    ∃ c : ClassDeclaration, (readClass (unplaced kinds)).steps <+: c.steps ∧
      (readClass (unplaced kinds)).steps ≠ c.steps := by
  rw [isWhole_readClass_iff] at h
  unfold readClass
  generalize Token.endPosition (unplaced kinds) = last at h ⊢
  -- The last goal only leaves the class, so a walk that is stopped is stopped at one of the others.
  let goals : List Goal :=
    [.emit (.enter .«class»), .classKeyword, .className, .symbol '\x7b', .classVariables, .subroutines, .symbol '\x7d']
  have split : Goal.ofClass = goals ++ [.emit (.leave .«class»)] := rfl
  rw [split] at h ⊢
  obtain ⟨ks, ss, hg, hp⟩ := exists_beginning_of_walkFrom last goals kinds #[]
  rcases hinner : walkFrom last goals (unplaced kinds) #[] with ⟨steps, e | rest⟩
  · have begun : steps.toList <+: ss := by
      rw [hinner] at hp
      exact hp
    rw [walkFrom_append_of_error hinner]
    have whole : Goal.ReadsAll Goal.ofClass ks (ss ++ [.leave .«class»]) := by
      rw [split, Goal.readsAll_append]
      exact ⟨ks, [], ss, [.leave .«class»], (List.append_nil ks).symm, rfl, hg, by simp [Goal.Reads]⟩
    obtain ⟨c, -, hc⟩ := exists_tree_of_reads whole
    refine ⟨c, hc ▸ begun.trans (List.prefix_append ss _), ?_⟩
    intro same
    have longer : steps.toList = ss ++ [.leave .«class»] := same.trans hc.symm
    have shorter := begun.length_le
    rw [longer, List.length_append, List.length_singleton] at shorter
    omega
  · rw [walkFrom_append hinner, walkFrom_emit, walkFrom_nil] at h
    exact absurd ⟨rest, rfl⟩ h

/-- Reading begins with the beginning of a class. -/
theorem readClass_steps_eq_cons (tokens : List Token) :
    ∃ steps, (readClass tokens).steps = .enter .«class» :: steps := by
  let goals : List Goal :=
    [.classKeyword, .className, .symbol '\x7b', .classVariables, .subroutines, .symbol '\x7d', .emit (.leave .«class»)]
  have begun : walkFrom (Token.endPosition tokens) Goal.ofClass tokens #[] =
      (walkFrom (Token.endPosition tokens) goals tokens #[]).after #[.enter .«class»] := by
    rw [← walkFrom_after]
    exact walkFrom_emit _
  refine ⟨(walkFrom (Token.endPosition tokens) goals tokens #[]).steps.toList, ?_⟩
  rw [readClass, begun, Walk.after]
  simp

/-- When reading comes to the end of a class, the steps are those of a class. -/
theorem exists_steps_of_isWhole (h : (readClass tokens).IsWhole) :
    ∃ c : ClassDeclaration, (readClass tokens).steps.map (Step.relocate fun _ => .nowhere) = c.steps := by
  have whole := @exists_steps_of_kinds (tokens.map (·.kind))
  rw [readClass_unplaced, Reading.isWhole_relocate] at whole
  exact whole h

/-- When reading is stopped, the steps are the first steps of a class, and not all. -/
theorem exists_beginning_of_not_isWhole (h : ¬(readClass tokens).IsWhole) :
    ∃ c : ClassDeclaration, (readClass tokens).steps.map (Step.relocate fun _ => .nowhere) <+: c.steps ∧
      (readClass tokens).steps.map (Step.relocate fun _ => .nowhere) ≠ c.steps := by
  have stopped := @exists_beginning_of_kinds (tokens.map (·.kind))
  rw [readClass_unplaced, Reading.isWhole_relocate] at stopped
  exact stopped h

end

end JackCompiler
