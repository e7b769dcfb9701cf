import JackCompiler.Proofs.Grammar.Begun
import JackCompiler.Proofs.Syntax.Licensed
import JackCompiler.Proofs.Syntax.Nested
import JackCompiler.Proofs.Syntax.Unambiguous

/-!
# What a recorder sees

A recorder sees the rules that begin and end in the steps that are executed, and it changes nothing. The steps are those of
a class, or the first of them (`Grammar/Begun`), and what is seen of the steps of a class is the tour of its derivation tree
(`ClassDeclaration.tree_events`). So a recorder sees the tour of the derivation tree of the tokens when compilation succeeds,
and a beginning of such a tour when it fails: there the rules that are open form a chain in the grammar. Main statement:
`trace_follows_derivation`.
-/

namespace JackCompiler

/-! ## Derivation trees with the same tokens -/

namespace DerivationTree

variable {t t' : DerivationTree}

theorem kinds_eq_of_plain (h : t.plain = t'.plain) : t.kinds = t'.kinds := by
  rw [← kinds_plain t, h, kinds_plain]

theorem events_eq_of_plain (h : t.plain = t'.plain) : t.events = t'.events := by
  rw [← events_plain t, h, events_plain]

/-- A derivation tree of the tokens of a class is the tree of the class, up to what names stand for. -/
theorem Derives.plain_eq_tree {c : ClassDeclaration} (h : t.Derives .«class») (hk : t.kinds = c.kinds) :
    t.plain = c.tree.plain := by
  obtain ⟨c', hc'⟩ := h.exists_class
  have same : c' = c := ClassDeclaration.eq_of_kinds (by rw [← c'.tree_kinds, ← kinds_eq_of_plain hc', hk])
  rw [hc', same]

end DerivationTree

/-! ## Runs -/

@[simp] theorem Step.event?_relocate (f : Position → Position) (step : Step) : (step.relocate f).event? = step.event? := by
  cases step <;> rfl

@[simp] theorem eventsOf_relocate (f : Position → Position) (steps : List Step) :
    eventsOf (steps.map (Step.relocate f)) = eventsOf steps := by
  rw [eventsOf, List.filterMap_map]
  exact List.filterMap_congr fun step _ => step.event?_relocate f

theorem Recorder.watch_some (events : Array Event) (step : Step) :
    Recorder.watch (some events) step = some (events ++ step.event?.toArray) := by
  unfold Recorder.watch
  cases step.event? <;> simp

/-- A run is seen up to the step that fails, and to its end if none does. -/
theorem Generator.run_trace (g : Generator) (events : Array Event) (steps : List Step) :
    ∃ executed later, steps = executed ++ later ∧
      (g.run (some events) steps).2.trace? = some (events.toList ++ eventsOf executed) ∧
      (later = [] ↔ ∃ h, g.follow steps = .ok h) := by
  induction steps generalizing g events with
  | nil => exact ⟨[], [], rfl, by simp [run, Recorder.trace?], by simp⟩
  | cons step steps ih =>
    cases hs : g.step step with
    | error e =>
      refine ⟨[], step :: steps, rfl, ?_, ?_⟩
      · simp [run, hs, Recorder.trace?]
      · simp [follow, hs]
    | ok h =>
      obtain ⟨executed, later, rfl, htrace, hlater⟩ := ih h (events ++ step.event?.toArray)
      refine ⟨step :: executed, later, rfl, ?_, ?_⟩
      · rw [run, hs]
        simp only [Recorder.watch_some, htrace, eventsOf_cons, Array.toList_append, List.append_assoc, Option.toList_toArray]
      · rw [hlater, follow, hs]

/-! ## Classes -/

/-- A recorder sees the class begin, and then the steps that are executed. -/
theorem trace_of_compile (strict : Bool) (tokens : List Token) :
    ∃ executed later, (readClass tokens).steps = .enter .«class» :: executed ++ later ∧
      (compile strict true tokens).trace? = some (eventsOf (.enter .«class» :: executed)) ∧
      (later = [] ↔ ∃ h, Generator.follow { strict } (readClass tokens).steps = .ok h) := by
  obtain ⟨steps, hsteps⟩ := readClass_steps_eq_cons tokens
  obtain ⟨executed, later, rfl, htrace, hlater⟩ := Generator.run_trace { strict } #[.enter .«class»] steps
  refine ⟨executed, later, hsteps, ?_, ?_⟩
  · simp only [compile, hsteps, if_true]
    exact htrace
  · rw [hlater, hsteps]
    rfl

/-- What is seen of a beginning of the steps of a class, but not of all of them: the class is open, and a chain of rules
in the grammar goes on from it. -/
theorem ClassDeclaration.opens_of_beginning (c : ClassDeclaration) {begun : List Step}
    (hp : .enter .«class» :: begun <+: c.steps) (hne : .enter .«class» :: begun ≠ c.steps) :
    ∃ rules, openRules [] (eventsOf (.enter .«class» :: begun)) = some (.«class» :: rules).reverse ∧
      (.«class» :: rules).IsChain Rule.Holds := by
  obtain ⟨inner, hsteps⟩ : ∃ inner, c.steps = during .«class» inner := ⟨_, rfl⟩
  obtain ⟨children, htree⟩ : ∃ children, c.tree = .node .«class» children := ⟨_, rfl⟩
  have whole := c.tree_events
  rw [hsteps, htree, eventsOf_during, DerivationTree.events_node] at whole
  have seen : children.flatMap (·.events) = eventsOf inner := (List.cons.inj (List.append_cancel_right whole)).2
  rw [hsteps] at hp hne
  have inside : begun <+: inner := by
    rcases List.prefix_concat_iff.mp hp with same | hp
    · exact absurd same hne
    · exact (List.cons_prefix_cons.mp hp).2
  have licensed := c.tree_derives.licensed
  rw [htree] at licensed
  exact licensed.opens_inside rfl (seen ▸ inside.filterMap Step.event?)

section

variable {strict : Bool} {tokens : List Token}

/-- The trace of tokens that are compiled is the tour of the tree of their class. -/
theorem trace_of_kinds {c : ClassDeclaration} (hk : c.kinds = tokens.map (·.kind)) {r : CompiledClass}
    (h : (compile strict true tokens).result = .ok r) : (compile strict true tokens).trace? = some c.tree.events := by
  obtain ⟨-, g, hg, -⟩ := compile_result_eq_ok.mp h
  obtain ⟨executed, later, hsteps, htrace, hlater⟩ := trace_of_compile strict tokens
  rw [hlater.mpr ⟨g, hg⟩, List.append_nil] at hsteps
  rw [htrace, ← hsteps, ← eventsOf_relocate fun _ => .nowhere, (readClass_of_kinds hk).1, c.tree_events]

/-- When all steps are executed and compilation fails all the same, the error is that of reading. -/
theorem error_of_follow {e : Error} {g : Generator} (hf : Generator.follow { strict } (readClass tokens).steps = .ok g)
    (h : (compile strict true tokens).result = .error e) :
    ∃ cause, e = .grammar cause ∧ (readClass tokens).error? = some cause := by
  simp only [compile, Generator.run_eq_follow, hf] at h
  cases he : (readClass tokens).error? with
  | none =>
    rw [he] at h
    cases h
  | some cause =>
    rw [he] at h
    exact ⟨cause, (Except.error.inj h).symm, rfl⟩

/-- When compilation fails, a recorder has seen the first steps of a class, and all of them only if a token stands behind
the class. -/
theorem beginning_of_error {e : Error} (h : (compile strict true tokens).result = .error e) :
    ∃ (c : ClassDeclaration) (begun : List Step),
      (compile strict true tokens).trace? = some (eventsOf (.enter .«class» :: begun)) ∧
      .enter .«class» :: begun <+: c.steps ∧
      (.enter .«class» :: begun = c.steps → ∃ found, e = .grammar (.trailingToken found)) := by
  obtain ⟨executed, later, hsteps, htrace, hlater⟩ := trace_of_compile strict tokens
  have split := congrArg (List.map (Step.relocate fun _ => .nowhere)) hsteps
  rw [List.map_append] at split
  rw [← eventsOf_relocate fun _ => .nowhere] at htrace
  by_cases whole : (readClass tokens).IsWhole
  · obtain ⟨c, hc⟩ := exists_steps_of_isWhole whole
    rw [hc] at split
    refine ⟨c, _, htrace, ⟨_, split.symm⟩, ?_⟩
    intro same
    have all : later = [] := List.map_eq_nil_iff.mp (List.append_right_eq_self.mp (split.symm.trans same.symm))
    obtain ⟨g, hg⟩ := hlater.mp all
    obtain ⟨cause, rfl, hcause⟩ := error_of_follow hg h
    obtain ⟨found, rfl⟩ := whole cause hcause
    exact ⟨found, rfl⟩
  · obtain ⟨c, hp, hne⟩ := exists_beginning_of_not_isWhole whole
    have begun : .enter .«class» :: executed.map (Step.relocate fun _ => .nowhere) <+:
        (readClass tokens).steps.map (Step.relocate fun _ => .nowhere) := ⟨_, split.symm⟩
    refine ⟨c, _, htrace, begun.trans hp, ?_⟩
    intro same
    rw [same] at begun
    exact absurd (hp.eq_of_length_le begun.length_le) hne

end

/-! ## Main statement -/

/-- A recorder changes nothing. When compilation succeeds, the tokens have a derivation tree, only one but for what names
stand for, and the trace is its tour: one class, and balanced inside. When it fails, every end in the trace closes the rule
that began last, and the rules that are open form a chain in the grammar that begins with the class. No rule is open only
where a token stands behind the class. -/
theorem trace_follows_derivation (strict : Bool) (tokens : List Token) :
    (compile strict true tokens).result = (compile strict false tokens).result ∧
    (∀ r, (compile strict true tokens).result = .ok r →
      ∃ trace inner, (compile strict true tokens).trace? = some trace ∧
        (∃ t : DerivationTree, t.Derives .«class» ∧ t.kinds = tokens.map (·.kind)) ∧
        (∀ t : DerivationTree, t.Derives .«class» → t.kinds = tokens.map (·.kind) →
          trace = t.events ∧
          ∀ t' : DerivationTree, t'.Derives .«class» → t'.kinds = tokens.map (·.kind) → t'.plain = t.plain) ∧
        trace = .enter .«class» :: inner ++ [.leave .«class»] ∧ openRules [] inner = some []) ∧
    (∀ e, (compile strict true tokens).result = .error e →
      ∃ trace opened, (compile strict true tokens).trace? = some trace ∧
        openRules [] trace = some opened.reverse ∧ opened.IsChain Rule.Holds ∧
        ((∃ others, opened = .«class» :: others) ∨
          opened = [] ∧ ∃ found, e = .grammar (.trailingToken found))) := by
  refine ⟨?_, fun r h => ?_, fun e h => ?_⟩
  · simp only [compile, Generator.run_eq_follow]
  · obtain ⟨c, hk, -, -⟩ := compile_eq_ok_iff.mp h
    obtain ⟨children, htree⟩ : ∃ children, c.tree = .node .«class» children := ⟨_, rfl⟩
    have unique (t : DerivationTree) (ht : t.Derives .«class») (hkt : t.kinds = tokens.map (·.kind)) :
        t.plain = c.tree.plain := ht.plain_eq_tree (hkt.trans hk.symm)
    refine ⟨c.tree.events, children.flatMap (·.events), trace_of_kinds hk h, ?_, ?_, ?_, ?_⟩
    · exact ⟨c.tree, c.tree_derives, c.tree_kinds.trans hk⟩
    · intro t ht hkt
      refine ⟨(DerivationTree.events_eq_of_plain (unique t ht hkt)).symm, ?_⟩
      intro t' ht' hkt'
      rw [unique t ht hkt, unique t' ht' hkt']
    · rw [htree, DerivationTree.events_node]
      rfl
    · exact settled_flatMap (fun t _ => t.settled) []
  · obtain ⟨c, begun, htrace, hp, hall⟩ := beginning_of_error h
    by_cases same : .enter .«class» :: begun = c.steps
    · refine ⟨_, [], htrace, ?_, List.isChain_nil, .inr ⟨rfl, hall same⟩⟩
      rw [same, ← c.tree_events]
      exact c.tree.settled []
    · obtain ⟨rules, hopen, hchain⟩ := c.opens_of_beginning hp same
      exact ⟨_, _, htrace, hopen, hchain, .inl ⟨rules, rfl⟩⟩

/-- A class with nothing in it, and a class that breaks off inside the parentheses of a value that is returned. -/
theorem trace_follows_derivation_samples :
    let kinds : List TokenKind := [.keyword .«class», .identifier "A", .symbol '\x7b']
    let declared : List TokenKind :=
      [.keyword .function, .keyword .int, .identifier "f", .symbol '(', .symbol ')', .symbol '\x7b']
    let complete : List Token := unplaced (kinds ++ [.symbol '\x7d'])
    let broken : List Token := unplaced (kinds ++ declared ++ [.keyword .«return», .symbol '('])
    ((compile false true complete).result = .ok ⟨"A", [], []⟩ ∧
      (compile false false complete).result = .ok ⟨"A", [], []⟩ ∧
      ∃ t : DerivationTree, t.Derives .«class» ∧ t.kinds = complete.map (·.kind) ∧
        (compile false true complete).trace? = some t.events ∧ t.events = [.enter .«class», .leave .«class»]) ∧
    ((compile false true broken).result = .error (.grammar (.unexpectedEnd "term" .nowhere)) ∧
      ∃ trace opened, (compile false true broken).trace? = some trace ∧ openRules [] trace = some opened.reverse ∧
        opened.IsChain Rule.Holds ∧ ∃ others, opened = .«class» :: others) := by
  intro kinds declared complete broken
  have compiled : (compile false true complete).result = .ok ⟨"A", [], []⟩ := by decide +kernel
  have fails : (compile false true broken).result = .error (.grammar (.unexpectedEnd "term" .nowhere)) := by
    decide +kernel
  have seen : (compile false true complete).trace? = some [.enter .«class», .leave .«class»] := by decide +kernel
  obtain ⟨passive, success, -⟩ := trace_follows_derivation false complete
  obtain ⟨trace, -, htrace, ⟨t, ht, hk⟩, htour, -⟩ := success _ compiled
  obtain ⟨rfl, -⟩ := htour t ht hk
  obtain ⟨trace', opened, htrace', hopen, hchain, hclass⟩ := (trace_follows_derivation false broken).2.2 _ fails
  refine ⟨⟨compiled, passive ▸ compiled, t, ht, hk, htrace, ?_⟩, fails, trace', opened, htrace', hopen, hchain, ?_⟩
  · exact Option.some.inj (htrace.symm.trans seen)
  · rcases hclass with hclass | ⟨-, found, hfound⟩
    · exact hclass
    · cases hfound

end JackCompiler
