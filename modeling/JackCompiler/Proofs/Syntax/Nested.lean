import JackCompiler.Proofs.Syntax.Productions
import Mathlib.Data.List.Chain

/-!
# Traces are nested

A trace is nested when every end of a rule closes the rule that began last. What an observer sees of a derivation tree is
nested as a whole, and so is all that was seen up to some point: the rules that are open there form a chain in the grammar,
each of them inside the one before with no observable rule between (`DerivationTree.Licensed.opens`).
-/

namespace JackCompiler

/-! ## Open rules -/

/-- The rules that are open after a trace, the innermost first, if every end closes the innermost one; `opened` are those
before. -/
def openRules (opened : List Rule) : Trace → Option (List Rule)
  | [] => some opened
  | .enter rule :: trace => openRules (rule :: opened) trace
  | .leave rule :: trace =>
    match opened with
    | [] => none
    | innermost :: others => if rule = innermost then openRules others trace else none

theorem openRules_append (opened : List Rule) (trace later : Trace) :
    openRules opened (trace ++ later) = (openRules opened trace).bind fun others => openRules others later := by
  induction trace generalizing opened with
  | nil => rfl
  | cons event trace ih =>
    cases event with
    | enter rule => exact ih (rule :: opened)
    | leave rule =>
      cases opened with
      | nil => rfl
      | cons innermost others =>
        simp only [List.cons_append, openRules]
        split
        · exact ih others
        · rfl

/-- A trace that leaves the open rules as they were, whatever they are. -/
def Settled (trace : Trace) : Prop :=
  ∀ opened, openRules opened trace = some opened

theorem Settled.append {trace later : Trace} (h : Settled trace) (h' : Settled later) : Settled (trace ++ later) := by
  intro opened
  rw [openRules_append, h opened, Option.bind_some, h' opened]

theorem Settled.inside {trace : Trace} (h : Settled trace) (rule? : Option Rule) : Settled (Trace.inside rule? trace) := by
  cases rule? with
  | none => exact h
  | some rule =>
    intro opened
    rw [Trace.inside, List.cons_append, openRules, openRules_append, h, Option.bind_some, openRules, if_pos rfl, openRules]

theorem settled_flatMap {ts : Forest} (h : ∀ t ∈ ts, Settled t.events) : Settled (ts.flatMap (·.events)) := by
  induction ts with
  | nil => exact fun _ => rfl
  | cons t ts ih =>
    obtain ⟨ht, hts⟩ := List.forall_mem_cons.mp h
    rw [List.flatMap_cons]
    exact ht.append (ih hts)

/-- What is seen of a whole tree leaves no rule open. -/
theorem DerivationTree.settled (t : DerivationTree) : Settled t.events := by
  induction t using DerivationTree.induct with
  | token kind => exact fun _ => rfl
  | node part children ih =>
    rw [DerivationTree.events_node]
    exact (settled_flatMap ih).inside part.rule?

/-! ## Chains of rules in the grammar -/

/-- The parts that a form speaks of. -/
def Form.parts : Form → List Nonterminal
  | part n => [n]
  | seq first second => first.parts ++ second.parts
  | either one other => one.parts ++ other.parts
  | optional form | many form => form.parts
  | keyword _ | symbol _ | identifier | integer | string | empty | never => []

/-- A part may hold a rule: of a part in its form, or inside such a part that has no rule of its own. -/
inductive Nonterminal.Holds : Nonterminal → Rule → Prop
  | direct {n : Nonterminal} {rule : Rule} (part : Nonterminal) (mem : part ∈ n.form.parts)
      (here : part.rule? = some rule) : Holds n rule
  | through {n : Nonterminal} {rule : Rule} (part : Nonterminal) (mem : part ∈ n.form.parts)
      (unseen : part.rule? = none) (below : Holds part rule) : Holds n rule

/-- The next observable rule inside a rule may be the given one. -/
def Rule.Holds (outer inner : Rule) : Prop :=
  ∃ n : Nonterminal, n.rule? = some outer ∧ n.Holds inner

/-- A statement is not observable by itself, so the five statements come next inside `statements`. -/
example : Rule.Holds .statements .ifStatement :=
  ⟨.statements, rfl, .through .statement (by decide) rfl (.direct .ifStatement (by decide) rfl)⟩

/-- The trees of a form are of the parts it speaks of. -/
theorem Form.Writes.mem_parts {form : Form} {ts : Forest} (h : form.Writes DerivationTree.Stands ts) :
    ∀ t ∈ ts, ∀ n, t.root? = some n → n ∈ form.parts := by
  induction form generalizing ts with
  | keyword | symbol =>
    cases h
    simp [DerivationTree.root?]
  | identifier | integer | string =>
    obtain ⟨a, rfl⟩ := h
    simp [DerivationTree.root?]
  | part m =>
    obtain ⟨t, ht, rfl⟩ := h
    rw [List.forall_mem_singleton]
    intro n hn
    rw [DerivationTree.Stands, hn, Option.some_inj] at ht
    exact List.mem_singleton.mpr ht
  | empty =>
    cases h
    exact List.forall_mem_nil _
  | seq first second ihFirst ihSecond =>
    obtain ⟨us, vs, hu, hv, rfl⟩ := h
    rw [List.forall_mem_append]
    exact ⟨fun t ht n hn => List.mem_append_left _ (ihFirst hu t ht n hn),
      fun t ht n hn => List.mem_append_right _ (ihSecond hv t ht n hn)⟩
  | never => cases h
  | either one other ihOne ihOther =>
    rcases h with h | h
    · exact fun t ht n hn => List.mem_append_left _ (ihOne h t ht n hn)
    · exact fun t ht n hn => List.mem_append_right _ (ihOther h t ht n hn)
  | optional form ih =>
    rcases h with rfl | h
    · exact List.forall_mem_nil _
    · exact ih h
  | many form ih =>
    obtain ⟨parts, hparts, rfl⟩ := h
    intro t ht n hn
    obtain ⟨us, hus, ht⟩ := List.mem_flatten.mp ht
    exact ih (hparts us hus) t ht n hn

/-! ## What is open in a part of a trace -/

/-- Rules that may be open inside a part, the outermost first: a chain that begins with the rule of the part, or with one
that the part may hold. -/
def Nonterminal.Opens (n : Nonterminal) (rules : List Rule) : Prop :=
  rules.IsChain Rule.Holds ∧ ∀ rule ∈ rules.head?, n.rule? = some rule ∨ n.rule? = none ∧ n.Holds rule

/-- After a trace the given rules are open in addition, the outermost first. -/
def LeavesOpen (trace : Trace) (rules : List Rule) : Prop :=
  ∀ opened, openRules opened trace = some (rules.reverse ++ opened)

theorem LeavesOpen.of_settled {trace later : Trace} {rules : List Rule} (h : Settled trace) (h' : LeavesOpen later rules) :
    LeavesOpen (trace ++ later) rules := by
  intro opened
  rw [openRules_append, h opened, Option.bind_some, h' opened]

theorem LeavesOpen.enter {trace : Trace} {rules : List Rule} (h : LeavesOpen trace rules) (rule : Rule) :
    LeavesOpen (.enter rule :: trace) (rule :: rules) := by
  intro opened
  rw [openRules, h, List.reverse_cons, List.append_assoc, List.singleton_append]

/-- A beginning of two traces one after another ends in the first or goes on into the second. -/
theorem prefix_append_cases {α : Type} {l first second : List α} (h : l <+: first ++ second) :
    l <+: first ∨ ∃ l', l' <+: second ∧ l = first ++ l' := by
  rcases List.prefix_or_prefix_of_prefix h (List.prefix_append first second) with h' | ⟨l', rfl⟩
  · exact .inl h'
  · exact .inr ⟨l', (List.prefix_append_right_inj first).mp h, rfl⟩

/-- In the middle of trees one after another, the rules that are open are those of one of the trees. -/
theorem exists_open_of_forest {ts : Forest} {P : List Rule → Prop} (hnil : P [])
    (h : ∀ t ∈ ts, ∀ trace, trace <+: t.events → ∃ rules, LeavesOpen trace rules ∧ P rules) {trace : Trace}
    (ht : trace <+: ts.flatMap (·.events)) : ∃ rules, LeavesOpen trace rules ∧ P rules := by
  induction ts generalizing trace with
  | nil =>
    rw [List.flatMap_nil, List.prefix_nil] at ht
    rw [ht]
    exact ⟨[], fun _ => rfl, hnil⟩
  | cons t ts ih =>
    obtain ⟨hfirst, hothers⟩ := List.forall_mem_cons.mp h
    rw [List.flatMap_cons] at ht
    rcases prefix_append_cases ht with hp | ⟨later, hp, rfl⟩
    · exact hfirst trace hp
    · obtain ⟨rules, hopen, hrules⟩ := ih hothers hp
      exact ⟨rules, .of_settled t.settled hopen, hrules⟩

section

variable {n part : Nonterminal} {rules : List Rule}

/-- What may be open inside a part of the form of another part may be open inside that part, if it has no rule. -/
theorem Nonterminal.Opens.through (hn : n.rule? = none) (mem : part ∈ n.form.parts) (h : part.Opens rules) :
    n.Opens rules := by
  refine ⟨h.1, fun rule hr => .inr ⟨hn, ?_⟩⟩
  rcases h.2 rule hr with here | ⟨unseen, below⟩
  · exact .direct part mem here
  · exact .through part mem unseen below

/-- What may be open inside a part of the form of another part may be open behind the rule of that part. -/
theorem Nonterminal.Opens.isChain_cons {rule : Rule} (hn : n.rule? = some rule) (mem : part ∈ n.form.parts)
    (h : part.Opens rules) : (rule :: rules).IsChain Rule.Holds := by
  rw [List.isChain_cons]
  refine ⟨fun inner hi => ⟨n, hn, ?_⟩, h.1⟩
  rcases h.2 inner hi with here | ⟨unseen, below⟩
  · exact .direct part mem here
  · exact .through part mem unseen below

end

/-- Inside a part, what is open may be open inside one of the parts in its form, if the same holds of its children. -/
theorem Form.Writes.opens {form : Form} {ts : Forest} (written : form.Writes DerivationTree.Stands ts)
    (h : ∀ t ∈ ts, ∀ trace, trace <+: t.events →
      ∃ rules, LeavesOpen trace rules ∧ (rules = [] ∨ ∃ n, t.root? = some n ∧ n.Opens rules))
    {trace : Trace} (ht : trace <+: ts.flatMap (·.events)) :
    ∃ rules, LeavesOpen trace rules ∧ (rules = [] ∨ ∃ part ∈ form.parts, part.Opens rules) := by
  refine exists_open_of_forest (.inl rfl) (fun t hmem trace hp => ?_) ht
  obtain ⟨rules, hopen, hrules⟩ := h t hmem trace hp
  refine ⟨rules, hopen, hrules.imp_right ?_⟩
  rintro ⟨n, hn, hopens⟩
  exact ⟨n, written.mem_parts t hmem n hn, hopens⟩

/-- In the middle of a rule the rule is open, and then a chain that goes on from it. -/
theorem exists_open_of_enter {n : Nonterminal} {rule : Rule} (hn : n.rule? = some rule) {trace : Trace}
    (h : ∃ rules, LeavesOpen trace rules ∧ (rules = [] ∨ ∃ part ∈ n.form.parts, part.Opens rules)) :
    ∃ rules, LeavesOpen (.enter rule :: trace) (rule :: rules) ∧ (rule :: rules).IsChain Rule.Holds := by
  obtain ⟨rules, hopen, rfl | ⟨part, mem, hopens⟩⟩ := h
  · exact ⟨[], hopen.enter rule, List.isChain_singleton rule⟩
  · exact ⟨rules, hopen.enter rule, hopens.isChain_cons hn mem⟩

/-- In the middle of what is seen of a licensed tree, what is open may be open inside its part. -/
theorem DerivationTree.Licensed.opens {t : DerivationTree} (h : t.Licensed) (trace : Trace) (ht : trace <+: t.events) :
    ∃ rules, LeavesOpen trace rules ∧ (rules = [] ∨ ∃ n, t.root? = some n ∧ n.Opens rules) := by
  induction h generalizing trace with
  | token kind =>
    rw [DerivationTree.events_token, List.prefix_nil] at ht
    rw [ht]
    exact ⟨[], fun _ => rfl, .inl rfl⟩
  | @node part children written licensed ih =>
    have whole := (DerivationTree.node part children).settled
    rw [DerivationTree.events_node] at ht whole
    cases hrule : part.rule? with
    | none =>
      rw [hrule, Trace.inside] at ht
      obtain ⟨rules, hopen, rfl | ⟨m, mem, hopens⟩⟩ := written.opens ih ht
      · exact ⟨[], hopen, .inl rfl⟩
      · exact ⟨rules, hopen, .inr ⟨part, rfl, hopens.through hrule mem⟩⟩
    | some rule =>
      rw [hrule, Trace.inside] at ht whole
      rcases List.prefix_concat_iff.mp ht with rfl | hp
      · exact ⟨[], whole, .inl rfl⟩
      rcases List.prefix_cons_iff.mp hp with rfl | ⟨trace, rfl, hinner⟩
      · exact ⟨[], fun _ => rfl, .inl rfl⟩
      obtain ⟨rules, hopen, hchain⟩ := exists_open_of_enter hrule (written.opens ih hinner)
      exact ⟨rule :: rules, hopen, .inr ⟨part, rfl, hchain, by simpa using .inl hrule⟩⟩

/-- Between the beginning and the end of a tree with a rule, that rule is open, and a chain in the grammar goes on from
it. -/
theorem DerivationTree.Licensed.opens_inside {part : Nonterminal} {children : Forest} {rule : Rule}
    (h : (DerivationTree.node part children).Licensed) (hrule : part.rule? = some rule) {trace : Trace}
    (ht : trace <+: children.flatMap (·.events)) :
    ∃ rules, openRules [] (.enter rule :: trace) = some (rule :: rules).reverse ∧ (rule :: rules).IsChain Rule.Holds := by
  obtain ⟨written, licensed⟩ := licensed_node_iff.mp h
  obtain ⟨rules, hopen, hchain⟩ := exists_open_of_enter hrule
    (written.opens (fun t hmem trace hp => (licensed t hmem).opens trace hp) ht)
  exact ⟨rules, by rw [hopen, List.append_nil], hchain⟩

end JackCompiler
