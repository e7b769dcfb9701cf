import JackCompiler.Proofs.Generation.Acceptance
import JackCompiler.Proofs.Machine.Expressions

/-!
# The code of accepted expressions and assignments

What the walk takes for an expression or for a `let`, and a generator gets through, is code that computes what the text
means: the walk has taken a tree (`exists_reads_of_walkFrom`), the generator has written its code in the context that its
table makes, and that code computes the meaning of the tree.
-/

namespace JackCompiler

/-- What the names stand for where a generator is. -/
def Generator.context (g : Generator) : Context :=
  ⟨g.className, g.table.lookup?⟩

theorem Generator.sees_context (g : Generator) : g.Sees g.context :=
  ⟨rfl, fun _ => rfl⟩

/-- A walk that meets goals without places has read what they mean, but for places. -/
theorem exists_reads_of_walkFrom {last : Position} {goals : List Goal} {tokens rest : List Token} {steps : Array Step}
    (hg : goals.map (Goal.relocate fun _ => .nowhere) = goals)
    (h : walkFrom last goals tokens #[] = ⟨steps, .ok rest⟩) :
    ∃ used, tokens.map (·.kind) = used ++ rest.map (·.kind) ∧
      Goal.ReadsAll goals used (steps.toList.map (Step.relocate fun _ => .nowhere)) := by
  have hw := walkFrom_relocate (f := fun _ => .nowhere) last goals tokens #[]
  have hu : ∀ ts : List Token, ts.map (Token.relocate fun _ => .nowhere) = unplaced (ts.map (·.kind)) := by
    intro ts
    simp [unplaced, Token.relocate, Function.comp_def]
  rw [h, hg, hu, Array.map_empty] at hw
  obtain ⟨used, left, ss, hk, hr, hs, hreads⟩ := readsAll_of_walkFrom hw
  have hl : rest.map (·.kind) = left := by
    have := congrArg (List.map (·.kind)) (show rest.map (Token.relocate fun _ => .nowhere) = unplaced left from hr)
    simpa [unplaced, Function.comp_def] using this
  refine ⟨used, by rw [hk, hl], ?_⟩
  simp only [List.nil_append, Array.toList_map] at hs
  rwa [hs]

/-- The code that a generator has written in some steps. -/
theorem Writes.toList_eq {g g' : Generator} {steps : List Step} {needs : Prop} {code : List Vm.Instruction}
    (h : Writes g.context steps needs code) (hg : g.follow steps = .ok g') :
    needs ∧ g'.code.toList = g.code.toList ++ code := by
  obtain ⟨hn, rfl⟩ := (h g g.sees_context g').mp hg
  exact ⟨hn, Vm.Code.toList_writeAll g.code code⟩

section

variable {g g' : Generator} {last : Position} {tokens rest : List Token} {steps : Array Step}

/-- An accepted expression is that of a tree, and its code pushes the value of the tree. -/
theorem accepted_expression (hw : walkFrom last [.expression] tokens #[] = ⟨steps, .ok rest⟩)
    (hg : g.follow steps.toList = .ok g') :
    ∃ e : Expression, tokens.map (·.kind) = e.kinds ++ rest.map (·.kind) ∧ ∃ code,
      g'.code.toList = g.code.toList ++ code ∧ ∀ functions, Pushes functions code (e.eval functions g.context) := by
  obtain ⟨used, hk, hr⟩ := exists_reads_of_walkFrom rfl hw
  rw [Goal.readsAll_singleton] at hr
  obtain ⟨e, rfl, hs⟩ := hr
  rw [← Generator.follow_relocate, hs] at hg
  obtain ⟨hm, hc⟩ := e.writes.toList_eq hg
  exact ⟨e, hk, _, hc, fun functions => e.code_pushes functions hm⟩

/-- Only a `let` begins with its word. -/
theorem isLet_of_kinds {s : Statement} {kinds : List TokenKind} (h : .keyword .«let» :: kinds = s.kinds) : s.IsLet := by
  cases s with
  | «let» | letElement => exact trivial
  | _ => simp [Statement.kinds] at h

/-- An accepted `let` is that of a tree, and its code assigns what the tree says and leaves the stack as it was. -/
theorem accepted_let {goals : List Goal} (hl : Goal.statement? (.keyword .«let») = some goals)
    (hw : walkFrom last goals tokens #[] = ⟨steps, .ok rest⟩) (hg : g.follow steps.toList = .ok g') :
    ∃ s : Statement, s.IsLet ∧ .keyword .«let» :: tokens.map (·.kind) = s.kinds ++ rest.map (·.kind) ∧ ∃ code,
      g'.code.toList = g.code.toList ++ code ∧ ∀ (functions : Functions) (m : Machine), ∃ m',
        s.assigned functions g.context m.store = some m'.store ∧ m.run functions code = some m' ∧ m'.stack = m.stack := by
  obtain ⟨used, hk, hr⟩ := exists_reads_of_walkFrom (Goal.relocate_statement hl) hw
  obtain ⟨s, hs, hss⟩ := Goal.reads_statement hl hr
  have hlet := isLet_of_kinds hs
  rw [← Generator.follow_relocate, hss] at hg
  obtain ⟨hm, rfl⟩ := (s.writes g g.sees_context g').mp hg
  refine ⟨s, hlet, by rw [hk, ← hs, List.cons_append], _, Vm.Code.toList_writeAll g.code _, fun functions m => ?_⟩
  exact s.run_assigned functions hlet hm _ m

end

/-- The code of every expression and every `let` that is accepted, wherever it stands, computes what its tree means, on any
stack and whatever calls leave behind. -/
theorem accepted_code_computes (functions : Functions) (g : Generator) (last : Position) :
    (∀ (tokens rest : List Token) (steps : Array Step) (g' : Generator),
      walkFrom last [.expression] tokens #[] = ⟨steps, .ok rest⟩ → (g.run none steps.toList).1 = .ok g' →
        ∃ (e : Expression) (code : List Vm.Instruction),
          tokens.map (·.kind) = e.kinds ++ rest.map (·.kind) ∧ g'.code.toList = g.code.toList ++ code ∧
          ∀ m : Machine, ∃ v m', e.eval functions g.context m.store = some (v, m'.store) ∧
            m.run functions code = some m' ∧ m'.stack = v :: m.stack) ∧
    (∀ (tokens rest : List Token) (steps : Array Step) (g' : Generator) (goals : List Goal),
      Goal.statement? (.keyword .«let») = some goals →
      walkFrom last goals tokens #[] = ⟨steps, .ok rest⟩ → (g.run none steps.toList).1 = .ok g' →
        ∃ (s : Statement) (code : List Vm.Instruction), s.IsLet ∧
          .keyword .«let» :: tokens.map (·.kind) = s.kinds ++ rest.map (·.kind) ∧
          g'.code.toList = g.code.toList ++ code ∧
          ∀ m : Machine, ∃ m', s.assigned functions g.context m.store = some m'.store ∧
            m.run functions code = some m' ∧ m'.stack = m.stack) := by
  constructor
  · intro tokens rest steps g' hw hg
    rw [Generator.run_eq_follow] at hg
    obtain ⟨e, hk, code, hc, hp⟩ := accepted_expression hw hg
    exact ⟨e, code, hk, hc, hp functions⟩
  · intro tokens rest steps g' goals hl hw hg
    rw [Generator.run_eq_follow] at hg
    obtain ⟨s, hlet, hk, code, hc, hp⟩ := accepted_let hl hw hg
    exact ⟨s, code, hlet, hk, hc, hp functions⟩

/-- A generator in a function with a local `i`, in a class with a static array `a`. -/
def sampleScope : Generator where
  strict := false
  className := "Main"
  table := tableOf [⟨.static, "Array", "a"⟩] [⟨.«local», "int", "i"⟩]

/-- The next element of an array. -/
def sampleElement : Expression :=
  .term (.element "a" (.binary (.term (.variable "i")) .add (.integer 1)))

/-- An assignment of the next element of an array to an element. -/
def sampleAssignment : Statement :=
  .letElement "a" (.term (.variable "i")) sampleElement

theorem accepted_code_computes_sample :
    (∃ (e : Expression) (code : List Vm.Instruction),
      sampleElement.kinds = e.kinds ∧
      [.push .«local» 0, .push .constant 1, .arithmetic .add, .push .static 0, .arithmetic .add, .pop .pointer 1,
        .push .that 0] = code ∧
      ∀ m : Machine, ∃ v m', e.eval (fun _ _ s => (0, s)) sampleScope.context m.store = some (v, m'.store) ∧
        m.run (fun _ _ s => (0, s)) code = some m' ∧ m'.stack = v :: m.stack) ∧
    (∃ (s : Statement) (code : List Vm.Instruction), s.IsLet ∧ sampleAssignment.kinds = s.kinds ∧
      [.push .«local» 0, .push .static 0, .arithmetic .add, .push .«local» 0, .push .constant 1, .arithmetic .add,
        .push .static 0, .arithmetic .add, .pop .pointer 1, .push .that 0, .pop .temp 0, .pop .pointer 1,
        .push .temp 0, .pop .that 0] = code ∧
      ∀ m : Machine, ∃ m', s.assigned (fun _ _ s => (0, s)) sampleScope.context m.store = some m'.store ∧
        m.run (fun _ _ s => (0, s)) code = some m' ∧ m'.stack = m.stack) := by
  have computes := accepted_code_computes (fun _ _ s => (0, s)) sampleScope .nowhere
  constructor
  · have hw : walkFrom .nowhere [.expression] (unplaced (sampleElement.kinds ++ [.symbol ';'])) #[] =
        ⟨sampleElement.steps.toArray, .ok (unplaced [.symbol ';'])⟩ := by
      rw [unplaced_append, unplaced_cons, sampleElement.walk (endsExpression_semicolon _), walkFrom_nil]
      simp
    obtain ⟨e, code, hk, hc, hm⟩ := computes.1 _ _ _ (sampleScope.emit (sampleElement.code sampleScope.context)) hw rfl
    exact ⟨e, code, by simpa [unplaced, Function.comp_def] using hk, hc, hm⟩
  · have hw : walkFrom .nowhere (Goal.within .letStatement [.target, .symbol ';']) (unplaced sampleAssignment.kinds.tail)
        #[] = ⟨sampleAssignment.steps.toArray, .ok []⟩ := by
      have h := @walk_letElement .nowhere "a" (.term (.variable "i")) sampleElement [] [] #[]
      rw [List.append_nil, List.append_nil, walkFrom_nil] at h
      exact h.trans (by simp [sampleAssignment])
    obtain ⟨s, code, hl, hk, hc, hm⟩ := computes.2 _ _ _
      (sampleScope.emit (sampleAssignment.code sampleScope.context 0)) _ rfl hw rfl
    have hk' : .keyword .«let» :: sampleAssignment.kinds.tail = s.kinds := by
      simpa [unplaced, Function.comp_def] using hk
    exact ⟨s, code, hl, hk', hc, hm⟩

end JackCompiler
