import JackCompiler.Proofs.Generation.Acceptance
import JackCompiler.Proofs.Machine.ControlFlow

/-!
# The code of subroutines returns what their statements return

A function consists of its head, the code that sets its object, the code of its statements and, unless these end in a
return, a return of 0. The labels of all of it are distinct (`labels_distinct`), so the code of the statements does what
they do; statements that end without a return are not followed by the end of the code but by the return of 0
(`BlockExecutes.endsInReturn_eq_false`).
-/

namespace JackCompiler

open Machine (Reaches Returns)

/-- The store in which the statements of a subroutine begin: the object of a method is its first argument, and the object
of a constructor is new and has a word for each field. -/
def Store.enter (functions : Functions) (fields : Nat) (σ : Store) : SubroutineKind → Store
  | .constructor =>
    let new := σ.call functions "Memory.alloc" [UInt16.ofNat fields]
    { new.2 with this := new.1 }
  | .function => σ
  | .method => { σ with this := σ.arguments 0 }

/-- Where the code of the statements of a subroutine begins in its function. -/
def ClassDeclaration.bodyStart (c : ClassDeclaration) (s : Subroutine) : Nat :=
  1 + (Rules.prologue (Declaration.countOf .field c.scope) s.kind).length

variable {functions : Functions} {Γ : Context} {code : List Vm.Instruction} {m : Machine} {o : Outcome}

/-- The code before the statements sets the object. -/
theorem run_prologue (fields : Nat) (kind : SubroutineKind) (m : Machine) :
    ∃ m', m.run functions (Rules.prologue fields kind) = some m' ∧ m'.store = m.store.enter functions fields kind ∧
      m'.stack = m.stack := by
  cases kind with
  | constructor =>
    let new := m.store.call functions "Memory.alloc" [UInt16.ofNat fields]
    exact ⟨⟨{ new.2 with this := new.1 }, m.stack, m.leftovers.head.that, m.leftovers.head.temp, m.leftovers.tail⟩,
      rfl, rfl, rfl⟩
  | function => exact ⟨m, rfl, rfl, rfl⟩
  | method => exact ⟨_, rfl, rfl, rfl⟩

/-- Statements that end without a return do not have one at their end. -/
theorem BlockExecutes.endsInReturn_eq_false {block : List Statement} {σ σ' : Store}
    (h : BlockExecutes functions Γ block σ (.normal σ')) : endsInReturn block = false := by
  induction block generalizing σ with
  | nil => rfl
  | cons s others ih =>
    cases h with
    | next hs hb =>
      cases others with
      | nil =>
        cases s with
        | «return» value =>
          cases hs with
          | assigned ha => cases ha
        | _ => rfl
      | cons t others =>
        have := ih hb
        rwa [endsInReturn, List.getLast?_cons_cons]

/-- Where the code of a function does what an outcome says and then returns 0, the function returns the result. -/
theorem Does.returns {c : Frame} {stop : Nat} (h : Does functions code c stop [] o)
    (hz : ∀ σ, o = .normal σ → StandsAt code stop [.push .constant 0, .«return»]) :
    Returns functions code c o.result o.store := by
  cases o with
  | normal σ =>
    obtain ⟨m, hr, hm, hs⟩ := h
    have hz := hz σ rfl
    have hp : Reaches functions code ⟨stop, m⟩ ⟨stop + 1, { m with stack := [0] }⟩ := by
      refine .of_next (Machine.next_of_execute hz.head ?_)
      simp [Machine.execute, Machine.read, hs]
    exact ⟨_, hr.trans hp, hz.tail.head, rfl, hm⟩
  | returned x σ =>
    obtain ⟨c', hr, hc, hm, hs⟩ := h
    exact ⟨c', hr, hc, hs, hm⟩

section

variable {strict : Bool} {c : ClassDeclaration} {s : Subroutine}

/-- The function of a subroutine returns what its statements return. -/
theorem Subroutine.Valid.returns (hv : s.Valid strict c) (hm : m.stack = [])
    (h : BlockExecutes functions (c.context s) s.body m.store o) :
    Returns functions (c.subroutineCode s) ⟨c.bodyStart s, m⟩ o.result o.store := by
  have stands := StandsAt.self (c.subroutineCode s)
  have body := stands.left.right
  rw [Nat.zero_add, List.length_cons, Nat.add_comm] at body
  have does := h.simulates (labels_distinct c s) hv.body 0 (c.bodyStart s) m body rfl
  rw [hm] at does
  refine does.returns fun σ ho => ?_
  subst ho
  have after := stands.right
  rw [h.endsInReturn_eq_false, List.length_append, List.length_cons, Nat.zero_add] at after
  simpa [ClassDeclaration.bodyStart, Nat.add_comm] using after

/-- The function of a subroutine comes from its head to its statements. -/
theorem reaches_body (functions : Functions) (c : ClassDeclaration) (s : Subroutine) (m : Machine) :
    ∃ m', Reaches functions (c.subroutineCode s) ⟨1, m⟩ ⟨c.bodyStart s, m'⟩ ∧
      m'.store = m.store.enter functions (Declaration.countOf .field c.scope) s.kind ∧ m'.stack = m.stack := by
  have stands := StandsAt.self (c.subroutineCode s)
  obtain ⟨m', hr, h⟩ := run_prologue (Declaration.countOf .field c.scope) s.kind m
  exact ⟨m', Machine.reaches_of_run stands.left.left.tail hr, h⟩

end

/-- The functions of a compiled class return what the statements of its subroutines return, on any machine with nothing on
the stack: from where the statements begin, and from the head, after which the object is set first. -/
theorem compiled_functions_return {strict record : Bool} {tokens : List Token} {r : CompiledClass}
    (h : (compile strict record tokens).result = .ok r) :
    Derivable tokens ∧ ∀ c : ClassDeclaration, c.kinds = tokens.map (·.kind) →
      r.code = c.subroutines.flatMap c.subroutineCode ∧
      ∀ s ∈ c.subroutines, ∀ (functions : Functions) (m : Machine) (o : Outcome), m.stack = [] →
        (BlockExecutes functions (c.context s) s.body m.store o →
          Returns functions (c.subroutineCode s) ⟨c.bodyStart s, m⟩ o.result o.store) ∧
        (BlockExecutes functions (c.context s) s.body
            (m.store.enter functions (Declaration.countOf .field c.scope) s.kind) o →
          Returns functions (c.subroutineCode s) ⟨1, m⟩ o.result o.store) := by
  obtain ⟨c, hk, -⟩ := compile_eq_ok_iff.mp h
  refine ⟨⟨c, hk⟩, fun c hk => ?_⟩
  obtain ⟨hv, rfl⟩ := (compile_kinds_eq_ok_iff hk).mp h
  refine ⟨rfl, fun s hs functions m o hm => ⟨fun hb => ?_, fun hb => ?_⟩⟩
  · exact (hv.subroutines s hs).returns hm hb
  · obtain ⟨m', hr, hm', hs'⟩ := reaches_body functions c s m
    rw [← hm'] at hb
    exact ((hv.subroutines s hs).returns (hs'.trans hm) hb).of_reaches hr

/-- Functions that return 0 and change nothing. -/
def sampleFunctions : Functions :=
  fun _ _ shared => (0, shared)

/-- A machine that begins a function on the object at 0 with 1 as its second argument, where all of memory is 7. -/
def sampleMachine : Machine where
  store :=
    { statics := fun _ => 0
      memory := fun _ => 7
      arguments := fun i => if i = 1 then 1 else 0
      locals := fun _ => 0
      this := 0 }
  stack := []
  that := 0
  temp := fun _ => 0
  leftovers := Stream'.const ⟨0, fun _ => 0⟩

/-- One times 7 is 7. -/
theorem compiled_functions_return_sample :
    (compile false false (unplaced sampleClass.kinds)).result = .ok sampleClass.compiled ∧
      ∃ σ, Returns sampleFunctions (sampleClass.subroutineCode sampleMethod) ⟨1, sampleMachine⟩ 7 σ := by
  have hc : (compile false false (unplaced sampleClass.kinds)).result = .ok sampleClass.compiled := by decide +kernel
  refine ⟨hc, ?_⟩
  obtain ⟨-, returns⟩ := (compiled_functions_return hc).2 sampleClass (by decide +kernel)
  let Γ := sampleClass.context sampleMethod
  let σ := sampleMachine.store.enter sampleFunctions 1 .method
  obtain ⟨τ, once, hn, hs⟩ : ∃ τ, BlockExecutes sampleFunctions Γ
        [.let "s" (.binary (.term (.variable "s")) .add (.variable "x")),
          .let "n" (.binary (.term (.variable "n")) .subtract (.integer 1))] σ (.normal τ) ∧
      Expression.eval sampleFunctions Γ (.binary (.term (.variable "n")) .greater (.integer 0)) τ = some (0, τ) ∧
      Expression.eval sampleFunctions Γ (.term (.variable "s")) τ = some (7, τ) :=
    ⟨_, .next (.assigned rfl) (.next (.assigned rfl) .nil), by with_unfolding_all rfl,
      by with_unfolding_all rfl⟩
  have hb : BlockExecutes sampleFunctions Γ sampleMethod.body σ (.returned 7 τ) :=
    .next (.whileAgain _ _ rfl once (.whileFalse _ _ hn (by decide))) (.leave (.returned _ hs))
  exact ⟨τ, (returns sampleMethod (List.mem_singleton.mpr rfl) sampleFunctions sampleMachine _ rfl).2 hb⟩

end JackCompiler
