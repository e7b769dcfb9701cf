import JackCompiler.Proofs.Machine.Function
import Mathlib.Data.List.SplitBy

/-!
# Functions in code and the flow of control

The code of a class is one list of instructions. Each `function` instruction in it is the head of a function, which
goes on to the next head; `functionsOf` cuts the code there and loses nothing, and code that is put together from
functions is cut back into them (`functionsOf_flatten`). Control goes from an instruction to the next one or to the
label of a jump (`Flows`), and so does every step of the machine (`flows_of_next`). In a function that is closed,
control stays: it never comes past the last instruction (`Closed.lt_length`).
-/

namespace JackCompiler

open Vm

namespace Vm.Instruction

/-- Whether an instruction is the head of a function. -/
def isHead : Instruction → Bool
  | .function .. => true
  | _ => false

/-- Whether control may go on to the next instruction. -/
def goesOn : Instruction → Bool
  | .goto _ | .«return» => false
  | _ => true

/-- The label that control may jump to. -/
def target? : Instruction → Option String
  | .goto name | .ifGoto name => some name
  | _ => none

end Vm.Instruction

/-! ## Functions -/

/-- The functions in code: it is cut before every head. -/
def functionsOf (code : List Instruction) : List (List Instruction) :=
  code.splitBy fun _ i => !i.isHead

/-- Nothing is lost between the functions. -/
theorem flatten_functionsOf (code : List Instruction) : (functionsOf code).flatten = code :=
  List.flatten_splitBy _ code

/-- A head and instructions that are none. -/
def IsFunction (f : List Instruction) : Prop :=
  ∃ name locals body, f = .function name locals :: body ∧ ∀ i ∈ body, i.isHead = false

/-- Functions one after another are the functions in the code that they make. -/
theorem functionsOf_flatten {fs : List (List Instruction)} (h : ∀ f ∈ fs, IsFunction f) :
    functionsOf fs.flatten = fs := by
  refine List.splitBy_flatten ?_ ?_ ?_
  · intro hn
    obtain ⟨name, locals, body, hf, -⟩ := h [] hn
    cases hf
  · intro f hf
    obtain ⟨name, locals, body, rfl, hb⟩ := h f hf
    rw [List.isChain_iff_getElem]
    intro n hn
    have := hb _ (List.getElem_mem (l := body) (n := n) (by simpa using hn))
    simpa using this
  · rw [List.isChain_iff_getElem]
    intro n hn
    obtain ⟨name, locals, body, hf, -⟩ := h _ (List.getElem_mem (Nat.lt_of_succ_lt hn))
    obtain ⟨name', locals', body', hf', -⟩ := h _ (List.getElem_mem hn)
    exact ⟨by simp [hf], by simp [hf'], by simp [hf', Instruction.isHead]⟩

/-! ## Flow -/

/-- Control may go from one place of code to another: to the next instruction, or to the label of a jump. -/
inductive Flows (code : List Instruction) (pc : Nat) : Nat → Prop
  | next {i : Instruction} (hi : code[pc]? = some i) (h : i.goesOn = true) : Flows code pc (pc + 1)
  | jump {i : Instruction} {name : String} {dest : Nat} (hi : code[pc]? = some i) (h : i.target? = some name)
      (hdest : code[dest]? = some (.label name)) : Flows code pc dest

/-- The labels that code jumps to, in order. -/
def jumpsOf (code : List Instruction) : List String :=
  code.filterMap Instruction.target?

@[simp] theorem jumpsOf_append (code others : List Instruction) :
    jumpsOf (code ++ others) = jumpsOf code ++ jumpsOf others :=
  List.filterMap_append

/-- The place of a label is the place of an instruction that is this label. -/
theorem getElem?_of_target {code : List Instruction} {name : String} {dest : Nat}
    (h : Machine.target code name = some dest) : code[dest]? = some (.label name) := by
  obtain ⟨hl, hp, -⟩ := List.findIdx?_eq_some_iff_getElem.mp h
  rw [List.getElem?_eq_getElem hl, of_decide_eq_true hp]

/-- Where the machine steps, control flows. -/
theorem flows_of_next {functions : Functions} {code : List Instruction} {c c' : Frame}
    (h : Machine.next functions code c = some c') : Flows code c.pc c'.pc := by
  unfold Machine.next at h
  split at h
  · cases h
  · next name hi =>
    obtain ⟨dest, ht, rfl⟩ := Option.map_eq_some_iff.mp h
    exact .jump hi rfl (getElem?_of_target ht)
  · next name hi =>
    split at h
    · cases h
    · split at h
      · cases h
        exact .next hi rfl
      · obtain ⟨dest, ht, rfl⟩ := Option.map_eq_some_iff.mp h
        exact .jump hi rfl (getElem?_of_target ht)
  · next i hg hif hi =>
    obtain ⟨m, hm, rfl⟩ := Option.map_eq_some_iff.mp h
    refine .next hi ?_
    cases i with
    | goto name => exact absurd rfl (hg name)
    | «return» => cases hm
    | _ => rfl

/-! ## Closed functions -/

/-- What a function has to be for control to stay in it: it has one head, no label twice, the label of every jump once,
and a return at its end. -/
structure Closed (f : List Instruction) : Prop where
  function : IsFunction f
  labels : (labelsOf f).Nodup
  jumps : ∀ name ∈ jumpsOf f, (labelsOf f).count name = 1
  last : f.getLast? = some .«return»

namespace Closed

variable {f : List Instruction} {pc pc' : Nat}

/-- Control does not flow past the last instruction. -/
theorem lt_length_of_flows (h : Closed f) (hf : Flows f pc pc') : pc' < f.length := by
  cases hf with
  | @next i hi hg =>
    have hlt := (List.getElem?_eq_some_iff.mp hi).1
    have hne : pc ≠ f.length - 1 := by
      rintro rfl
      rw [← List.getLast?_eq_getElem?, h.last] at hi
      cases hi
      cases hg
    omega
  | jump hi ht hdest => exact (List.getElem?_eq_some_iff.mp hdest).1

/-- Control that enters at the head stays in the function. -/
theorem lt_length (h : Closed f) (hp : Relation.ReflTransGen (Flows f) 0 pc) : pc < f.length := by
  cases hp with
  | refl =>
    obtain ⟨name, locals, body, rfl, -⟩ := h.function
    exact Nat.succ_pos _
  | tail _ hf => exact h.lt_length_of_flows hf

/-- The machine that enters a function after its head stays in it. -/
theorem lt_length_of_reaches (h : Closed f) {functions : Functions} {c c' : Frame}
    (hc : Relation.ReflTransGen (Flows f) 0 c.pc) (hr : Machine.Reaches functions f c c') : c'.pc < f.length := by
  refine h.lt_length (hc.trans ?_)
  exact hr.lift Frame.pc fun _ _ => flows_of_next

end Closed

end JackCompiler
