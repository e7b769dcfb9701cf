import JackCompiler.Proofs.Machine.Machine
import Mathlib.Logic.Relation

/-!
# Functions on the machine

A function is a list of instructions, and a program counter walks over it. Jumps go on at the label of the given name in the
same function; a return ends the function, so nothing comes next there. Code that stands at some place of a function
(`StandsAt`) runs as it does alone (`reaches_of_run`), and a jump finds its label wherever the labels of the function are
distinct (`target_of_standsAt`).
-/

namespace JackCompiler

open Vm

/-- A place in a function and the state of the machine there. -/
structure Frame where
  pc : Nat
  machine : Machine

namespace Machine

variable (functions : Functions) (code : List Instruction)

/-- The place of a label in a function. -/
def target (label : String) : Option Nat :=
  code.findIdx? fun i => i = .label label

/-- What comes next, if anything does. A conditional jump takes a word and is made when the word is not 0. -/
def next (c : Frame) : Option Frame :=
  match code[c.pc]? with
  | none => none
  | some (.goto label) => (target code label).map fun pc => ⟨pc, c.machine⟩
  | some (.ifGoto label) =>
    match c.machine.stack with
    | [] => none
    | x :: s =>
      if x = 0 then some ⟨c.pc + 1, { c.machine with stack := s }⟩
      else (target code label).map fun pc => ⟨pc, { c.machine with stack := s }⟩
  | some i => (c.machine.execute functions i).map fun m => ⟨c.pc + 1, m⟩

/-- The machine comes from one place and state to another. -/
def Reaches : Frame → Frame → Prop :=
  Relation.ReflTransGen fun c c' => next functions code c = some c'

/-- The machine comes to a return with only the result on the stack. -/
def Returns (c : Frame) (result : Word) (σ : Store) : Prop :=
  ∃ c', Reaches functions code c c' ∧ code[c'.pc]? = some .«return» ∧ c'.machine.stack = [result] ∧
    c'.machine.store = σ

end Machine

/-! ## Parts of a function -/

/-- A part of a function stands at a place. -/
def StandsAt (code : List Instruction) (pc : Nat) (part : List Instruction) : Prop :=
  ∃ before after, code = before ++ part ++ after ∧ before.length = pc

namespace StandsAt

variable {code part others : List Instruction} {pc : Nat} {i : Instruction}

theorem self (code : List Instruction) : StandsAt code 0 code :=
  ⟨[], [], by simp, rfl⟩

theorem left (h : StandsAt code pc (part ++ others)) : StandsAt code pc part := by
  obtain ⟨before, after, rfl, hl⟩ := h
  exact ⟨before, others ++ after, by simp, hl⟩

theorem right (h : StandsAt code pc (part ++ others)) : StandsAt code (pc + part.length) others := by
  obtain ⟨before, after, rfl, rfl⟩ := h
  exact ⟨before ++ part, after, by simp, List.length_append⟩

theorem head (h : StandsAt code pc (i :: part)) : code[pc]? = some i := by
  obtain ⟨before, after, rfl, rfl⟩ := h
  simp

theorem tail (h : StandsAt code pc (i :: part)) : StandsAt code (pc + 1) part := by
  have h' : StandsAt code pc ([i] ++ part) := h
  exact h'.right

end StandsAt

namespace Machine

variable {functions : Functions} {code part : List Instruction} {pc : Nat} {m m' : Machine} {c c' : Frame}

theorem Reaches.refl (c : Frame) : Reaches functions code c c :=
  Relation.ReflTransGen.refl

theorem Reaches.trans {c'' : Frame} (h : Reaches functions code c c') (h' : Reaches functions code c' c'') :
    Reaches functions code c c'' :=
  Relation.ReflTransGen.trans h h'

theorem Reaches.of_next (h : next functions code c = some c') : Reaches functions code c c' :=
  Relation.ReflTransGen.single h

theorem Returns.of_reaches {result : Word} {σ : Store} (h : Returns functions code c' result σ)
    (hr : Reaches functions code c c') : Returns functions code c result σ := by
  obtain ⟨c'', hr', h⟩ := h
  exact ⟨c'', hr.trans hr', h⟩

/-- An instruction that the machine can execute alone is no jump. -/
theorem next_of_execute {i : Instruction} (hi : code[pc]? = some i) (h : m.execute functions i = some m') :
    next functions code ⟨pc, m⟩ = some ⟨pc + 1, m'⟩ := by
  cases i with
  | goto | ifGoto => cases h
  | _ => simp [next, hi, h]

/-- A part of a function runs as it does alone. -/
theorem reaches_of_run (ha : StandsAt code pc part) (h : m.run functions part = some m') :
    Reaches functions code ⟨pc, m⟩ ⟨pc + part.length, m'⟩ := by
  induction part generalizing pc m with
  | nil =>
    cases h
    exact .refl _
  | cons i is ih =>
    rw [run, Option.bind_eq_some_iff] at h
    obtain ⟨m1, h1, h2⟩ := h
    refine (Reaches.of_next (next_of_execute ha.head h1)).trans ?_
    rw [List.length_cons, Nat.add_comm is.length, ← Nat.add_assoc]
    exact ih ha.tail h2

end Machine

/-! ## Labels -/

/-- The labels of code in order. -/
def labelsOf (code : List Instruction) : List String :=
  code.filterMap fun i => match i with
    | .label name => some name
    | _ => none

@[simp] theorem labelsOf_append (code others : List Instruction) :
    labelsOf (code ++ others) = labelsOf code ++ labelsOf others :=
  List.filterMap_append

theorem mem_labelsOf {code : List Instruction} {name : String} : name ∈ labelsOf code ↔ .label name ∈ code := by
  rw [labelsOf, List.mem_filterMap]
  constructor
  · rintro ⟨i, hi, h⟩
    cases i with
    | label other =>
      cases h
      exact hi
    | _ => cases h
  · intro h
    exact ⟨_, h, rfl⟩

/-- Where the labels of a function are distinct, a jump finds its label. -/
theorem target_of_standsAt {code part : List Instruction} {pc : Nat} {name : String} (hn : (labelsOf code).Nodup)
    (h : StandsAt code pc (.label name :: part)) : Machine.target code name = some pc := by
  obtain ⟨before, after, rfl, rfl⟩ := h
  have hb : Instruction.label name ∉ before := by
    rw [← mem_labelsOf]
    intro hm
    rw [List.append_assoc, labelsOf_append, List.nodup_append] at hn
    refine hn.2.2 name hm name ?_ rfl
    rw [mem_labelsOf]
    simp
  rw [Machine.target, List.append_assoc, List.findIdx?_append]
  have hf : before.findIdx? (fun i => i = .label name) = none := by
    rw [List.findIdx?_eq_none_iff]
    intro i hi
    simp only [decide_eq_false_iff_not]
    rintro rfl
    exact hb hi
  rw [hf]
  simp [List.findIdx?_cons]

end JackCompiler
