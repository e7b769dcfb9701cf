import JackCompiler.Proofs.Machine.Expressions
import JackCompiler.Proofs.Machine.Labels

/-!
# The code of statements does what they say

A statement that ends in some way is simulated by its code wherever that stands in a function with distinct labels
(`Statement.Executes.simulates`): the machine comes to the end of the code with the same stack, or it comes to a return
with the returned word on that stack. The induction is on the run of the statement; a loop jumps back to its own first
label and is simulated again from there.
-/

namespace JackCompiler

open Vm

open Machine (Reaches)

variable {functions : Functions} {Γ : Context} {code : List Instruction}

/-- From a place, the machine does what an outcome says: it comes to the place where the code ends with a given stack, or to
a return with the returned word on that stack. -/
def Does (functions : Functions) (code : List Instruction) (c : Frame) (stop : Nat) (s : List Word) : Outcome → Prop
  | .normal σ => ∃ m, Reaches functions code c ⟨stop, m⟩ ∧ m.store = σ ∧ m.stack = s
  | .returned x σ =>
    ∃ c', Reaches functions code c c' ∧ code[c'.pc]? = some .«return» ∧ c'.machine.store = σ ∧ c'.machine.stack = x :: s

theorem Does.of_reaches {c c' : Frame} {stop : Nat} {s : List Word} {o : Outcome} (hr : Reaches functions code c c')
    (h : Does functions code c' stop s o) : Does functions code c stop s o := by
  cases o with
  | normal σ =>
    obtain ⟨m, hm, h⟩ := h
    exact ⟨m, hr.trans hm, h⟩
  | returned x σ =>
    obtain ⟨c'', hc, h⟩ := h
    exact ⟨c'', hr.trans hc, h⟩

/-- A part of a function does what an outcome says, wherever it stands and whatever is on the stack. -/
def Simulates (functions : Functions) (code part : List Instruction) (σ : Store) (o : Outcome) : Prop :=
  ∀ (pc : Nat) (m : Machine), StandsAt code pc part → m.store = σ →
    Does functions code ⟨pc, m⟩ (pc + part.length) m.stack o

/-! ## Parts one after another -/

namespace Simulates

variable {part others rest : List Instruction} {σ σ' : Store} {x : Word} {o : Outcome}

/-- Instructions without jumps that leave the stack as it was. -/
theorem of_run
    (h : ∀ m : Machine, m.store = σ → ∃ m', m.run functions part = some m' ∧ m'.store = σ' ∧ m'.stack = m.stack) :
    Simulates functions code part σ (.normal σ') := by
  intro pc m ha hm
  obtain ⟨m', hr, h⟩ := h m hm
  exact ⟨m', Machine.reaches_of_run ha hr, h⟩

theorem append (h : Simulates functions code part σ (.normal σ')) (h' : Simulates functions code others σ' o) :
    Simulates functions code (part ++ others) σ o := by
  intro pc m ha hm
  obtain ⟨m1, hr, hm1, hs1⟩ := h pc m ha.left hm
  rw [List.length_append, ← Nat.add_assoc, ← hs1]
  exact (h' _ m1 ha.right hm1).of_reaches hr

/-- What comes after a return is never reached. -/
theorem append_of_returned (h : Simulates functions code part σ (.returned x σ')) :
    Simulates functions code (part ++ others) σ (.returned x σ') :=
  fun pc m ha hm => h pc m ha.left hm

theorem label (name : String) : Simulates functions code [.label name] σ (.normal σ) :=
  of_run fun m hm => ⟨m, rfl, hm, rfl⟩

theorem nil : Simulates functions code [] σ (.normal σ) :=
  of_run fun m hm => ⟨m, rfl, hm, rfl⟩

/-- Instructions without effect may follow, whatever the outcome. -/
theorem append_idle (h : Simulates functions code part σ o) (hi : ∀ σ, Simulates functions code rest σ (.normal σ)) :
    Simulates functions code (part ++ rest) σ o := by
  cases o with
  | normal σ' => exact h.append (hi σ')
  | returned x σ' => exact h.append_of_returned

end Simulates

/-! ## Jumps -/

section

variable {part rest : List Instruction} {σ σ' : Store} {x : Word} {o : Outcome} {e : Expression}

/-- A jump forward to a label: what is between is skipped. -/
theorem Simulates.goto (name : String) (part : List Instruction) (hn : (labelsOf code).Nodup)
    (h : Simulates functions code rest σ o) :
    Simulates functions code (.goto name :: part ++ .label name :: rest) σ o := by
  intro pc m ha hm
  have ht := target_of_standsAt hn ha.right
  have hr : Reaches functions code ⟨pc, m⟩ ⟨pc + (.goto name :: part : List Instruction).length, m⟩ := by
    refine .of_next ?_
    rw [Machine.next, ha.left.head]
    simp [ht]
  have hl : Reaches functions code ⟨pc + (.goto name :: part : List Instruction).length, m⟩ _ :=
    .of_next (Machine.next_of_execute ha.right.head rfl)
  have hlen : pc + (.goto name :: part ++ .label name :: rest : List Instruction).length =
      pc + (.goto name :: part : List Instruction).length + 1 + rest.length := by
    simp only [List.length_append, List.length_cons]
    omega
  rw [hlen]
  exact (h _ m ha.right.tail hm).of_reaches (hr.trans hl)

theorem not_eq_zero_iff (x : Word) : ~~~x = 0 ↔ x = 0xFFFF := by
  constructor
  · intro h
    rw [← UInt16.not_not (a := x), h]
    rfl
  · rintro rfl
    rfl

/-- The complement of a condition is on the stack when the machine comes to the conditional jump. -/
theorem reaches_condition {pc : Nat} {m : Machine} (hd : Γ.Meets e.demands)
    (h : StandsAt code pc (e.code Γ ++ .arithmetic .not :: part)) (he : e.eval functions Γ m.store = some (x, σ)) :
    ∃ m', Reaches functions code ⟨pc, m⟩ ⟨pc + (e.code Γ).length + 1, m'⟩ ∧ m'.store = σ ∧ m'.stack = ~~~x :: m.stack := by
  obtain ⟨x', m1, he1, hr1, hs1⟩ := e.code_pushes functions hd m
  obtain ⟨rfl, rfl⟩ : x' = x ∧ m1.store = σ := by
    rw [he, Option.some.injEq, Prod.mk.injEq] at he1
    exact ⟨he1.1.symm, he1.2.symm⟩
  refine ⟨{ m1 with stack := ~~~x' :: m.stack }, ?_, rfl, rfl⟩
  refine (Machine.reaches_of_run h.left hr1).trans (.of_next (Machine.next_of_execute h.right.head ?_))
  simp [Machine.execute, Machine.compute, hs1]

/-- A condition that is all ones lets the machine go on. -/
theorem Simulates.of_true (name : String) (hd : Γ.Meets e.demands) (he : e.eval functions Γ σ = some (0xFFFF, σ'))
    (h : Simulates functions code part σ' o) :
    Simulates functions code (e.code Γ ++ [.arithmetic .not, .ifGoto name] ++ part) σ o := by
  refine Simulates.append ?_ h
  rintro pc m ha rfl
  obtain ⟨m1, hr, hm, hs⟩ := reaches_condition hd ha he
  have h0 : ~~~(0xFFFF : Word) = 0 := rfl
  refine ⟨{ m1 with stack := m.stack }, hr.trans (.of_next ?_), hm, rfl⟩
  rw [Machine.next, ha.right.tail.head]
  simp [hs, h0, Nat.add_assoc]

/-- A condition that is not all ones makes the machine jump to the label: what is between is skipped. -/
theorem Simulates.of_false (name : String) (part : List Instruction) (hn : (labelsOf code).Nodup)
    (hd : Γ.Meets e.demands) (he : e.eval functions Γ σ = some (x, σ')) (hx : x ≠ 0xFFFF)
    (h : Simulates functions code rest σ' o) :
    Simulates functions code (e.code Γ ++ .arithmetic .not :: .ifGoto name :: part ++ .label name :: rest) σ o := by
  rintro pc m ha rfl
  have ht := target_of_standsAt hn ha.right
  obtain ⟨m1, hr, hm, hs⟩ := reaches_condition hd ha.left he
  have hx' : ~~~x ≠ 0 := fun h0 => hx ((not_eq_zero_iff x).mp h0)
  have hj : Reaches functions code ⟨pc + (e.code Γ).length + 1, m1⟩
      ⟨pc + (e.code Γ ++ .arithmetic .not :: .ifGoto name :: part).length, { m1 with stack := m.stack }⟩ := by
    refine .of_next ?_
    rw [Machine.next, ha.left.right.tail.head]
    simp only [hs, if_neg hx', ht, Option.map_some]
  have hl : Reaches functions code ⟨pc + (e.code Γ ++ .arithmetic .not :: .ifGoto name :: part).length,
      { m1 with stack := m.stack }⟩ _ :=
    .of_next (Machine.next_of_execute ha.right.head rfl)
  have hlen : pc + (e.code Γ ++ .arithmetic .not :: .ifGoto name :: part ++ .label name :: rest).length =
      pc + (e.code Γ ++ .arithmetic .not :: .ifGoto name :: part).length + 1 + rest.length := by
    simp only [List.length_append, List.length_cons]
    omega
  rw [hlen]
  exact (h _ { m1 with stack := m.stack } ha.right.tail hm).of_reaches ((hr.trans hj).trans hl)

/-- A loop jumps back to the label before it. -/
theorem Simulates.again (name : String) (hn : (labelsOf code).Nodup) (h : Simulates functions code part σ (.normal σ'))
    (h' : Simulates functions code (.label name :: part ++ .goto name :: rest) σ' o) :
    Simulates functions code (.label name :: part ++ .goto name :: rest) σ o := by
  intro pc m ha hm
  have ht := target_of_standsAt hn ha.left
  have hl : Reaches functions code ⟨pc, m⟩ ⟨pc + 1, m⟩ := .of_next (Machine.next_of_execute ha.left.head rfl)
  obtain ⟨m1, hr, hm1, hs1⟩ := h _ m ha.left.tail hm
  have hj : Reaches functions code ⟨pc + 1 + part.length, m1⟩ ⟨pc, m1⟩ := by
    have hg := ha.right.head
    rw [List.length_cons, Nat.add_comm part.length, ← Nat.add_assoc] at hg
    refine .of_next ?_
    rw [Machine.next, hg]
    simp [ht]
  rw [← hs1]
  exact (h' pc m1 ha hm1).of_reaches ((hl.trans hr).trans hj)

end

/-! ## Single statements -/

/-- The code of a call statement calls and drops the result. -/
theorem simulates_do {callee : Callee} {arguments : List Expression} {σ σ' : Store} {x : Word}
    (hd : Γ.Meets (callDemands callee arguments))
    (he : (Term.call callee arguments).eval functions Γ σ = some (x, σ')) :
    Simulates functions code (callCode Γ callee arguments ++ [.pop .temp 0]) σ (.normal σ') := by
  refine .of_run fun m hm => ?_
  subst hm
  obtain ⟨x', m1, he1, hr1, hs1⟩ := (Term.call callee arguments).code_pushes functions hd m
  rw [he, Option.some.injEq, Prod.mk.injEq] at he1
  refine ⟨{ m1 with stack := m.stack, temp := Function.update m1.temp 0 x' }, ?_, he1.2.symm, rfl⟩
  refine (Machine.run_append_of_eq hr1).trans ?_
  simp [Machine.run, Machine.execute, Machine.write, hs1]

/-- Code that pushes a word and returns. -/
theorem simulates_return {part : List Instruction} {meaning : Store → Option (Word × Store)} {σ σ' : Store} {x : Word}
    (hp : Pushes functions part meaning) (he : meaning σ = some (x, σ')) :
    Simulates functions code (part ++ [.«return»]) σ (.returned x σ') := by
  rintro pc m ha rfl
  obtain ⟨x', m1, he1, hr1, hs1⟩ := hp m
  rw [he, Option.some.injEq, Prod.mk.injEq] at he1
  obtain ⟨rfl, hm1⟩ := he1
  exact ⟨⟨_, m1⟩, Machine.reaches_of_run ha.left hr1, ha.right.head, hm1.symm, hs1⟩

theorem zero_pushes : Pushes functions [.push .constant 0] fun σ => some (0, σ) :=
  fun m => ⟨0, { m with stack := 0 :: m.stack }, rfl, rfl, rfl⟩

theorem Statement.isLet_of_assigned {s : Statement} {σ σ' : Store} (h : s.assigned functions Γ σ = some σ') : s.IsLet := by
  cases s with
  | «let» | letElement => exact trivial
  | _ => cases h

theorem simulates_assigned {s : Statement} {σ σ' : Store} (hd : Γ.Meets s.demands)
    (h : s.assigned functions Γ σ = some σ') (k : Nat) : Simulates functions code (s.code Γ k) σ (.normal σ') := by
  refine .of_run fun m hm => ?_
  subst hm
  obtain ⟨m', he, hr, hs⟩ := Statement.run_assigned functions (Statement.isLet_of_assigned h) hd k m
  rw [h, Option.some.injEq] at he
  exact ⟨m', hr, he.symm, hs⟩

/-! ## Statements -/

/-- The parts of a loop: its first label, a test and a body, the jump back and what ends the loop. -/
theorem while_code (c : Expression) (block : List Statement) (k : Nat) :
    (Statement.while c block).code Γ k =
      .label (Rules.label "WHILE_TOP" (2 * k)) ::
        ((c.code Γ ++ [.arithmetic .not, .ifGoto (Rules.label "WHILE_END" (2 * k + 1))]) ++ blockCode Γ (k + 1) block) ++
        .goto (Rules.label "WHILE_TOP" (2 * k)) :: [.label (Rules.label "WHILE_END" (2 * k + 1))] := by
  simp [Statement.code]

mutual

/-- The code of a statement does what the statement does. -/
theorem Statement.Executes.simulates (hn : (labelsOf code).Nodup) {s : Statement} {σ : Store} {o : Outcome}
    (h : s.Executes functions Γ σ o) (hd : Γ.Meets s.demands) (k : Nat) : Simulates functions code (s.code Γ k) σ o := by
  match h with
  | .assigned hs => exact simulates_assigned hd hs k
  | .ifTrue c block hc hb =>
    rw [Statement.demands, meets_append] at hd
    have body := Simulates.of_true (Rules.label "IF_ELSE" (2 * k)) hd.1 hc (BlockExecutes.simulates hn hb hd.2 (k + 1))
    exact body.append_idle fun _ => .label _
  | .ifFalse c block hc hx =>
    rw [Statement.demands, meets_append] at hd
    have h := Simulates.of_false (Rules.label "IF_ELSE" (2 * k)) (blockCode Γ (k + 1) block) hn hd.1 hc hx .nil
    simpa [Statement.code] using h
  | .ifElseTrue c block elseBlock hc hb =>
    rw [Statement.demands, List.append_assoc, meets_append, meets_append] at hd
    have body := Simulates.of_true (Rules.label "IF_ELSE" (2 * k)) hd.1 hc (BlockExecutes.simulates hn hb hd.2.1 (k + 1))
    -- The jump after the block skips the other one; a block that returns never comes to it.
    have h := body.append_idle fun _ => .goto (Rules.label "IF_END" (2 * k + 1))
      (.label (Rules.label "IF_ELSE" (2 * k)) :: blockCode Γ (k + 1 + blockConstructs block) elseBlock) hn .nil
    simpa [Statement.code] using h
  | .ifElseFalse c block elseBlock hc hx hb =>
    rw [Statement.demands, List.append_assoc, meets_append, meets_append] at hd
    have after := (BlockExecutes.simulates hn hb hd.2.2 (k + 1 + blockConstructs block)).append_idle fun _ =>
      .label (Rules.label "IF_END" (2 * k + 1))
    have h := Simulates.of_false (Rules.label "IF_ELSE" (2 * k))
      (blockCode Γ (k + 1) block ++ [.goto (Rules.label "IF_END" (2 * k + 1))]) hn hd.1 hc hx after
    simpa [Statement.code] using h
  | .whileAgain c block hc hb hw =>
    -- The same code, from its first label on, simulates what the loop does afterwards.
    have rest := Statement.Executes.simulates hn hw hd k
    rw [Statement.demands, meets_append] at hd
    have body := Simulates.of_true (Rules.label "WHILE_END" (2 * k + 1)) hd.1 hc
      (BlockExecutes.simulates hn hb hd.2 (k + 1))
    rw [while_code] at rest ⊢
    exact .again (Rules.label "WHILE_TOP" (2 * k)) hn body rest
  | .whileReturned c block hc hb =>
    rw [Statement.demands, meets_append] at hd
    have body := Simulates.of_true (Rules.label "WHILE_END" (2 * k + 1)) hd.1 hc
      (BlockExecutes.simulates hn hb hd.2 (k + 1))
    rw [while_code]
    exact ((Simulates.label (Rules.label "WHILE_TOP" (2 * k))).append body).append_of_returned
  | .whileFalse c block hc hx =>
    rw [Statement.demands, meets_append] at hd
    have skip := Simulates.of_false (Rules.label "WHILE_END" (2 * k + 1))
      (blockCode Γ (k + 1) block ++ [.goto (Rules.label "WHILE_TOP" (2 * k))]) hn hd.1 hc hx .nil
    have h := (Simulates.label (Rules.label "WHILE_TOP" (2 * k))).append skip
    simpa [Statement.code] using h
  | .done callee arguments he => exact simulates_do hd he
  | .returned e he => exact simulates_return (e.code_pushes functions hd) he
  | .returnedNothing => exact simulates_return zero_pushes rfl

/-- The code of statements does what the statements do. -/
theorem BlockExecutes.simulates (hn : (labelsOf code).Nodup) {block : List Statement} {σ : Store} {o : Outcome}
    (h : BlockExecutes functions Γ block σ o) (hd : Γ.Meets (blockDemands block)) (k : Nat) :
    Simulates functions code (blockCode Γ k block) σ o := by
  match h with
  | .nil => exact .nil
  | .next hs hb =>
    rw [blockDemands, meets_append] at hd
    exact (Statement.Executes.simulates hn hs hd.1 k).append (BlockExecutes.simulates hn hb hd.2 _)
  | .leave hs =>
    rw [blockDemands, meets_append] at hd
    exact (Statement.Executes.simulates hn hs hd.1 k).append_of_returned

end

end JackCompiler
