import JackCompiler.Proofs.Machine.Meaning

/-!
# The code of expressions computes their values

Run on any stack, the code of an expression leaves its value on that stack and the store that its meaning says
(`Expression.code_pushes`). The stack below is arbitrary because the code of an operand runs on those before it. `pointer 1`
and `temp` do not occur in the statement: whatever an operand or a callee leaves there, each access to an element aims
`that` anew right before it reads or writes. An assignment leaves the stack as it was (`run_assign`, `run_assignElement`).
-/

namespace JackCompiler

open Vm

/-- Code that leaves one more word on any stack, with the word and the store that a meaning says. -/
def Pushes (functions : Functions) (code : List Instruction) (meaning : Store → Option (Word × Store)) : Prop :=
  ∀ m : Machine, ∃ x m', meaning m.store = some (x, m'.store) ∧ m.run functions code = some m' ∧ m'.stack = x :: m.stack

/-- Code that leaves more words on any stack, the last one on top, with the words and the store that a meaning says. -/
def PushesAll (functions : Functions) (code : List Instruction) (meaning : Store → Option (List Word × Store)) : Prop :=
  ∀ m : Machine, ∃ xs m',
    meaning m.store = some (xs, m'.store) ∧ m.run functions code = some m' ∧ m'.stack = xs.reverse ++ m.stack

variable (functions : Functions) {Γ : Context} {m : Machine} {s : List Word} {x y : Word}

/-! ## Single instructions -/

theorem run_push (v : Variable) :
    m.run functions [Rules.push v] = some { m with stack := m.store.get v :: m.stack } := by
  obtain ⟨name, type, kind, index⟩ := v
  cases kind <;> rfl

theorem run_pop (v : Variable) (hs : m.stack = x :: s) :
    m.run functions [Rules.pop v] = some { m with store := m.store.set v x, stack := s } := by
  obtain ⟨name, type, kind, index⟩ := v
  cases kind <;> simp [Rules.pop, Rules.segment, Machine.run, Machine.execute, Machine.write, Store.set, Store.poke, hs]

/-- Reading a variable that is declared. -/
theorem run_read {name : String} {v : Variable} (hv : Γ.find? name = some v) :
    m.run functions (Γ.read name) = some { m with stack := m.store.get v :: m.stack } := by
  rw [Context.read, hv]
  exact run_push functions v

theorem run_unary (operator : UnaryOperator) (hs : m.stack = x :: s) :
    m.run functions [Rules.unary operator] = some { m with stack := operator.value x :: s } := by
  cases operator <;> simp [Rules.unary, Machine.run, Machine.execute, Machine.compute, UnaryOperator.value, hs]

/-- A call with its arguments on the stack leaves its result in their place. -/
theorem run_call (xs : List Word) (hs : m.stack = xs.reverse ++ s) (name : String) (hl : xs.length < 65536) :
    ∃ z m', m.store.call functions name xs = (z, m'.store) ∧
      m.run functions [.call name (UInt16.ofNat xs.length)] = some m' ∧ m'.stack = z :: s := by
  have hn : (UInt16.ofNat xs.length).toNat = xs.length := by
    rw [UInt16.toNat_ofNat']
    exact Nat.mod_eq_of_lt hl
  have hr : m.run functions [.call name (UInt16.ofNat xs.length)] = m.call functions name xs.length := by
    rw [Machine.run, Machine.execute, hn]
    cases m.call functions name xs.length <;> rfl
  exact ⟨_, _, rfl, hr.trans (Machine.call_of_append xs s hs name), rfl⟩

theorem run_binary (operator : BinaryOperator) (hs : m.stack = y :: x :: s) :
    ∃ z m', operator.value functions m.store x y = (z, m'.store) ∧
      m.run functions [Rules.binary operator] = some m' ∧ m'.stack = z :: s := by
  have simple : ∀ command z, Machine.compute command m.stack = some (z :: s) →
      ∃ z' m', (z, m.store) = (z', m'.store) ∧ m.run functions [.arithmetic command] = some m' ∧ m'.stack = z' :: s := by
    intro command z hz
    refine ⟨z, { m with stack := z :: s }, rfl, ?_, rfl⟩
    rw [Machine.run, Machine.execute, hz]
    rfl
  cases operator with
  | multiply => exact run_call functions [x, y] (by simpa using hs) "Math.multiply" (by simp)
  | divide => exact run_call functions [x, y] (by simpa using hs) "Math.divide" (by simp)
  | add => exact simple .add _ (by rw [hs]; rfl)
  | subtract => exact simple .sub _ (by rw [hs]; rfl)
  | and => exact simple .and _ (by rw [hs]; rfl)
  | or => exact simple .or _ (by rw [hs]; rfl)
  | less => exact simple .lt _ (by rw [hs]; rfl)
  | greater => exact simple .gt _ (by rw [hs]; rfl)
  | equal => exact simple .eq _ (by rw [hs]; rfl)

theorem constant_pushes (word : KeywordConstant) :
    Pushes functions (Rules.constant word) fun σ => some (word.value σ, σ) := by
  intro m
  cases word <;> exact ⟨_, { m with stack := _ :: m.stack }, rfl, rfl, rfl⟩

/-- Appending characters to the string on the stack leaves a string there. -/
theorem run_appendCode (cs : List Char) (hs : m.stack = x :: s) :
    ∃ z m', appendValue functions x m.store cs = (z, m'.store) ∧
      m.run functions (cs.flatMap fun c => [.push .constant (UInt16.ofNat c.toNat), .call "String.appendChar" 2]) =
        some m' ∧
      m'.stack = z :: s := by
  induction cs generalizing m x with
  | nil => exact ⟨x, m, rfl, rfl, hs⟩
  | cons c cs ih =>
    -- the character is pushed, then it is appended
    obtain ⟨y, m1, hv1, hr1, hs1⟩ := run_call functions (s := s)
      (m := { m with stack := UInt16.ofNat c.toNat :: m.stack }) [x, UInt16.ofNat c.toNat] (by simp [hs])
      "String.appendChar" (by simp)
    obtain ⟨z, m2, hv2, hr2, hs2⟩ := ih hs1
    have hv : m.store.call functions "String.appendChar" [x, UInt16.ofNat c.toNat] = (y, m1.store) := hv1
    refine ⟨z, m2, ?_, ?_, hs2⟩
    · rw [appendValue, hv]
      exact hv2
    · rw [List.flatMap_cons]
      exact (Machine.run_append_of_eq hr1).trans hr2

theorem string_pushes (body : String) :
    Pushes functions (Rules.string body) fun σ => some (stringValue functions σ body) := by
  intro m
  obtain ⟨y, m1, hv1, hr1, hs1⟩ := run_call functions (s := m.stack)
    (m := { m with stack := UInt16.ofNat body.length :: m.stack }) [UInt16.ofNat body.length] rfl "String.new" (by simp)
  obtain ⟨z, m2, hv2, hr2, hs2⟩ := run_appendCode functions body.toList hs1
  have hv : m.store.call functions "String.new" [UInt16.ofNat body.length] = (y, m1.store) := hv1
  refine ⟨z, m2, ?_, ?_, hs2⟩
  · simp only [stringValue, hv]
    exact congrArg some hv2
  · exact (Machine.run_append_of_eq hr1).trans hr2

/-- The code of a receiver pushes the object, if there is one. -/
theorem receiver_pushes (callee : Callee) :
    PushesAll functions (Γ.receiver callee) fun σ => some (Γ.objects σ callee, σ) := by
  intro m
  cases callee with
  | own subroutine => exact ⟨[m.store.this], { m with stack := m.store.this :: m.stack }, rfl, rfl, rfl⟩
  | qualified qualifier subroutine =>
    cases hv : Γ.find? qualifier with
    | none =>
      exact ⟨[], m, by simp [Context.objects, hv], by simp [Context.receiver, Context.read, hv], rfl⟩
    | some v =>
      refine ⟨[m.store.get v], { m with stack := m.store.get v :: m.stack }, ?_, run_read functions hv, rfl⟩
      simp [Context.objects, hv]

theorem objects_length (σ : Store) (callee : Callee) : (Γ.objects σ callee).length = Γ.receivers callee := by
  cases callee with
  | own subroutine => rfl
  | qualified qualifier subroutine =>
    cases hv : Γ.find? qualifier <;> simp [Context.objects, Context.receivers, hv]

/-- With an index on the stack, the code of an access leaves the element: `that` is aimed right before it is read. -/
theorem run_element {name : String} {v : Variable} (hv : Γ.find? name = some v) (hs : m.stack = x :: s) :
    ∃ m', m.run functions (Γ.read name ++ [.arithmetic .add, .pop .pointer 1, .push .that 0]) = some m' ∧
      m'.store = m.store ∧ m'.stack = m.store.memory (m.store.get v + x) :: s := by
  refine ⟨{ m with that := m.store.get v + x, stack := m.store.memory (m.store.get v + x) :: s }, ?_, rfl, rfl⟩
  rw [Machine.run_append_of_eq (run_read functions hv), hs]
  simp [Machine.run, Machine.execute, Machine.compute, Machine.write, Machine.read, UInt16.add_comm]

/-- With an index on the stack, the address of an element takes its place. -/
theorem run_address {name : String} {v : Variable} (hv : Γ.find? name = some v) (hs : m.stack = x :: s) :
    m.run functions (Γ.read name ++ [.arithmetic .add]) = some { m with stack := (m.store.get v + x) :: s } := by
  rw [Machine.run_append_of_eq (run_read functions hv), hs]
  simp [Machine.run, Machine.execute, Machine.compute, UInt16.add_comm]

/-- With an address and a value on the stack, the value is stored in memory. -/
theorem run_poke (hs : m.stack = y :: x :: s) :
    ∃ m', m.run functions [.pop .temp 0, .pop .pointer 1, .push .temp 0, .pop .that 0] = some m' ∧
      m'.store = m.store.poke x y ∧ m'.stack = s := by
  refine ⟨{ m with that := x, temp := Function.update m.temp 0 y, store := m.store.poke x y, stack := s }, ?_, rfl, rfl⟩
  simp [Machine.run, Machine.execute, Machine.write, Machine.read, Store.poke, hs]

theorem exists_of_declared {name : String} (h : (Demand.declared name).Met Γ) : ∃ v, Γ.find? name = some v :=
  Option.isSome_iff_exists.mp h

/-! ## Expressions -/

/-- Every argument has one value. -/
theorem evalArguments_length {es : List Expression} {σ σ' : Store} {xs : List Word}
    (h : evalArguments functions Γ es σ = some (xs, σ')) : xs.length = es.length := by
  induction es generalizing σ xs with
  | nil =>
    cases h
    rfl
  | cons e es ih =>
    simp only [evalArguments, Option.bind_eq_bind, Option.bind_eq_some_iff, Prod.exists] at h
    obtain ⟨x, σ1, -, ys, σ2, he, hp⟩ := h
    cases hp
    rw [List.length_cons, List.length_cons, ih he]

/-- After the object and the arguments of a call, its instruction leaves the result. -/
theorem run_call_after {callee : Callee} {os xs : List Word} {n : Nat} (hs : m.stack = xs.reverse ++ (os.reverse ++ s))
    (ho : os.length = Γ.receivers callee) (hx : xs.length = n) (hl : n + Γ.receivers callee ≤ 65535) :
    ∃ z m', m.store.call functions (Γ.function callee) (os ++ xs) = (z, m'.store) ∧
      m.run functions [Γ.call callee n] = some m' ∧ m'.stack = z :: s := by
  have hn : n + Γ.receivers callee = (os ++ xs).length := by
    rw [List.length_append, ho, hx, Nat.add_comm]
  rw [Context.call, hn]
  exact run_call functions (os ++ xs) (by rw [hs, List.reverse_append, List.append_assoc]) _ (by omega)

mutual

/-- The code of an expression pushes its value. -/
theorem Expression.code_pushes (e : Expression) (h : Γ.Meets e.demands) :
    Pushes functions (e.code Γ) (e.eval functions Γ) := by
  intro m
  match e with
  | .term t =>
    rw [Expression.demands] at h
    exact t.code_pushes h m
  | .binary left operator right =>
    rw [Expression.demands, meets_append] at h
    obtain ⟨x, m1, he1, hr1, hs1⟩ := left.code_pushes h.1 m
    obtain ⟨y, m2, he2, hr2, hs2⟩ := right.code_pushes h.2 m1
    obtain ⟨z, m3, he3, hr3, hs3⟩ := run_binary functions operator (hs2.trans (by rw [hs1]))
    refine ⟨z, m3, ?_, ?_, hs3⟩
    · simp [Expression.eval, he1, he2, he3]
    · rw [Expression.code, Machine.run_append_of_eq (Machine.run_append_of_eq hr1 |>.trans hr2), hr3]

/-- The code of a term pushes its value. -/
theorem Term.code_pushes (t : Term) (h : Γ.Meets t.demands) : Pushes functions (t.code Γ) (t.eval functions Γ) := by
  intro m
  match t with
  | .integer value => exact ⟨value, { m with stack := value :: m.stack }, rfl, rfl, rfl⟩
  | .string body => exact string_pushes functions body m
  | .constant word => exact constant_pushes functions word m
  | .variable name =>
    rw [Term.demands, meets_cons] at h
    obtain ⟨v, hv⟩ := exists_of_declared h.1
    exact ⟨_, _, by simp [Term.eval, hv], run_read functions hv, rfl⟩
  | .element name index =>
    rw [Term.demands, meets_cons] at h
    obtain ⟨v, hv⟩ := exists_of_declared h.1
    obtain ⟨i, m1, he1, hr1, hs1⟩ := index.code_pushes h.2 m
    obtain ⟨m2, hr2, hm2, hs2⟩ := run_element functions hv hs1
    refine ⟨_, m2, ?_, ?_, hs2⟩
    · simp [Term.eval, he1, hv, hm2]
    · rw [Term.code, List.append_assoc, Machine.run_append_of_eq hr1, hr2]
  | .call callee arguments =>
    rw [Term.demands, meets_append, meets_cons, Demand.Met] at h
    obtain ⟨ha, hl, -⟩ := h
    obtain ⟨os, m1, he1, hr1, hs1⟩ := receiver_pushes functions (Γ := Γ) callee m
    obtain ⟨xs, m2, he2, hr2, hs2⟩ := arguments_push arguments ha m1
    simp only [Option.some.injEq, Prod.mk.injEq] at he1
    obtain ⟨rfl, hm1⟩ := he1
    obtain ⟨z, m3, he3, hr3, hs3⟩ := run_call_after functions (hs2.trans (by rw [hs1]))
      (objects_length m.store callee) (evalArguments_length functions he2) hl
    refine ⟨z, m3, ?_, ?_, hs3⟩
    · rw [← hm1] at he2
      simp [Term.eval, he2, he3]
    · rw [Term.code, Machine.run_append_of_eq (Machine.run_append_of_eq hr1 |>.trans hr2), hr3]
  | .parenthesized inner =>
    rw [Term.demands] at h
    exact inner.code_pushes h m
  | .unary operator operand =>
    rw [Term.demands] at h
    obtain ⟨x, m1, he1, hr1, hs1⟩ := operand.code_pushes h m
    refine ⟨_, _, ?_, (Machine.run_append_of_eq hr1).trans (run_unary functions operator hs1), rfl⟩
    simp [Term.eval, he1]

/-- The code of arguments pushes their values from left to right. -/
theorem arguments_push (es : List Expression) (h : Γ.Meets (argumentDemands es)) :
    PushesAll functions (argumentCode Γ es) (evalArguments functions Γ es) := by
  intro m
  match es with
  | [] => exact ⟨[], m, rfl, rfl, rfl⟩
  | e :: es =>
    rw [argumentDemands, meets_append] at h
    obtain ⟨x, m1, he1, hr1, hs1⟩ := e.code_pushes h.1 m
    obtain ⟨xs, m2, he2, hr2, hs2⟩ := arguments_push es h.2 m1
    refine ⟨x :: xs, m2, ?_, (Machine.run_append_of_eq hr1).trans hr2, ?_⟩
    · simp [evalArguments, he1, he2]
    · rw [hs2, hs1, List.reverse_cons, List.append_assoc]
      rfl

end

/-! ## Assignments -/

/-- The code of an assignment to a variable assigns and leaves the stack as it was. -/
theorem run_assign {name : String} {value : Expression} (hn : (Demand.declared name).Met Γ)
    (hd : Γ.Meets value.demands) (m : Machine) :
    ∃ m', assign functions Γ name value m.store = some m'.store ∧
      m.run functions (value.code Γ ++ Γ.write name) = some m' ∧ m'.stack = m.stack := by
  obtain ⟨v, hv⟩ := exists_of_declared hn
  obtain ⟨x, m1, he, hr, hs⟩ := value.code_pushes functions hd m
  refine ⟨{ m1 with store := m1.store.set v x, stack := m.stack }, ?_, ?_, rfl⟩
  · simp [assign, he, hv]
  · rw [Machine.run_append_of_eq hr, Context.write, hv]
    exact run_pop functions v hs

/-- The code of an assignment to an element stores the value at the address that index and array had before it. -/
theorem run_assignElement {name : String} {index value : Expression} (hn : (Demand.declared name).Met Γ)
    (hi : Γ.Meets index.demands) (hd : Γ.Meets value.demands) (m : Machine) :
    ∃ m', assignElement functions Γ name index value m.store = some m'.store ∧
      m.run functions (index.code Γ ++ Γ.read name ++ [.arithmetic .add] ++ value.code Γ ++
        [.pop .temp 0, .pop .pointer 1, .push .temp 0, .pop .that 0]) = some m' ∧ m'.stack = m.stack := by
  obtain ⟨v, hv⟩ := exists_of_declared hn
  obtain ⟨i, m1, he1, hr1, hs1⟩ := index.code_pushes functions hi m
  have hr2 := run_address functions hv hs1
  obtain ⟨x, m3, he3, hr3, hs3⟩ := value.code_pushes functions hd
    { m1 with stack := (m1.store.get v + i) :: m.stack }
  obtain ⟨m4, hr4, hm4, hs4⟩ := run_poke functions hs3
  refine ⟨m4, ?_, ?_, hs4⟩
  · simp [assignElement, he1, hv, he3, hm4]
  · rw [List.append_assoc (index.code Γ), Machine.run_append_of_eq
      ((Machine.run_append_of_eq ((Machine.run_append_of_eq hr1).trans hr2)).trans hr3), hr4]

/-- The code of a `let` assigns and leaves the stack as it was. -/
theorem Statement.run_assigned {s : Statement} (hl : s.IsLet) (hd : Γ.Meets s.demands) (k : Nat) (m : Machine) :
    ∃ m', s.assigned functions Γ m.store = some m'.store ∧ m.run functions (s.code Γ k) = some m' ∧
      m'.stack = m.stack := by
  cases s with
  | «let» name value =>
    rw [Statement.demands, meets_cons] at hd
    exact run_assign functions hd.1 hd.2 m
  | letElement name index value =>
    rw [Statement.demands, List.cons_append, meets_cons, meets_append] at hd
    exact run_assignElement functions hd.1 hd.2.1 hd.2.2 m
  | _ => exact hl.elim

end JackCompiler
