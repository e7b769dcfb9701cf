import JackCompiler.Vm.Instruction
import Mathlib.Data.Stream.Defs
import Mathlib.Logic.Function.Basic

/-!
# The virtual machine

What is assumed of the machine that runs the code. It works on 16-bit words. A function has a stack of words, its arguments
and locals, and two base addresses; memory is apart from all of them, and `this i` and `that i` are the words of memory at
the two base addresses plus `i`. A call takes words from the stack, puts one back, and changes the static variables and
memory in some way that depends on nothing else but these. It restores the arguments, the locals and `pointer 0`, and may
leave anything in `temp` and `pointer 1`: what each call to come will leave there is a supply that nobody knows.
-/

namespace JackCompiler

/-- A word. -/
abbrev Word := UInt16

/-- Everything that functions share. -/
structure Shared where
  /-- The static variables of the class. -/
  statics : Word → Word
  memory : Word → Word

/-- Everything that a program can see while a function runs. -/
structure Store extends Shared where
  arguments : Word → Word
  locals : Word → Word
  /-- The object that a method or a constructor works on. -/
  this : Word

/-- What calls do: from the name of the function, its arguments and what functions share, the result and what functions
share afterwards. -/
abbrev Functions := String → List Word → Shared → Word × Shared

/-- What a call leaves in the places that it need not restore. -/
structure Leftover where
  that : Word
  temp : Word → Word

/-- The state of the machine while a function runs. -/
structure Machine where
  store : Store
  /-- The words on the stack, the top one first. -/
  stack : List Word
  that : Word
  temp : Word → Word
  /-- What the calls to come will leave behind. -/
  leftovers : Stream' Leftover

/-- The word for a truth value: all ones or all zeros. -/
def Word.ofBool (b : Bool) : Word :=
  if b then 0xFFFF else 0

/-- Whether a word is less than another, both taken as signed numbers. -/
def Word.less (x y : Word) : Bool :=
  x.toInt16 < y.toInt16

/-- Calls a function on arguments. -/
def Store.call (functions : Functions) (σ : Store) (name : String) (arguments : List Word) : Word × Store :=
  let answer := functions name arguments σ.toShared
  (answer.1, { σ with toShared := answer.2 })

namespace Machine

open Vm

/-- The word at a place of a segment. -/
def read (m : Machine) : Segment → Word → Option Word
  | .constant, i => some i
  | .argument, i => some (m.store.arguments i)
  | .«local», i => some (m.store.locals i)
  | .static, i => some (m.store.statics i)
  | .this, i => some (m.store.memory (m.store.this + i))
  | .that, i => some (m.store.memory (m.that + i))
  | .pointer, i => if i = 0 then some m.store.this else if i = 1 then some m.that else none
  | .temp, i => some (m.temp i)

/-- Replaces the word at a place of a segment. -/
def write (m : Machine) : Segment → Word → Word → Option Machine
  | .constant, _, _ => none
  | .argument, i, x => some { m with store := { m.store with arguments := Function.update m.store.arguments i x } }
  | .«local», i, x => some { m with store := { m.store with locals := Function.update m.store.locals i x } }
  | .static, i, x => some { m with store := { m.store with statics := Function.update m.store.statics i x } }
  | .this, i, x =>
    some { m with store := { m.store with memory := Function.update m.store.memory (m.store.this + i) x } }
  | .that, i, x => some { m with store := { m.store with memory := Function.update m.store.memory (m.that + i) x } }
  | .pointer, i, x =>
    if i = 0 then some { m with store := { m.store with this := x } }
    else if i = 1 then some { m with that := x }
    else none
  | .temp, i, x => some { m with temp := Function.update m.temp i x }

/-- What an arithmetic command makes of the stack. -/
def compute : Arithmetic → List Word → Option (List Word)
  | .neg, x :: s => some ((-x) :: s)
  | .not, x :: s => some ((~~~x) :: s)
  | .add, y :: x :: s => some ((x + y) :: s)
  | .sub, y :: x :: s => some ((x - y) :: s)
  | .and, y :: x :: s => some ((x &&& y) :: s)
  | .or, y :: x :: s => some ((x ||| y) :: s)
  | .eq, y :: x :: s => some (Word.ofBool (x = y) :: s)
  | .gt, y :: x :: s => some (Word.ofBool (Word.less y x) :: s)
  | .lt, y :: x :: s => some (Word.ofBool (Word.less x y) :: s)
  | _, _ => none

/-- Calls a function with words from the stack; the last argument is on top. -/
def call (functions : Functions) (m : Machine) (name : String) (n : Nat) : Option Machine :=
  if n ≤ m.stack.length then
    let answer := m.store.call functions name (m.stack.take n).reverse
    some
      { store := answer.2
        stack := answer.1 :: m.stack.drop n
        that := m.leftovers.head.that
        temp := m.leftovers.head.temp
        leftovers := m.leftovers.tail }
  else none

variable (functions : Functions)

/-- Executes an instruction that goes on to the next one. The machine is stuck where the stack is too short, and where a
place cannot be written or does not exist. -/
def execute (m : Machine) : Instruction → Option Machine
  | .push segment i => (m.read segment i).map fun x => { m with stack := x :: m.stack }
  | .pop segment i =>
    match m.stack with
    | [] => none
    | x :: s => { m with stack := s }.write segment i x
  | .arithmetic command => (compute command m.stack).map fun s => { m with stack := s }
  | .call name n => m.call functions name n.toNat
  | .label _ => some m
  | .goto _ | .ifGoto _ | .function _ _ | .«return» => none

/-- Executes instructions one after another. -/
def run (m : Machine) : List Instruction → Option Machine
  | [] => some m
  | i :: is => (m.execute functions i).bind fun m => m.run is

variable {functions} {m m' : Machine} {is is' : List Instruction}

@[simp] theorem run_nil : m.run functions [] = some m := rfl

theorem run_append : m.run functions (is ++ is') = (m.run functions is).bind fun m => m.run functions is' := by
  induction is generalizing m with
  | nil => rfl
  | cons i is ih =>
    rw [List.cons_append, run, run]
    cases m.execute functions i with
    | none => rfl
    | some m1 => exact ih

/-- Instructions run after instructions that got through. -/
theorem run_append_of_eq (h : m.run functions is = some m') : m.run functions (is ++ is') = m'.run functions is' := by
  rw [run_append, h, Option.bind_some]

/-- A call with its arguments on the stack. -/
theorem call_of_append (xs s : List Word) (hs : m.stack = xs.reverse ++ s) (name : String) :
    m.call functions name xs.length = some
      { store := (m.store.call functions name xs).2
        stack := (m.store.call functions name xs).1 :: s
        that := m.leftovers.head.that
        temp := m.leftovers.head.temp
        leftovers := m.leftovers.tail } := by
  have hl : xs.length ≤ m.stack.length := by simp [hs]
  have ht : (m.stack.take xs.length).reverse = xs := by
    rw [hs, ← List.length_reverse, List.take_left, List.reverse_reverse]
  have hd : m.stack.drop xs.length = s := by
    rw [hs, ← List.length_reverse, List.drop_left]
  rw [call, if_pos hl, ht, hd]

end Machine

end JackCompiler
