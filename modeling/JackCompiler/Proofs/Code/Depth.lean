import JackCompiler.Proofs.Code.Flow
import JackCompiler.Proofs.Generation.Acceptance

/-!
# The depth of the stack in code

Every instruction takes some words from the stack and leaves some, whatever they are, so code can be scanned for the
depth of the stack before each of its instructions (`depthAt`). Main statement: in all code that is compiled, the
stack is empty between statements, that is at every label and jump and between functions, holds the result alone
before a return, and is never too short (`compiled_code_disciplined`). Control then finds the same depth at a place by
whatever way it comes there.

`Carries` is what parts of code do to the depth: an expression makes it one more, from any depth
(`Expression.carries`), and a statement begins and ends at 0 (`Statement.carries`).
-/

namespace JackCompiler

open Vm

namespace Vm.Instruction

/-- How many words an instruction needs on the stack. -/
def needs : Instruction → Nat
  | .push .. | .label _ | .goto _ | .function .. => 0
  | .pop .. | .ifGoto _ | .«return» => 1
  | .arithmetic .neg | .arithmetic .not => 1
  | .arithmetic _ => 2
  | .call _ n => n.toNat

/-- How many words more are on the stack after an instruction than before it. -/
def effect : Instruction → Int
  | .push .. => 1
  | .pop .. | .ifGoto _ | .«return» => -1
  | .arithmetic .neg | .arithmetic .not => 0
  | .arithmetic _ => -1
  | .call _ n => -n.toNat + 1
  | .label _ | .goto _ | .function .. => 0

/-- The depth after an instruction before which it is `d`; a function begins with nothing on the stack. -/
def depthAfter (d : Int) : Instruction → Int
  | .function .. => 0
  | i => d + i.effect

end Vm.Instruction

/-- The depth before the instruction at a place of code, which is scanned in order. -/
def depthAt (code : List Instruction) (pc : Nat) : Int :=
  (code.take pc).foldl Instruction.depthAfter 0

/-- The discipline of the stack in code. -/
structure Disciplined (code : List Instruction) : Prop where
  needs : ∀ pc i, code[pc]? = some i → i.needs ≤ depthAt code pc
  label : ∀ pc name, code[pc]? = some (.label name) → depthAt code pc = 0
  goto : ∀ pc name, code[pc]? = some (.goto name) → depthAt code pc = 0
  ifGoto : ∀ pc name, code[pc]? = some (.ifGoto name) → depthAt code (pc + 1) = 0
  «return» : ∀ pc, code[pc]? = some .«return» → depthAt code pc = 1
  function : ∀ pc name locals, code[pc]? = some (.function name locals) → depthAt code pc = 0
  stop : depthAt code code.length = 0

/-- Control may come to a place of code with a depth: it enters at a head with nothing on the stack and flows on. -/
inductive Comes (code : List Instruction) : Nat → Int → Prop
  | head {pc : Nat} {name : String} {locals : UInt16} (hi : code[pc]? = some (.function name locals)) : Comes code pc 0
  | flow {pc pc' : Nat} {d : Int} {i : Instruction} (h : Comes code pc d) (hi : code[pc]? = some i)
      (hf : Flows code pc pc') : Comes code pc' (i.depthAfter d)

theorem depthAt_succ {code : List Instruction} {pc : Nat} {i : Instruction} (hi : code[pc]? = some i) :
    depthAt code (pc + 1) = i.depthAfter (depthAt code pc) := by
  rw [depthAt, List.take_add_one, hi, Option.toList_some, List.foldl_append]
  rfl

/-- Control finds the same depth at a place by every way. -/
theorem Disciplined.eq_depthAt {code : List Instruction} (h : Disciplined code) {pc : Nat} {d : Int}
    (hc : Comes code pc d) : d = depthAt code pc := by
  induction hc with
  | head hi => exact (h.function _ _ _ hi).symm
  | @flow pc pc' d i _ hi hf ih =>
    subst ih
    cases hf with
    | next => exact (depthAt_succ hi).symm
    | @jump j name _ hj ht hdest =>
      -- a jump leaves nothing on the stack, and nothing is on it at a label
      obtain rfl : i = j := Option.some.inj (hi.symm.trans hj)
      rw [h.label _ _ hdest]
      cases i with
      | goto => exact (congrArg (· + 0) (h.goto _ _ hi)).trans rfl
      | ifGoto => rw [← depthAt_succ hi, h.ifGoto _ _ hi]
      | _ => cases ht

/-! ## Parts of code -/

/-- Whether an instruction may stand where the stack has a depth. -/
def Vm.Instruction.Allows (d : Int) : Instruction → Prop
  | .label _ | .goto _ | .function .. => d = 0
  | .ifGoto _ | .«return» => d = 1
  | i => i.needs ≤ d

/-- Code carries the depth from one number to another, and every instruction may stand where it does. -/
def Carries (d : Int) : List Instruction → Int → Prop
  | [], d' => d' = d
  | i :: is, d' => i.Allows d ∧ Carries (i.depthAfter d) is d'

namespace Carries

variable {code others : List Instruction} {d d' d'' : Int}

theorem append (h : Carries d code d') (h' : Carries d' others d'') : Carries d (code ++ others) d'' := by
  induction code generalizing d with
  | nil =>
    obtain rfl : d' = d := h
    exact h'
  | cons i is ih => exact ⟨h.1, ih h.2⟩

theorem flatMap {α : Type} {f : α → List Instruction} (h : ∀ a, Carries d (f a) d) (as : List α) :
    Carries d (as.flatMap f) d := by
  induction as with
  | nil => rfl
  | cons a as ih => exact (h a).append ih

theorem foldl_eq (h : Carries d code d') : code.foldl Instruction.depthAfter d = d' := by
  induction code generalizing d with
  | nil => exact h.symm
  | cons i is ih => exact ih h.2

theorem allows (h : Carries d code d') {pc : Nat} {i : Instruction} (hi : code[pc]? = some i) :
    i.Allows ((code.take pc).foldl Instruction.depthAfter d) := by
  induction code generalizing d pc with
  | nil => cases hi
  | cons j js ih =>
    cases pc with
    | zero =>
      obtain rfl : j = i := by simpa using hi
      exact h.1
    | succ pc => exact ih h.2 hi

/-- Code that carries the depth from 0 to 0 is disciplined. -/
theorem disciplined (h : Carries 0 code 0) : Disciplined code where
  needs pc i hi := by
    have ha : i.Allows (depthAt code pc) := h.allows hi
    cases i with
    | push | pop | arithmetic | call => exact ha
    | label | goto | function | ifGoto | «return» => exact Int.le_of_eq (Eq.symm ha)
  label pc name hi := h.allows hi
  goto pc name hi := h.allows hi
  ifGoto pc name hi := by
    have ha : depthAt code pc = 1 := h.allows hi
    rw [depthAt_succ hi, ha]
    rfl
  «return» pc hi := h.allows hi
  function pc name locals hi := h.allows hi
  stop := by rw [depthAt, List.take_length, h.foldl_eq]

end Carries

/-! ## Expressions -/

section

variable {Γ : Context} {d : Int}

theorem carries_push (segment : Segment) (n : UInt16) (hd : 0 ≤ d) : Carries d [.push segment n] (d + 1) :=
  ⟨hd, rfl⟩

theorem carries_pop (segment : Segment) (n : UInt16) (hd : 0 ≤ d) : Carries (d + 1) [.pop segment n] d := by
  refine ⟨?_, ?_⟩
  · change (1 : Int) ≤ d + 1
    omega
  · change d = d + 1 + -1
    omega

theorem carries_call (name : String) {n : Nat} (hn : n ≤ 65535) (hd : 0 ≤ d) :
    Carries (d + n) [.call name (UInt16.ofNat n)] (d + 1) := by
  have ht : (UInt16.ofNat n).toNat = n :=
    UInt16.toNat_ofNat_of_lt' (Nat.lt_succ_of_le hn)
  refine ⟨?_, ?_⟩
  · change ((UInt16.ofNat n).toNat : Int) ≤ d + n
    omega
  · change d + 1 = d + n + (-(UInt16.ofNat n).toNat + 1)
    omega

theorem carries_read {name : String} (h : (Demand.declared name).Met Γ) (hd : 0 ≤ d) :
    Carries d (Γ.read name) (d + 1) := by
  obtain ⟨v, hv⟩ := Option.isSome_iff_exists.mp h
  rw [Context.read, hv]
  exact carries_push _ _ hd

theorem carries_write {name : String} (h : (Demand.declared name).Met Γ) (hd : 0 ≤ d) :
    Carries (d + 1) (Γ.write name) d := by
  obtain ⟨v, hv⟩ := Option.isSome_iff_exists.mp h
  rw [Context.write, hv]
  exact carries_pop _ _ hd

theorem carries_unary (operator : UnaryOperator) (hd : 0 ≤ d) : Carries (d + 1) [Rules.unary operator] (d + 1) := by
  have hn : (Rules.unary operator).Allows (d + 1) := by
    cases operator <;> exact Int.le_add_of_nonneg_left hd
  have he : (Rules.unary operator).depthAfter (d + 1) = d + 1 := by
    cases operator <;> exact Int.add_zero (d + 1)
  exact ⟨hn, he.symm⟩

theorem carries_arithmetic {command : Arithmetic} (hn : (Instruction.arithmetic command).needs = 2)
    (he : (Instruction.arithmetic command).effect = -1) (hd : 0 ≤ d) :
    Carries (d + 1 + 1) [.arithmetic command] (d + 1) := by
  refine ⟨?_, ?_⟩
  · change ((Instruction.arithmetic command).needs : Int) ≤ d + 1 + 1
    rw [hn]
    omega
  · change d + 1 = d + 1 + 1 + (Instruction.arithmetic command).effect
    omega

theorem carries_binary (operator : BinaryOperator) (hd : 0 ≤ d) :
    Carries (d + 1 + 1) [Rules.binary operator] (d + 1) := by
  rw [Int.add_assoc]
  cases operator with
  | multiply => exact carries_call (n := 2) _ (by omega) hd
  | divide => exact carries_call (n := 2) _ (by omega) hd
  | _ =>
    rw [← Int.add_assoc]
    exact carries_arithmetic rfl rfl hd

theorem carries_constant (word : KeywordConstant) (hd : 0 ≤ d) : Carries d (Rules.constant word) (d + 1) := by
  cases word with
  | true => exact (carries_push .constant 0 hd).append (carries_unary .complement hd)
  | false | null => exact carries_push .constant 0 hd
  | this => exact carries_push .pointer 0 hd

theorem carries_string (body : String) (hd : 0 ≤ d) : Carries d (Rules.string body) (d + 1) := by
  have character : ∀ c : Char, Carries (d + 1)
      [.push .constant (UInt16.ofNat c.toNat), .call "String.appendChar" 2] (d + 1) := by
    intro c
    have push := carries_push .constant (UInt16.ofNat c.toNat) (d := d + 1) (by omega)
    rw [Int.add_assoc] at push
    exact push.append (carries_call (n := 2) _ (by omega) hd)
  have start : Carries d [.push .constant (UInt16.ofNat body.length), .call "String.new" 1] (d + 1) :=
    (carries_push .constant _ hd).append (carries_call (n := 1) _ (by omega) hd)
  exact start.append (.flatMap character _)

/-- The code of a receiver leaves as many words as it is counted for. -/
theorem carries_receiver (callee : Callee) (hd : 0 ≤ d) :
    Carries d (Γ.receiver callee) (d + Γ.receivers callee) := by
  cases callee with
  | own subroutine => exact carries_push .pointer 0 hd
  | qualified qualifier subroutine =>
    cases hv : Γ.find? qualifier with
    | none => simp [Context.receiver, Context.read, Context.receivers, hv, Carries]
    | some v =>
      have hm : (Demand.declared qualifier).Met Γ := by simp [Demand.Met, hv]
      have hr : Γ.receivers (.qualified qualifier subroutine) = 1 := by simp [Context.receivers, hv]
      rw [hr]
      exact carries_read hm hd

mutual

/-- The code of an expression leaves one word more, from any depth. -/
theorem Expression.carries (e : Expression) (h : Γ.Meets e.demands) {d : Int} (hd : 0 ≤ d) :
    Carries d (e.code Γ) (d + 1) := by
  match e with
  | .term t =>
    rw [Expression.demands] at h
    exact t.carries h hd
  | .binary left operator right =>
    rw [Expression.demands, meets_append] at h
    exact ((left.carries h.1 hd).append (right.carries h.2 (by omega))).append (carries_binary operator hd)

/-- The code of a term leaves one word more. -/
theorem Term.carries (t : Term) (h : Γ.Meets t.demands) {d : Int} (hd : 0 ≤ d) : Carries d (t.code Γ) (d + 1) := by
  match t with
  | .integer value => exact carries_push .constant value hd
  | .string body => exact carries_string body hd
  | .constant word => exact carries_constant word hd
  | .variable name =>
    rw [Term.demands, meets_cons] at h
    exact carries_read h.1 hd
  | .element name index =>
    rw [Term.demands, meets_cons] at h
    have address := ((index.carries h.2 hd).append (carries_read h.1 (by omega))).append (carries_binary .add hd)
    have element := (carries_pop .pointer 1 hd).append (carries_push .that 0 hd)
    rw [Term.code]
    simpa [Rules.binary] using address.append element
  | .call callee arguments =>
    rw [Term.demands, meets_append, meets_cons, Demand.Met] at h
    obtain ⟨ha, hl, -⟩ := h
    have operands := (carries_receiver (Γ := Γ) callee hd).append (carries_arguments arguments ha (by omega))
    have hs : d + Γ.receivers callee + arguments.length = d + (arguments.length + Γ.receivers callee : Nat) := by omega
    rw [hs] at operands
    exact operands.append (carries_call _ hl hd)
  | .parenthesized inner =>
    rw [Term.demands] at h
    exact inner.carries h hd
  | .unary operator operand =>
    rw [Term.demands] at h
    exact (operand.carries h hd).append (carries_unary operator hd)

/-- The code of arguments leaves one word for each. -/
theorem carries_arguments (es : List Expression) (h : Γ.Meets (argumentDemands es)) {d : Int} (hd : 0 ≤ d) :
    Carries d (argumentCode Γ es) (d + es.length) := by
  match es with
  | [] => simp [argumentCode, Carries]
  | e :: es =>
    rw [argumentDemands, meets_append] at h
    have all := (e.carries h.1 hd).append (carries_arguments es h.2 (by omega))
    have hs : d + 1 + es.length = d + (e :: es).length := by
      rw [List.length_cons]
      omega
    rwa [hs] at all

end

/-! ## Statements -/

/-- A condition is tested with nothing else on the stack. -/
theorem carries_condition {condition : Expression} (h : Γ.Meets condition.demands) (name : String) :
    Carries 0 (condition.code Γ ++ [.arithmetic .not, .ifGoto name]) 0 :=
  (condition.carries h (Int.le_refl 0)).append ((carries_unary .complement (Int.le_refl 0)).append ⟨rfl, rfl⟩)

theorem carries_label (name : String) : Carries 0 [.label name] 0 :=
  ⟨rfl, rfl⟩

theorem carries_goto (name : String) : Carries 0 [.goto name] 0 :=
  ⟨rfl, rfl⟩

mutual

/-- The code of a statement begins and ends with nothing on the stack. -/
theorem Statement.carries (s : Statement) (h : Γ.Meets s.demands) (k : Nat) : Carries 0 (s.code Γ k) 0 := by
  match s with
  | .let name value =>
    rw [Statement.demands, meets_cons] at h
    exact (value.carries h.2 (Int.le_refl 0)).append (carries_write h.1 (Int.le_refl 0))
  | .letElement name index value =>
    rw [Statement.demands, List.cons_append, meets_cons, meets_append] at h
    obtain ⟨hn, hi, hv⟩ := h
    have address := ((index.carries hi (Int.le_refl 0)).append (carries_read hn (by omega))).append
      (carries_binary .add (Int.le_refl 0))
    have take := (carries_pop .temp 0 (d := 0 + 1) (by omega)).append (carries_pop .pointer 1 (Int.le_refl 0))
    have store := (carries_push .temp 0 (Int.le_refl 0)).append (carries_pop .that 0 (Int.le_refl 0))
    exact (address.append (value.carries hv (by omega))).append (take.append store)
  | .if condition block =>
    rw [Statement.demands, meets_append] at h
    exact ((carries_condition h.1 _).append (carries_block block h.2 (k + 1))).append (carries_label _)
  | .ifElse condition block elseBlock =>
    rw [Statement.demands, meets_append, meets_append] at h
    have first := (carries_condition h.1.1 (Rules.label "IF_ELSE" (2 * k))).append (carries_block block h.1.2 (k + 1))
    have between := (carries_goto (Rules.label "IF_END" (2 * k + 1))).append
      (carries_label (Rules.label "IF_ELSE" (2 * k)))
    exact ((first.append between).append (carries_block elseBlock h.2 _)).append (carries_label _)
  | .while condition block =>
    rw [Statement.demands, meets_append] at h
    have test := (carries_label (Rules.label "WHILE_TOP" (2 * k))).append
      (carries_condition h.1 (Rules.label "WHILE_END" (2 * k + 1)))
    have again := (carries_goto (Rules.label "WHILE_TOP" (2 * k))).append
      (carries_label (Rules.label "WHILE_END" (2 * k + 1)))
    have all := (test.append (carries_block block h.2 (k + 1))).append again
    rw [Statement.code]
    simpa using all
  | .do callee arguments =>
    exact ((Term.call callee arguments).carries h (Int.le_refl 0)).append (carries_pop .temp 0 (Int.le_refl 0))
  | .return value =>
    have result : Carries 0 (value.elim [.push .constant 0] (Expression.code Γ)) 1 := by
      cases value with
      | none => exact carries_push .constant 0 (Int.le_refl 0)
      | some e => exact e.carries h (Int.le_refl 0)
    exact result.append ⟨rfl, rfl⟩

/-- So does the code of statements one after another. -/
theorem carries_block (block : List Statement) (h : Γ.Meets (blockDemands block)) (k : Nat) :
    Carries 0 (blockCode Γ k block) 0 := by
  match block with
  | [] => rfl
  | s :: others =>
    rw [blockDemands, meets_append] at h
    exact (s.carries h.1 k).append (carries_block others h.2 _)

end

end

/-! ## Functions and classes -/

/-- The head of a function empties the stack, and setting the object leaves nothing on it. -/
theorem carries_prologue (name : String) (locals : UInt16) (fields : Nat) (kind : SubroutineKind) :
    Carries 0 (.function name locals :: Rules.prologue fields kind) 0 := by
  refine ⟨rfl, ?_⟩
  have object := carries_pop .pointer 0 (Int.le_refl 0)
  cases kind with
  | constructor =>
    have new := (carries_push .constant (UInt16.ofNat fields) (Int.le_refl 0)).append
      (carries_call "Memory.alloc" (n := 1) (by omega) (Int.le_refl 0))
    exact new.append object
  | function => rfl
  | method => exact (carries_push .argument 0 (Int.le_refl 0)).append object

theorem Subroutine.Valid.carries {strict : Bool} {c : ClassDeclaration} {s : Subroutine} (h : s.Valid strict c) :
    Carries 0 (c.subroutineCode s) 0 := by
  refine ((carries_prologue _ _ _ s.kind).append (carries_block s.body h.body 0)).append ?_
  split
  · rfl
  · exact (carries_push .constant 0 (Int.le_refl 0)).append ⟨rfl, rfl⟩

theorem ClassDeclaration.Valid.carries {strict : Bool} {c : ClassDeclaration} (h : c.Valid strict) :
    Carries 0 c.code 0 := by
  have part : ∀ ss ⊆ c.subroutines, Carries 0 (ss.flatMap c.subroutineCode) 0 := by
    intro ss hs
    induction ss with
    | nil => rfl
    | cons s ss ih =>
      rw [List.cons_subset] at hs
      exact (h.subroutines s hs.1).carries.append (ih hs.2)
  exact part _ (List.Subset.refl _)

/-- All code that is compiled is disciplined, so the depth at a place is the same whichever way control comes there. -/
theorem compiled_code_disciplined {strict record : Bool} {tokens : List Token} {r : CompiledClass}
    (h : (compile strict record tokens).result = .ok r) :
    Disciplined r.code ∧ ∀ (pc : Nat) (d : Int), Comes r.code pc d → d = depthAt r.code pc := by
  obtain ⟨c, -, hv, rfl⟩ := compile_eq_ok_iff.mp h
  have disciplined : Disciplined c.code := hv.carries.disciplined
  exact ⟨disciplined, fun pc d => disciplined.eq_depthAt⟩

/-- A constructor that counts the objects it makes. -/
def sampleConstructor : Subroutine where
  kind := .constructor
  resultType := some (.ofClass "Table")
  name := "new"
  parameters := [⟨.int, "size"⟩]
  locals := []
  body :=
    [.let "rows" (.term (.call (.qualified "Array" "new") [.term (.variable "size")])),
      .let "count" (.binary (.term (.variable "count")) .add (.integer 1)),
      .return (some (.term (.constant .this)))]

/-- A method that looks for a row and does not end in a return; its parameter `row` is declared again as a local. -/
def sampleSearch : Subroutine where
  kind := .method
  resultType := none
  name := "put"
  parameters := [⟨.int, "key"⟩, ⟨.int, "row"⟩]
  locals := [⟨.ofClass "Array", "row", ["i"]⟩]
  body :=
    [.while (.binary (.term (.variable "i")) .less (.integer 9))
      [.ifElse (.binary (.term (.element "rows" (.term (.variable "i")))) .equal (.variable "key"))
        [.letElement "row" (.term (.element "rows" (.term (.variable "i"))))
            (.binary (.term (.variable "key")) .multiply (.integer 2)),
          .return none]
        [.if (.term (.unary .complement (.constant .false)))
            [.do (.own "show") [.term (.string "no"), .term (.variable "i")]],
          .let "i" (.binary (.term (.variable "i")) .add (.integer 1))]],
      .do (.qualified "row" "dispose") []]

/-- A class with both, a static variable that is declared twice, and a field. -/
def sampleTable : ClassDeclaration where
  name := "Table"
  declarations := [⟨.static, .int, "count", ["count"]⟩, ⟨.field, .ofClass "Array", "rows", []⟩]
  subroutines := [sampleConstructor, sampleSearch]

theorem compile_sampleTable :
    (compile false false (unplaced sampleTable.kinds)).result = .ok sampleTable.compiled := by
  have valid : sampleTable.Valid false := by decide +kernel
  exact (compile_kinds_eq_ok_iff (map_kind_unplaced _).symm).mpr ⟨valid, rfl⟩

/-- Whenever the comparison in the loop is reached, two words are on the stack. -/
theorem sampleTable_disciplined :
    (compile false false (unplaced sampleTable.kinds)).result = .ok sampleTable.compiled ∧
      Disciplined sampleTable.code ∧ sampleTable.code[28]? = some (.arithmetic .eq) ∧
      ∀ d, Comes sampleTable.code 28 d → d = 2 := by
  obtain ⟨hd, hp⟩ := compiled_code_disciplined compile_sampleTable
  have two : depthAt sampleTable.code 28 = 2 := by decide +kernel
  exact ⟨compile_sampleTable, hd, by decide +kernel, fun d hcomes => (hp 28 d hcomes).trans two⟩

end JackCompiler
