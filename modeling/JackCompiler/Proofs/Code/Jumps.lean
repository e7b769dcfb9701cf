import JackCompiler.Proofs.Code.Depth
import JackCompiler.Proofs.Code.Origins
import JackCompiler.Proofs.Machine.Labels

/-!
# Jumps and the bounds of functions

The code of a class consists of one function for each subroutine, in the order of the text (`functionsOf_code`), and
each of them is closed: its labels are distinct (`labels_distinct`), each of its jumps has its label in it
(`Statement.jumps_subset`), and it ends with a return (`Subroutine.Valid.getLast?`). Main statement: so it is in all
code that is compiled, and control that enters a function stays in it (`compiled_functions_closed`).
-/

namespace JackCompiler

open Vm

/-! ## Jumps -/

section

variable (Γ : Context)

theorem Expression.jumpsOf_code (e : Expression) : jumpsOf (e.code Γ) = [] :=
  List.filterMap_eq_nil_iff.mpr fun i hi => (e.fromExpression Γ i hi).target?_eq_none

theorem jumpsOf_read (name : String) : jumpsOf (Γ.read name) = [] :=
  List.filterMap_eq_nil_iff.mpr fun i hi => (fromExpression_read Γ [] name i hi).target?_eq_none

theorem jumpsOf_write (name : String) : jumpsOf (Γ.write name) = [] := by
  rw [Context.write]
  cases Γ.find? name <;> rfl

theorem jumpsOf_call (callee : Callee) (arguments : List Expression) : jumpsOf (callCode Γ callee arguments) = [] :=
  Expression.jumpsOf_code Γ (.term (.call callee arguments))

mutual

/-- Every jump of a statement has its label in the statement. -/
theorem Statement.jumps_subset (s : Statement) (k : Nat) : jumpsOf (s.code Γ k) ⊆ labelsOf (s.code Γ k) := by
  match s with
  | .let name value =>
    simp [Statement.code, value.jumpsOf_code, jumpsOf_write]
  | .letElement name index value =>
    simp only [Statement.code, jumpsOf_append, index.jumpsOf_code, value.jumpsOf_code, jumpsOf_read]
    exact List.nil_subset _
  | .if condition block =>
    have inside := jumps_subset_block block (k + 1)
    intro name hn
    simp only [Statement.code, jumpsOf_append, condition.jumpsOf_code, List.nil_append, List.mem_append] at hn
    simp only [Statement.code, labelsOf_append, List.mem_append]
    rcases hn with (hn | hn) | hn
    · exact .inr hn
    · exact .inl (.inr (inside hn))
    · cases hn
  | .ifElse condition block elseBlock =>
    have inside := jumps_subset_block block (k + 1)
    have insideElse := jumps_subset_block elseBlock (k + 1 + blockConstructs block)
    intro name hn
    simp only [Statement.code, jumpsOf_append, condition.jumpsOf_code, List.nil_append, List.mem_append] at hn
    simp only [Statement.code, labelsOf_append, List.mem_append]
    rcases hn with (((hn | hn) | hn) | hn) | hn
    · -- the label that the condition jumps to stands between the blocks
      exact .inl (.inl (.inr hn))
    · exact .inl (.inl (.inl (.inr (inside hn))))
    · exact .inr hn
    · exact .inl (.inr (insideElse hn))
    · cases hn
  | .while condition block =>
    have inside := jumps_subset_block block (k + 1)
    intro name hn
    simp only [Statement.code, jumpsOf_append, condition.jumpsOf_code, List.append_nil, List.mem_append] at hn
    simp only [Statement.code, labelsOf_append, List.mem_append]
    rcases hn with ((hn | hn) | hn) | hn
    · cases hn
    · -- the label that the condition jumps to stands after the block, that of the jump back before the condition
      exact .inr hn
    · exact .inl (.inr (inside hn))
    · exact .inl (.inl (.inl (.inl hn)))
  | .do callee arguments =>
    simp only [Statement.code, jumpsOf_append, jumpsOf_call]
    exact List.nil_subset _
  | .return value =>
    rw [Statement.code, jumpsOf_append]
    cases value with
    | none => exact List.nil_subset _
    | some e =>
      rw [Option.elim_some, e.jumpsOf_code]
      exact List.nil_subset _

/-- Every jump of statements has its label in them. -/
theorem jumps_subset_block (block : List Statement) (k : Nat) :
    jumpsOf (blockCode Γ k block) ⊆ labelsOf (blockCode Γ k block) := by
  match block with
  | [] => exact List.nil_subset _
  | s :: others =>
    rw [blockCode, jumpsOf_append, labelsOf_append]
    exact List.append_subset.mpr ⟨List.subset_append_of_subset_left _ (s.jumps_subset k),
      List.subset_append_of_subset_right _ (jumps_subset_block others _)⟩

end

end

/-! ## Functions -/

section

variable (c : ClassDeclaration) (s : Subroutine)

/-- Every jump of a function has its label in the function. -/
theorem jumps_subset_subroutineCode : jumpsOf (c.subroutineCode s) ⊆ labelsOf (c.subroutineCode s) := by
  have start : ∀ (name : String) (locals : UInt16) (fields : Nat),
      jumpsOf (.function name locals :: Rules.prologue fields s.kind) = [] := by
    intro name locals fields
    cases s.kind <;> rfl
  have stop : jumpsOf (if endsInReturn s.body then [] else [.push .constant 0, .«return»]) = [] := by
    split <;> rfl
  rw [ClassDeclaration.subroutineCode, jumpsOf_append, jumpsOf_append, start, stop, List.nil_append, List.append_nil,
    labelsOf_append, labelsOf_append]
  intro name hn
  exact List.mem_append_left _ (List.mem_append_right _ (jumps_subset_block _ _ _ hn))

/-- The code of a subroutine has its head and no other. -/
theorem isFunction_subroutineCode {s : Subroutine} (hs : s ∈ c.subroutines) : IsFunction (c.subroutineCode s) := by
  refine ⟨_, _, _, subroutineCode_eq c s, List.forall_mem_append.mpr ⟨?_, ?_⟩⟩
  · cases s.kind <;> simp [Rules.prologue, Instruction.isHead]
  · exact fun i hi => (bodyCode_fromStatement c hs i hi).isHead_eq_false

/-- The functions in the code of a class are those of its subroutines, in order. -/
theorem functionsOf_code : functionsOf c.code = c.subroutines.map c.subroutineCode := by
  rw [ClassDeclaration.code, List.flatMap_def]
  exact functionsOf_flatten (List.forall_mem_map.mpr fun s hs => isFunction_subroutineCode c hs)

/-- Something holds of each subroutine and its function in compiled code when it holds of each subroutine and its
code. -/
theorem forall₂_functionsOf_iff {P : Subroutine → List Instruction → Prop} :
    List.Forall₂ P c.subroutines (functionsOf c.compiled.code) ↔ ∀ s ∈ c.subroutines, P s (c.subroutineCode s) := by
  rw [show c.compiled.code = c.code from rfl, functionsOf_code, List.forall₂_map_right_iff, List.forall₂_same]

variable {c s} {strict : Bool}

/-- A function ends with a return: its last statement is one, or one is added. -/
theorem Subroutine.Valid.getLast? (h : s.Valid strict c) : (c.subroutineCode s).getLast? = some .«return» := by
  cases he : endsInReturn s.body with
  | false =>
    rw [ClassDeclaration.subroutineCode, he, List.getLast?_append]
    rfl
  | true =>
    have hne : s.body ≠ [] := by
      rintro hb
      rw [hb] at he
      cases he
    obtain ⟨is, i, hc, hr⟩ := blockCode_last 0 h.body hne
    rw [he] at hr
    cases i with
    | «return» =>
      rw [ClassDeclaration.subroutineCode, he, if_pos rfl, List.append_nil, hc, ← List.append_assoc,
        List.getLast?_concat]
    | _ => cases hr

theorem Subroutine.Valid.closed (h : s.Valid strict c) (hs : s ∈ c.subroutines) : Closed (c.subroutineCode s) where
  function := isFunction_subroutineCode c hs
  labels := labels_distinct c s
  jumps _ hn := List.count_eq_one_of_mem (labels_distinct c s) (jumps_subset_subroutineCode c s hn)
  last := h.getLast?

end

/-- The code of a compiled class consists of one closed function for each subroutine, in the order of the text. No
path of control that enters a function leaves it, and neither does a run of the machine. -/
theorem compiled_functions_closed {strict record : Bool} {tokens : List Token} {r : CompiledClass}
    (h : (compile strict record tokens).result = .ok r) :
    (functionsOf r.code).flatten = r.code ∧ Derivable tokens ∧
      ∀ c : ClassDeclaration, c.kinds = tokens.map (·.kind) →
        List.Forall₂
          (fun s f =>
            (∃ locals, f.head? = some (.function (c.name ++ "." ++ s.name) locals)) ∧ Closed f ∧
            (∀ pc, Relation.ReflTransGen (Flows f) 0 pc → pc < f.length) ∧
            ∀ (functions : Functions) (m : Machine) (last : Frame),
              Machine.Reaches functions f ⟨1, m⟩ last → last.pc < f.length)
          c.subroutines (functionsOf r.code) := by
  obtain ⟨c, hk, -⟩ := compile_eq_ok_iff.mp h
  refine ⟨flatten_functionsOf r.code, ⟨c, hk⟩, fun c hk => ?_⟩
  obtain ⟨hv, rfl⟩ := (compile_kinds_eq_ok_iff hk).mp h
  refine (forall₂_functionsOf_iff c).mpr fun s hs => ?_
  have closed := (hv.subroutines s hs).closed hs
  refine ⟨⟨_, by rw [subroutineCode_eq]; rfl⟩, closed, fun pc => closed.lt_length, fun functions m last hr => ?_⟩
  have enter : Flows (c.subroutineCode s) 0 1 := .next (by rw [subroutineCode_eq]; rfl) rfl
  exact closed.lt_length_of_reaches (.single enter) hr

/-- The method of the table jumps to each of its five labels, and two of them have the same stem. -/
theorem sampleTable_functions_closed :
    (compile false false (unplaced sampleTable.kinds)).result = .ok sampleTable.compiled ∧
      functionsOf sampleTable.code =
        [sampleTable.subroutineCode sampleConstructor, sampleTable.subroutineCode sampleSearch] ∧
      labelsOf (sampleTable.subroutineCode sampleSearch) =
        ["WHILE_TOP_0", "IF_ELSE_2", "IF_ELSE_4", "IF_END_3", "WHILE_END_1"] ∧
      Closed (sampleTable.subroutineCode sampleSearch) := by
  obtain ⟨-, -, blocks⟩ := compiled_functions_closed compile_sampleTable
  have each := (forall₂_functionsOf_iff sampleTable).mp (blocks sampleTable (map_kind_unplaced _).symm)
  have closed := (each sampleSearch (List.mem_cons_of_mem _ (List.mem_singleton.mpr rfl))).2.1
  exact ⟨compile_sampleTable, functionsOf_code sampleTable, by decide +kernel, closed⟩

end JackCompiler
