import JackCompiler.Proofs.Generation.Rules
import JackCompiler.Proofs.Machine.Function
import Mathlib.Data.List.Nodup

/-!
# The labels of a subroutine

Every label ends with its number, so labels with different numbers are different. Each `if` and `while` owns two numbers
that no other one owns, and uses each for one label at most: the labels in the code of a subroutine are distinct
(`labels_distinct`), and every jump finds its label.
-/

namespace JackCompiler

open Vm

/-! ## Numbers of labels -/

theorem takeWhile_reverse_append (stem digits : List Char) (h : '_' ∉ digits) :
    ((stem ++ '_' :: digits).reverse.takeWhile (· ≠ '_')).reverse = digits := by
  have hd : ∀ c ∈ digits.reverse, decide (c ≠ '_') = true := by
    intro c hc
    rw [decide_eq_true_eq]
    rintro rfl
    exact h (List.mem_reverse.mp hc)
  rw [List.reverse_append, List.reverse_cons, List.append_assoc, List.takeWhile_append_of_pos hd]
  simp

/-- A label tells its number. -/
theorem number_of_label {stem stem' : String} {n n' : Nat} (h : Rules.label stem n = Rules.label stem' n') : n = n' := by
  have digits : ∀ (stem : String) (n : Nat),
      (((Rules.label stem n).toList.reverse.takeWhile (· ≠ '_')).reverse) = Nat.toDigits 10 n := by
    intro stem n
    have hl : (Rules.label stem n).toList = stem.toList ++ '_' :: Nat.toDigits 10 n := by
      simp [Rules.label, Nat.toString_eq_repr, Nat.toList_repr]
    rw [hl, takeWhile_reverse_append _ _ Nat.underscore_not_in_toDigits]
  have hd : Nat.toDigits 10 n = Nat.toDigits 10 n' := by
    rw [← digits stem n, h, digits]
  rw [← Nat.ofDigitChars_toDigits (b := 10) (n := n) (by omega) (by omega), hd,
    Nat.ofDigitChars_toDigits (by omega) (by omega)]

/-- The labels of code have distinct numbers, and these belong to the constructs from `a` on and before `b`. -/
def Labelled (code : List Instruction) (a b : Nat) : Prop :=
  ∃ ps : List (String × Nat), (labelsOf code).Perm (ps.map fun p => Rules.label p.1 p.2) ∧ (ps.map (·.2)).Nodup ∧
    ∀ p ∈ ps, 2 * a ≤ p.2 ∧ p.2 < 2 * b

namespace Labelled

variable {code others : List Instruction} {a b d : Nat}

theorem of_perm (h : Labelled others a b) (hp : (labelsOf code).Perm (labelsOf others)) : Labelled code a b := by
  obtain ⟨ps, hl, hn, hb⟩ := h
  exact ⟨ps, hp.trans hl, hn, hb⟩

theorem of_nil (h : labelsOf code = []) (a b : Nat) : Labelled code a b :=
  ⟨[], by simp [h], by simp, by simp⟩

/-- Code of later constructs has other numbers. -/
theorem append (h : Labelled code a b) (h' : Labelled others b d) (hab : a ≤ b) (hbd : b ≤ d) :
    Labelled (code ++ others) a d := by
  obtain ⟨ps, hl, hn, hb⟩ := h
  obtain ⟨ps', hl', hn', hb'⟩ := h'
  refine ⟨ps ++ ps', ?_, ?_, ?_⟩
  · rw [labelsOf_append, List.map_append]
    exact hl.append hl'
  · rw [List.map_append, List.nodup_append]
    refine ⟨hn, hn', fun n hm n' hm' he => ?_⟩
    obtain ⟨p, hp, rfl⟩ := List.mem_map.mp hm
    obtain ⟨p', hp', rfl⟩ := List.mem_map.mp hm'
    have := hb p hp
    have := hb' p' hp'
    omega
  · intro p hp
    rcases List.mem_append.mp hp with hp | hp
    · have := hb p hp
      omega
    · have := hb' p hp
      omega

/-- The first label of a construct. -/
theorem first (stem : String) (k : Nat) : Labelled [.label (Rules.label stem (2 * k))] k (k + 1) :=
  ⟨[(stem, 2 * k)], by rfl, by simp, by simp⟩

/-- Both labels of a construct. -/
theorem both (stem stem' : String) (k : Nat) :
    Labelled [.label (Rules.label stem (2 * k)), .label (Rules.label stem' (2 * k + 1))] k (k + 1) :=
  ⟨[(stem, 2 * k), (stem', 2 * k + 1)], by rfl, by simp, by simp; omega⟩

/-- Numbers tell labels apart. -/
theorem nodup (h : Labelled code a b) : (labelsOf code).Nodup := by
  obtain ⟨ps, hl, hn, -⟩ := h
  rw [hl.nodup_iff]
  refine List.Nodup.map_on (fun p hp p' hp' he => ?_) (List.Nodup.of_map _ hn)
  exact List.inj_on_of_nodup_map hn hp hp' (number_of_label he)

end Labelled

/-! ## Expressions have no labels -/

variable (Γ : Context)

theorem labelsOf_read (name : String) : labelsOf (Γ.read name) = [] := by
  rw [Context.read]
  cases Γ.find? name <;> rfl

theorem labelsOf_write (name : String) : labelsOf (Γ.write name) = [] := by
  rw [Context.write]
  cases Γ.find? name <;> rfl

theorem labelsOf_receiver (callee : Callee) : labelsOf (Γ.receiver callee) = [] := by
  cases callee with
  | own subroutine => rfl
  | qualified qualifier subroutine => exact labelsOf_read Γ qualifier

theorem labelsOf_string (body : String) : labelsOf (Rules.string body) = [] := by
  have h : ∀ cs : List Char, labelsOf (cs.flatMap fun c =>
      [.push .constant (UInt16.ofNat c.toNat), .call "String.appendChar" 2]) = [] := by
    intro cs
    induction cs with
    | nil => rfl
    | cons c cs ih =>
      rw [List.flatMap_cons, labelsOf_append, ih]
      rfl
  rw [Rules.string, labelsOf_append, h]
  rfl

mutual

theorem Expression.labelsOf_code (e : Expression) : labelsOf (e.code Γ) = [] := by
  match e with
  | .term t => exact t.labelsOf_code
  | .binary left operator right =>
    rw [Expression.code, labelsOf_append, labelsOf_append, left.labelsOf_code, right.labelsOf_code]
    cases operator <;> rfl

theorem Term.labelsOf_code (t : Term) : labelsOf (t.code Γ) = [] := by
  match t with
  | .integer _ => rfl
  | .string body => exact labelsOf_string body
  | .constant word => cases word <;> rfl
  | .variable name => exact labelsOf_read Γ name
  | .element name index =>
    rw [Term.code, labelsOf_append, labelsOf_append, index.labelsOf_code, labelsOf_read]
    rfl
  | .call callee arguments =>
    rw [Term.code, labelsOf_append, labelsOf_append, labelsOf_receiver, labelsOf_argumentCode arguments]
    rfl
  | .parenthesized inner => exact inner.labelsOf_code
  | .unary operator operand =>
    rw [Term.code, labelsOf_append, operand.labelsOf_code]
    cases operator <;> rfl

theorem labelsOf_argumentCode (es : List Expression) : labelsOf (argumentCode Γ es) = [] := by
  match es with
  | [] => rfl
  | e :: es => rw [argumentCode, labelsOf_append, e.labelsOf_code, labelsOf_argumentCode es, List.append_nil]

end

/-! ## Statements -/

/-- The two labels of a construct stand before and after a part of it. -/
theorem perm_both (before inside : List String) (first last : String) :
    (before ++ [first] ++ inside ++ [last]).Perm ([first, last] ++ (before ++ inside)) := by
  rw [List.perm_iff_count]
  intro name
  simp only [List.count_append, List.count_cons, List.count_nil]
  omega

mutual

/-- The labels of a statement are those of its own constructs. -/
theorem Statement.labelled (s : Statement) (k : Nat) : Labelled (s.code Γ k) k (k + s.constructs) := by
  match s with
  | .let name value =>
    exact .of_nil (by simp [Statement.code, value.labelsOf_code, labelsOf_write]) _ _
  | .letElement name index value =>
    refine .of_nil ?_ _ _
    simp only [Statement.code, labelsOf_append, index.labelsOf_code, value.labelsOf_code, labelsOf_read]
    rfl
  | .if condition block =>
    have h := (Labelled.first "IF_ELSE" k).append (labelled_block block (k + 1)) (by omega) (by omega)
    rw [Statement.constructs, ← Nat.add_assoc]
    refine h.of_perm ?_
    simp only [Statement.code, labelsOf_append, condition.labelsOf_code]
    exact List.perm_append_comm
  | .ifElse condition block elseBlock =>
    have inside := (labelled_block block (k + 1)).append (labelled_block elseBlock (k + 1 + blockConstructs block))
      (by omega) (by omega)
    have h := (Labelled.both "IF_ELSE" "IF_END" k).append inside (by omega) (by omega)
    rw [Statement.constructs, ← Nat.add_assoc, ← Nat.add_assoc]
    refine h.of_perm ?_
    simp only [Statement.code, labelsOf_append, condition.labelsOf_code]
    exact perm_both (labelsOf (blockCode Γ (k + 1) block)) _ _ _
  | .while condition block =>
    have h := (Labelled.both "WHILE_TOP" "WHILE_END" k).append (labelled_block block (k + 1)) (by omega) (by omega)
    rw [Statement.constructs, ← Nat.add_assoc]
    refine h.of_perm ?_
    simp only [Statement.code, labelsOf_append, condition.labelsOf_code]
    exact perm_both [] _ _ _
  | .do callee arguments =>
    have hc : labelsOf (callCode Γ callee arguments) = [] := (Term.call callee arguments).labelsOf_code Γ
    refine .of_nil ?_ _ _
    rw [Statement.code, labelsOf_append, hc]
    rfl
  | .return value =>
    refine .of_nil ?_ _ _
    rw [Statement.code, labelsOf_append]
    cases value with
    | none => rfl
    | some e =>
      rw [Option.elim_some, e.labelsOf_code]
      rfl

/-- The labels of statements are those of their own constructs. -/
theorem labelled_block (block : List Statement) (k : Nat) :
    Labelled (blockCode Γ k block) k (k + blockConstructs block) := by
  match block with
  | [] => exact .of_nil rfl _ _
  | s :: others =>
    have h := (s.labelled k).append (labelled_block others (k + s.constructs)) (by omega) (by omega)
    rwa [Nat.add_assoc] at h

end

/-- The labels in the code of a subroutine are distinct. -/
theorem labels_distinct (c : ClassDeclaration) (s : Subroutine) : (labelsOf (c.subroutineCode s)).Nodup := by
  have hp : ∀ (name : String) (locals : UInt16) (fields : Nat),
      labelsOf (.function name locals :: Rules.prologue fields s.kind) = [] := by
    intro name locals fields
    cases s.kind <;> rfl
  have he : labelsOf (if endsInReturn s.body then [] else [.push .constant 0, .«return»]) = [] := by
    split <;> rfl
  rw [ClassDeclaration.subroutineCode, labelsOf_append, labelsOf_append, hp, he, List.append_nil]
  exact (labelled_block (c.context s) s.body 0).nodup

end JackCompiler
