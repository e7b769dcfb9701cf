import JackCompiler.Proofs.Code.Segments
import JackCompiler.Proofs.Scanning.RoundTrip

/-!
# The constants in code

The code of a source text pushes its integers, the lengths and characters of its strings, 0, and in each constructor
the number of fields of the class. Scanning bounds all of these but the last, and a class may have up to 65535 fields.
Main statement: no constant is too large to be pushed, except for the number of fields at the start of a constructor
of a class with more than `maxConstant` of them (`compiled_constants_le`). Such classes are compiled
(`compileText_wideClass`).
-/

namespace JackCompiler

open Vm

/-! ## Statements -/

section

variable {Γ : Context} {ks : List TokenKind} {n : UInt16}

/-- What an expression pushes is not too large when its tokens are not. -/
theorem FromExpression.constant_le (hks : ∀ kind ∈ ks, kind.Pushable) (h : FromExpression Γ ks (.push .constant n)) :
    n.toNat ≤ maxConstant := by
  generalize hi : Instruction.push .constant n = i at h
  cases h with
  | integer h =>
    cases hi
    exact hks _ h
  | length h =>
    cases hi
    exact Nat.le_trans (Nat.mod_le _ _) (hks _ h).1
  | character h hc =>
    cases hi
    exact Nat.le_trans (Nat.mod_le _ _) ((hks _ h).2 _ hc)
  | zero =>
    cases hi
    exact Nat.zero_le _
  | @read name v h =>
    rw [Rules.push, Instruction.push.injEq] at hi
    cases hv : v.kind <;> simp [hv, Rules.segment] at hi
  | _ => cases hi

/-- What a statement pushes is not too large when its tokens are not. -/
theorem FromStatement.constant_le (hks : ∀ kind ∈ ks, kind.Pushable) (h : FromStatement Γ ks (.push .constant n)) :
    n.toNat ≤ maxConstant := by
  generalize hi : Instruction.push .constant n = i at h
  cases h with
  | expression h => exact (hi ▸ h).constant_le hks
  | _ => cases hi

end

/-! ## Functions -/

/-- A function pushes nothing too large, except for the number of fields after the head of a constructor. -/
theorem ClassDeclaration.constant_le {c : ClassDeclaration} {s : Subroutine} (hks : ∀ kind ∈ c.kinds, kind.Pushable)
    (hs : s ∈ c.subroutines) {pc : Nat} {n : UInt16} (h : (c.subroutineCode s)[pc]? = some (.push .constant n)) :
    n.toNat ≤ maxConstant ∨
      s.kind = .constructor ∧ pc = 1 ∧ n = UInt16.ofNat (Declaration.countOf .field c.scope) := by
  have inBody : ∀ {k : Nat}, (c.bodyCode s)[k]? = some (.push .constant n) → n.toNat ≤ maxConstant :=
    fun hk => (bodyCode_fromStatement c hs _ (List.mem_of_getElem? hk)).constant_le hks
  rw [subroutineCode_eq] at h
  cases hkind : s.kind with
  | constructor =>
    rw [hkind] at h
    match pc with
    | 0 | 2 | 3 => cases h
    | 1 =>
      cases h
      exact .inr ⟨rfl, rfl, rfl⟩
    | k + 4 => exact .inl (inBody h)
  | function =>
    rw [hkind] at h
    match pc with
    | 0 => cases h
    | k + 1 => exact .inl (inBody h)
  | method =>
    rw [hkind] at h
    match pc with
    | 0 | 1 | 2 => cases h
    | k + 3 => exact .inl (inBody h)

/-- A constructor pushes the number of fields after its head. -/
theorem ClassDeclaration.subroutineCode_constructor {c : ClassDeclaration} {s : Subroutine}
    (hs : s.kind = .constructor) :
    (c.subroutineCode s)[1]? = some (.push .constant (UInt16.ofNat (Declaration.countOf .field c.scope))) := by
  rw [subroutineCode_eq, hs]
  rfl

/-- A class pushes nothing too large exactly when it has no constructor or not too many fields. -/
theorem ClassDeclaration.Valid.constants_le_iff {strict : Bool} {c : ClassDeclaration} (hc : c.Valid strict)
    (hks : ∀ kind ∈ c.kinds, kind.Pushable) :
    (∀ n, .push .constant n ∈ c.code → n.toNat ≤ maxConstant) ↔
      Declaration.countOf .field c.scope ≤ maxConstant ∨ ∀ s ∈ c.subroutines, s.kind ≠ .constructor := by
  constructor
  · intro hle
    by_cases hn : ∀ s ∈ c.subroutines, s.kind ≠ .constructor
    · exact .inr hn
    · obtain ⟨s, hs, hkind⟩ : ∃ s ∈ c.subroutines, s.kind = .constructor := by simpa using hn
      have first := subroutineCode_constructor (c := c) hkind
      rw [← hc.toNat_fields]
      exact .inl (hle _ (List.mem_flatMap.mpr ⟨s, hs, List.mem_of_getElem? first⟩))
  · intro few n hn
    obtain ⟨s, hs, hn⟩ := List.mem_flatMap.mp hn
    obtain ⟨pc, hpc⟩ := List.getElem?_of_mem hn
    rcases c.constant_le hks hs hpc with hle | ⟨hkind, -, rfl⟩
    · exact hle
    · rw [hc.toNat_fields]
      exact few.resolve_right fun none => none s hs hkind

/-- A text is compiled when it is scanned and its tokens are compiled. -/
theorem compileText_eq_ok_iff {strict : Bool} {text : String} {r : CompiledClass} :
    compileText strict text = .ok r ↔
      ∃ tokens, scan text = .ok tokens ∧ (compile strict false tokens).result = .ok r := by
  rw [compileText]
  cases scan text <;> simp

/-! ## A class with many fields -/

/-- A constructor that returns its object. -/
def plainConstructor : Subroutine where
  kind := .constructor
  resultType := some (.ofClass "A")
  name := "new"
  parameters := []
  locals := []
  body := [.return (some (.term (.constant .this)))]

/-- A class with one field more than `n`, all of one name, and a constructor. -/
def wideClass (n : Nat) : ClassDeclaration where
  name := "A"
  declarations := [⟨.field, .int, "x", List.replicate n "x"⟩]
  subroutines := [plainConstructor]

theorem countOf_field_wideClass (n : Nat) : Declaration.countOf .field (wideClass n).scope = n + 1 := by
  have counted := Declaration.countOf_declarations .field ⟨.int, "x", List.replicate n "x"⟩
  rw [NamesOfType.names, List.length_cons, List.length_replicate] at counted
  rw [ClassDeclaration.scope, wideClass, List.flatMap_singleton]
  exact counted

theorem wideClass_valid {n : Nat} (h : n < 65535) : (wideClass n).Valid false := by
  refine ⟨⟨fun kind => ?_, nofun⟩, List.forall_mem_singleton.mpr ⟨⟨fun kind => ?_, nofun⟩, ?_⟩⟩
  · refine Nat.le_trans List.countP_le_length ?_
    rw [ClassDeclaration.scope, wideClass, List.flatMap_singleton, NamesOfType.declarations, NamesOfType.names,
      List.length_map, List.length_cons, List.length_replicate]
    exact h
  · exact Nat.zero_le _
  · exact meets_nil

/-- The tokens of the class, those of the repeated names apart from the others. -/
theorem wideClass_kinds (n : Nat) :
    (wideClass n).kinds =
      [.keyword .«class», .identifier "A", .symbol '\x7b', .keyword .field, .keyword .int, .identifier "x"] ++
        moreNameKinds (List.replicate n "x") ++
        [.symbol ';', .keyword .constructor, .identifier "A", .identifier "new", .symbol '(', .symbol ')',
          .symbol '\x7b', .keyword .«return», .keyword .this, .symbol ';', .symbol '\x7d', .symbol '\x7d'] := by
  simp only [ClassDeclaration.kinds, wideClass, ClassVariables.kinds, NamesOfType.kinds, braced, List.flatMap_cons,
    List.flatMap_nil, List.append_assoc, List.cons_append, List.nil_append]
  rfl

theorem wideClass_writable (n : Nat) : ∀ kind ∈ (wideClass n).kinds, kind.Writable := by
  have a : (TokenKind.identifier "A").Writable := writable_identifier rfl rfl rfl rfl
  have x : (TokenKind.identifier "x").Writable := writable_identifier rfl rfl rfl rfl
  have new : (TokenKind.identifier "new").Writable := writable_identifier rfl rfl rfl rfl
  have symbol {c : Char} (hc : symbolChars.contains c = true := by rfl) : (TokenKind.symbol c).Writable :=
    writable_symbol (List.contains_iff_mem.mp hc)
  rw [wideClass_kinds]
  refine List.forall_mem_append.mpr ⟨List.forall_mem_append.mpr ⟨?_, fun kind hk => ?_⟩, ?_⟩
  · simp only [List.forall_mem_cons, List.not_mem_nil, false_implies, implies_true, and_true]
    exact ⟨writable_keyword _, a, symbol, writable_keyword _, writable_keyword _, x⟩
  · obtain ⟨name, hn, hk⟩ := List.mem_flatMap.mp hk
    obtain rfl := List.eq_of_mem_replicate hn
    rcases List.mem_pair.mp hk with rfl | rfl
    · exact symbol
    · exact x
  · simp only [List.forall_mem_cons, List.not_mem_nil, false_implies, implies_true, and_true]
    exact ⟨symbol, writable_keyword _, a, new, symbol, symbol, symbol, writable_keyword _, writable_keyword _, symbol,
      symbol, symbol⟩

/-- A class with many fields is compiled from its text. -/
theorem compileText_wideClass {n : Nat} (h : n < 65535) :
    compileText false (String.ofList (written (wideClass n).kinds)) = .ok (wideClass n).compiled := by
  obtain ⟨tokens, hscan, hkinds⟩ := scan_written (wideClass_writable n)
  exact compileText_eq_ok_iff.mpr ⟨tokens, hscan, (compile_kinds_eq_ok_iff hkinds.symm).mpr ⟨wideClass_valid h, rfl⟩⟩

/-- The constructor of the class pushes the number of fields. -/
theorem push_mem_wideClass (n : Nat) : .push .constant (UInt16.ofNat (n + 1)) ∈ (wideClass n).code := by
  rw [← countOf_field_wideClass n]
  exact List.mem_flatMap.mpr ⟨plainConstructor, List.mem_singleton.mpr rfl,
    List.mem_of_getElem? (ClassDeclaration.subroutineCode_constructor rfl)⟩

/-! ## Main statement -/

/-- All constants that are compiled from a text can be pushed, except for the number of fields: of the pushes of a
function only the one after the head of a constructor may be too large, and it is the number of fields that the class
declares. So no constant is too large exactly when the class has no constructor or not too many fields. -/
theorem compiled_constants_le {strict : Bool} {text : String} {r : CompiledClass}
    (h : compileText strict text = .ok r) :
    ∃ tokens, scan text = .ok tokens ∧ Derivable tokens ∧
      ∀ c : ClassDeclaration, c.kinds = tokens.map (·.kind) →
        List.Forall₂
          (fun s f => ∀ pc n, f[pc]? = some (.push .constant n) → maxConstant < n.toNat →
            s.kind = .constructor ∧ pc = 1 ∧ n.toNat = Declaration.countOf .field c.scope)
          c.subroutines (functionsOf r.code) ∧
        ((∀ n, .push .constant n ∈ r.code → n.toNat ≤ maxConstant) ↔
          Declaration.countOf .field c.scope ≤ maxConstant ∨ ∀ s ∈ c.subroutines, s.kind ≠ .constructor) := by
  obtain ⟨tokens, hscan, h⟩ := compileText_eq_ok_iff.mp h
  obtain ⟨c, hk, -⟩ := compile_eq_ok_iff.mp h
  refine ⟨tokens, hscan, ⟨c, hk⟩, fun c hk => ?_⟩
  obtain ⟨hv, rfl⟩ := (compile_kinds_eq_ok_iff hk).mp h
  have pushable : ∀ kind ∈ c.kinds, kind.Pushable := by
    rw [hk, List.forall_mem_map]
    exact pushable_of_scan hscan
  refine ⟨(forall₂_functionsOf_iff c).mpr fun s hs pc n hn hlt => ?_, hv.constants_le_iff pushable⟩
  obtain ⟨hkind, hpc, rfl⟩ := (c.constant_le pushable hs hn).resolve_left (Nat.not_le_of_lt hlt)
  exact ⟨hkind, hpc, hv.toNat_fields⟩

/-- With as many fields as a constant can be large the constructor still pushes their number within the range. -/
theorem wideClass_constants_le :
    compileText false (String.ofList (written (wideClass 32766).kinds)) = .ok (wideClass 32766).compiled ∧
      .push .constant 32767 ∈ (wideClass 32766).code ∧
      ∀ n, .push .constant n ∈ (wideClass 32766).code → n.toNat ≤ maxConstant := by
  have compiled := compileText_wideClass (show 32766 < 65535 by decide)
  obtain ⟨tokens, hscan, -, le_iff⟩ := compiled_constants_le compiled
  obtain ⟨tokens', hscan', hkinds⟩ := scan_written (wideClass_writable 32766)
  obtain rfl : tokens = tokens' := Except.ok.inj (hscan.symm.trans hscan')
  refine ⟨compiled, push_mem_wideClass 32766, (le_iff (wideClass 32766) hkinds.symm).2.mpr (.inl ?_)⟩
  rw [countOf_field_wideClass]
  exact Nat.le_refl _

/-- One field more is compiled too, and the constructor pushes their number, which is out of range. -/
theorem wideClass_constant_exceeds :
    ∃ r, compileText false (String.ofList (written (wideClass 32767).kinds)) = .ok r ∧
      ¬∀ n, .push .constant n ∈ r.code → n.toNat ≤ maxConstant := by
  refine ⟨_, compileText_wideClass (by decide), fun all => ?_⟩
  have := all _ (push_mem_wideClass 32767)
  exact absurd this (by decide)

end JackCompiler
