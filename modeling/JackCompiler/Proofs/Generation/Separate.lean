import JackCompiler.Proofs.Generation.Acceptance

/-!
# Subroutines are compiled apart

What the rules demand of a subroutine, and what they make of it, depends on the name of the class and on the variables that
it declares, and on no other subroutine (`ClassDeclaration.withSubroutines_valid_iff`, `ClassDeclaration.withSubroutines_compiled`). So the code
of a class is put together from the code of the classes that have one of its subroutines each. Main statement:
`subroutines_compiled_apart`.
-/

namespace JackCompiler

open Vm

/-! ## The tokens of a class, part by part -/

/-- Tokens that are declarations of variables of a class. -/
def SpellsVariables (tokens : List Token) : Prop :=
  ∃ ds : List ClassVariables, ds.flatMap ClassVariables.kinds = tokens.map (·.kind)

/-- Tokens that are one subroutine. -/
def SpellsSubroutine (tokens : List Token) : Prop :=
  ∃ s : Subroutine, s.kinds = tokens.map (·.kind)

/-- The tokens of a class that stand around its declarations: `class`, its name and its braces. -/
structure ClassFrame where
  name : String
  front : List Token
  brace : Token
  front_kinds : front.map (·.kind) = [.keyword .«class», .identifier name, .symbol '\x7b']
  brace_kind : brace.kind = .symbol '\x7d'

/-- The tokens of a class with declarations of variables and with subroutines. -/
def ClassFrame.around (frame : ClassFrame) (declarations : List Token) (subroutines : List (List Token)) : List Token :=
  frame.front ++ declarations ++ subroutines.flatten ++ [frame.brace]

/-- When its parts are those of a tree, the tokens are those of a class. -/
theorem ClassFrame.around_kinds (frame : ClassFrame) {declarations : List Token} {subroutines : List (List Token)}
    {ds : List ClassVariables} {tree : List Token → Subroutine}
    (hd : ds.flatMap ClassVariables.kinds = declarations.map (·.kind))
    (hs : ∀ s ∈ subroutines, (tree s).kinds = s.map (·.kind)) :
    (ClassDeclaration.mk frame.name ds (subroutines.map tree)).kinds =
      (frame.around declarations subroutines).map (·.kind) := by
  have inner : (subroutines.map tree).flatMap Subroutine.kinds = subroutines.flatten.map (·.kind) := by
    rw [List.map_flatten, List.flatMap_map, List.flatMap_def, List.map_congr_left hs]
  simp only [around, List.map_append, frame.front_kinds, List.map_cons, List.map_nil, frame.brace_kind,
    ClassDeclaration.kinds, braced, hd, inner, List.cons_append, List.nil_append, List.append_assoc]

/-! ## A class with other subroutines -/

section

variable (c : ClassDeclaration) (subs : List Subroutine)

/-- The class with the given subroutines in the place of its own. -/
def ClassDeclaration.withSubroutines : ClassDeclaration :=
  { c with subroutines := subs }

/-- What a subroutine has to be does not depend on the other subroutines of its class. -/
theorem ClassDeclaration.withSubroutines_valid_iff (strict : Bool) :
    (c.withSubroutines subs).Valid strict ↔ Admissible strict c.scope ∧ ∀ s ∈ subs, s.Valid strict c :=
  ⟨fun h => ⟨h.scope, fun s hs => ⟨(h.subroutines s hs).scope, (h.subroutines s hs).body⟩⟩,
    fun h => ⟨h.1, fun s hs => ⟨(h.2 s hs).scope, (h.2 s hs).body⟩⟩⟩

/-- The code of a subroutine does not depend on the other subroutines of its class. -/
theorem ClassDeclaration.withSubroutines_compiled :
    (c.withSubroutines subs).compiled = ⟨c.name, c.symbols, subs.flatMap c.subroutineCode⟩ := rfl

end

/-! ## Main statement -/

/-- A class is compiled exactly when it is without its subroutines and with each of them alone, and then its code is the
code of these, one subroutine after another, and its name and variables are those of the class without subroutines. What
is compiled of the same subroutines in another order, or of some of them, has the same blocks in that order. -/
theorem subroutines_compiled_apart (strict record : Bool) (frame : ClassFrame) (declarations : List Token)
    (subroutines : List (List Token)) (hv : SpellsVariables declarations)
    (hs : ∀ s ∈ subroutines, SpellsSubroutine s) :
    let result := fun subs => (compile strict record (frame.around declarations subs)).result
    ((∃ r, result subroutines = .ok r) ↔ (∃ r, result [] = .ok r) ∧ ∀ s ∈ subroutines, ∃ r, result [s] = .ok r) ∧
      ∀ r, result subroutines = .ok r →
        ∃ (empty : CompiledClass) (block : List Token → List Instruction),
          result [] = .ok empty ∧ r.name = empty.name ∧ r.classVariables = empty.classVariables ∧
          (∀ s ∈ subroutines, ∃ single, result [s] = .ok single ∧ single.code = block s) ∧
          r.code = subroutines.flatMap block ∧
          ∀ others, others ⊆ subroutines → result others = .ok { r with code := others.flatMap block } := by
  intro result
  obtain ⟨ds, hd⟩ := hv
  -- the tree of a subroutine is chosen once, so that every class below is put together from the same trees
  have : Nonempty Subroutine := ⟨⟨.function, none, "f", [], [], []⟩⟩
  choose! tree htree using hs
  let c : ClassDeclaration := ⟨frame.name, ds, []⟩
  have compiles : ∀ subs ⊆ subroutines, ∀ r, result subs = .ok r ↔
      (Admissible strict c.scope ∧ ∀ s ∈ subs, (tree s).Valid strict c) ∧
        r = ⟨c.name, c.symbols, subs.flatMap fun s => c.subroutineCode (tree s)⟩ := by
    intro subs hsub r
    have kinds : (c.withSubroutines (subs.map tree)).kinds = (frame.around declarations subs).map (·.kind) :=
      frame.around_kinds hd fun s hs => htree s (hsub hs)
    rw [compile_kinds_eq_ok_iff kinds, c.withSubroutines_valid_iff, List.forall_mem_map, c.withSubroutines_compiled, List.flatMap_map]
  have none := compiles [] (List.nil_subset _)
  have single : ∀ s ∈ subroutines, ∀ r, result [s] = .ok r ↔
      (Admissible strict c.scope ∧ (tree s).Valid strict c) ∧ r = ⟨c.name, c.symbols, c.subroutineCode (tree s)⟩ := by
    intro s hs r
    rw [compiles [s] (List.cons_subset.mpr ⟨hs, List.nil_subset _⟩), List.forall_mem_singleton, List.flatMap_singleton]
  have all := compiles subroutines (List.Subset.refl _)
  refine ⟨⟨?_, ?_⟩, fun r hr => ?_⟩
  · rintro ⟨r, hr⟩
    obtain ⟨⟨ha, hvalid⟩, -⟩ := (all r).mp hr
    refine ⟨⟨_, (none _).mpr ⟨⟨ha, List.forall_mem_nil _⟩, rfl⟩⟩, fun s hs => ?_⟩
    exact ⟨_, (single s hs _).mpr ⟨⟨ha, hvalid s hs⟩, rfl⟩⟩
  · rintro ⟨⟨r, hr⟩, hsingle⟩
    refine ⟨_, (all _).mpr ⟨⟨((none r).mp hr).1.1, fun s hs => ?_⟩, rfl⟩⟩
    obtain ⟨r, hr⟩ := hsingle s hs
    exact ((single s hs r).mp hr).1.2
  · obtain ⟨⟨ha, hvalid⟩, rfl⟩ := (all r).mp hr
    refine ⟨_, fun s => c.subroutineCode (tree s), (none _).mpr ⟨⟨ha, List.forall_mem_nil _⟩, rfl⟩, rfl, rfl,
      fun s hs => ⟨_, (single s hs _).mpr ⟨⟨ha, hvalid s hs⟩, rfl⟩, rfl⟩, rfl, fun others hsub => ?_⟩
    exact (compiles others hsub _).mpr ⟨⟨ha, fun s hs => hvalid s (hsub hs)⟩, rfl⟩

/-- A function with a loop, whose labels are numbered from 0 as those of the method are. -/
def sampleLoop : Subroutine where
  kind := .function
  resultType := none
  name := "run"
  parameters := []
  locals := []
  body := [.while (.term (.constant .false)) []]

def sampleFrame : ClassFrame where
  name := "Sum"
  front := unplaced [.keyword .«class», .identifier "Sum", .symbol '\x7b']
  brace := ⟨.symbol '\x7d', .nowhere⟩
  front_kinds := rfl
  brace_kind := rfl

/-- A method and a function of one class are compiled, and compiled in the other order their blocks change places. -/
theorem subroutines_compiled_apart_sample :
    let field := unplaced (ClassVariables.mk .field ⟨.int, "x", []⟩).kinds
    let method := unplaced sampleMethod.kinds
    let loop := unplaced sampleLoop.kinds
    SpellsVariables field ∧ (∀ s ∈ [method, loop], SpellsSubroutine s) ∧
      ∃ block : List Token → List Instruction,
        block loop = [.function "Sum.run" 0, .label "WHILE_TOP_0", .push .constant 0, .arithmetic .not,
          .ifGoto "WHILE_END_1", .goto "WHILE_TOP_0", .label "WHILE_END_1", .push .constant 0, .«return»] ∧
        (compile true false (sampleFrame.around field [method, loop])).result =
          .ok ⟨"Sum", [⟨"x", "int", .field, 0⟩], block method ++ block loop⟩ ∧
        (compile true false (sampleFrame.around field [loop, method])).result =
          .ok ⟨"Sum", [⟨"x", "int", .field, 0⟩], block loop ++ block method⟩ := by
  intro field method loop
  have spelt : SpellsVariables field := ⟨[⟨.field, .int, "x", []⟩], by decide +kernel⟩
  have subroutines : ∀ s ∈ [method, loop], SpellsSubroutine s := by
    rw [List.forall_mem_cons, List.forall_mem_singleton]
    exact ⟨⟨sampleMethod, by decide +kernel⟩, ⟨sampleLoop, by decide +kernel⟩⟩
  have whole := subroutines_compiled_apart true false sampleFrame field [method, loop] spelt subroutines
  have compiled : (compile true false (sampleFrame.around field [method, loop])).result =
      .ok ⟨"Sum", [⟨"x", "int", .field, 0⟩], (sampleClass.withSubroutines [sampleMethod, sampleLoop]).code⟩ := by
    decide +kernel
  have alone : (compile true false (sampleFrame.around field [loop])).result =
      .ok ⟨"Sum", [⟨"x", "int", .field, 0⟩], sampleClass.subroutineCode sampleLoop⟩ := by
    decide +kernel
  obtain ⟨_, block, -, -, -, single, code_eq, others⟩ := whole.2 _ compiled
  obtain ⟨r, hr, hblock⟩ := single loop (by simp)
  obtain rfl := Except.ok.inj (alone.symm.trans hr)
  have pair (s t : List Token) : [s, t].flatMap block = block s ++ block t := by
    rw [List.flatMap_cons, List.flatMap_singleton]
  refine ⟨spelt, subroutines, block, hblock ▸ by decide +kernel, ?_, ?_⟩
  · rw [compiled, ← pair, ← code_eq]
  · rw [← pair]
    exact others [loop, method] (List.Perm.swap _ _ _).subset

end JackCompiler
