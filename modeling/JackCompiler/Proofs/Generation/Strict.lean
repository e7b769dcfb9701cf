import JackCompiler.Proofs.Grammar.Declared
import Mathlib.Data.List.Induction

/-!
# Strict scopes

A generator with strict scopes does what one with lenient scopes does, step by step, until a declaration names what its
scope holds (`Generator.step_strictly`), and so compilation with strict scopes is lenient compilation but for the first such
declaration (`strict_result`). Which declaration that is can be read off the tree of a class: it is the first whose name
stands before it in its scope (`IsFirstRepeat`). Main statement: `strict_adds_redeclared`.
-/

namespace JackCompiler

/-! ## One step -/

namespace Generator

/-- The generator with strict scopes. -/
def strictly (g : Generator) : Generator :=
  { g with strict := true }

/-- What strict scopes have against a step: it declares a name that its scope holds. -/
def objection? (g : Generator) : Step → Option NameError
  | .declare kind _ name p => if g.table.isDefinedInScope name kind then some (.redeclared name (some p)) else none
  | _ => none

/-- What strict scopes have against the first step, of those that a generator gets to, that they have anything against. -/
def firstObjection? (g : Generator) : List Step → Option NameError
  | [] => none
  | step :: steps =>
    match g.objection? step with
    | some e => some e
    | none =>
      match g.step step with
      | .ok h => h.firstObjection? steps
      | .error _ => none

variable {g h : Generator}

theorem emitWith_strictly (name : String) (p : Position) (code : Variable → List Vm.Instruction) :
    g.strictly.emitWith name p code = (g.emitWith name p code).map strictly := by
  simp only [emitWith, variableAt, strictly]
  cases g.table.resolve name <;> rfl

/-- A step with strict scopes does what it does with lenient ones, unless strict scopes have something against it. -/
theorem step_strictly (hg : g.strict = false) (step : Step) :
    g.strictly.step step =
      match g.objection? step with
      | some e => .error (.name e)
      | none => (g.step step).map strictly := by
  cases step with
  | declare kind type name p =>
    simp only [Generator.step, declare, objection?, strictly, hg]
    by_cases hd : g.table.isDefinedInScope name kind = true
    · simp [hd]
    · simp only [hd, Bool.and_false, Bool.false_eq_true, if_false]
      cases g.table.define name type kind <;> rfl
  | beginSubroutine kind =>
    cases kind with
    | constructor | function => rfl
    | method =>
      simp only [Generator.step, beginSubroutine, strictly, objection?]
      cases g.table.startSubroutine.define "this" g.className .argument <;> rfl
  | endBody =>
    exact congrArg Except.ok
      (apply_ite strictly (g.code.endsWithReturn = true) g (g.emit [.push .constant 0, .«return»])).symm
  | string body p =>
    simp only [Generator.step, objection?]
    cases stringCode body p <;> rfl
  | read | use | element | elementAddress | assign => exact emitWith_strictly ..
  | argument callee number p =>
    simp only [Generator.step, objection?]
    split <;> rfl
  | «call» callee n =>
    simp only [Generator.step, objection?]
    split
    · next hn => rw [if_pos (by exact hn)]; rfl
    · next hn => rw [if_neg (by exact hn)]; rfl
  | _ => rfl

theorem kept_of_emitWith {name : String} {p : Position} {code : Variable → List Vm.Instruction}
    (hs : g.emitWith name p code = .ok h) : h.strict = g.strict ∧ h.table = g.table := by
  unfold emitWith at hs
  split at hs <;> cases hs
  exact ⟨rfl, rfl⟩

/-- Steps that change no scope keep the table, and whether scopes are strict. -/
theorem kept_of_step {step : Step} (hn : step.isScoping = false) (hs : g.step step = .ok h) :
    h.strict = g.strict ∧ h.table = g.table := by
  cases step with
  | declare | beginSubroutine => cases hn
  | endBody =>
    cases hs
    split <;> exact ⟨rfl, rfl⟩
  | string body p =>
    simp only [Generator.step] at hs
    split at hs <;> cases hs
    exact ⟨rfl, rfl⟩
  | read | use | element | elementAddress | assign => exact kept_of_emitWith hs
  | argument callee number p =>
    simp only [Generator.step] at hs
    split at hs <;> cases hs
    exact ⟨rfl, rfl⟩
  | «call» callee n =>
    simp only [Generator.step] at hs
    split at hs <;> cases hs
    exact ⟨rfl, rfl⟩
  | _ =>
    cases hs
    exact ⟨rfl, rfl⟩

theorem define_of_declare {kind : VariableKind} {type name : String} {p : Position}
    (hs : g.declare kind type name p = .ok h) : ∃ table, g.table.define name type kind = .ok table ∧ h = { g with table } := by
  unfold declare at hs
  split at hs
  · cases hs
  · split at hs <;> cases hs
    exact ⟨_, ‹_›, rfl⟩

/-- No step makes scopes strict or lenient. -/
theorem strict_of_step {step : Step} (hs : g.step step = .ok h) : h.strict = g.strict := by
  cases step with
  | declare kind type name p =>
    obtain ⟨table, -, rfl⟩ := define_of_declare hs
    rfl
  | beginSubroutine kind =>
    cases kind with
    | constructor | function =>
      cases hs
      rfl
    | method =>
      simp only [Generator.step, beginSubroutine] at hs
      split at hs <;> cases hs
      rfl
  | _ => exact (kept_of_step rfl hs).1

/-! ## Runs -/

/-- A run with strict scopes comes to what it comes to with lenient ones, unless strict scopes have something against a
step on the way. -/
theorem follow_strictly (hg : g.strict = false) (steps : List Step) :
    g.strictly.follow steps =
      match g.firstObjection? steps with
      | some e => .error (.name e)
      | none => (g.follow steps).map strictly := by
  induction steps generalizing g with
  | nil => rfl
  | cons step steps ih =>
    rw [follow, step_strictly hg, firstObjection?, follow]
    cases g.objection? step with
    | some e => rfl
    | none =>
      rcases hs : g.step step with e | h
      · rfl
      · exact ih ((strict_of_step hs).trans hg)

/-- Strict scopes have nothing against a step but that its name is declared again, and say so at its place. -/
theorem eq_redeclared_of_objection {step : Step} {e : NameError} (h : g.objection? step = some e) :
    ∃ name p, e = .redeclared name (some p) := by
  cases step <;> simp only [objection?, reduceCtorEq] at h
  split at h <;> cases h
  exact ⟨_, _, rfl⟩

theorem eq_redeclared_of_firstObjection {steps : List Step} {e : NameError} (h : g.firstObjection? steps = some e) :
    ∃ name p, e = .redeclared name (some p) := by
  induction steps generalizing g with
  | nil => cases h
  | cons step steps ih =>
    rw [firstObjection?] at h
    split at h
    · next ho =>
      cases h
      exact eq_redeclared_of_objection ho
    · split at h
      · exact ih h
      · cases h

end Generator

/-- Compilation with strict scopes is compilation with lenient ones, unless strict scopes have something against a step. -/
theorem strict_result (record : Bool) (tokens : List Token) :
    (compile true record tokens).result =
      match Generator.firstObjection? { strict := false } (readClass tokens).steps with
      | some e => .error (.name e)
      | none => (compile false record tokens).result := by
  have run := Generator.follow_strictly (g := { strict := false }) rfl (readClass tokens).steps
  have start : Generator.strictly { strict := false } = { strict := true } := rfl
  simp only [compile, Generator.run_eq_follow, ← start, run]
  cases Generator.firstObjection? { strict := false } (readClass tokens).steps with
  | some e => rfl
  | none =>
    rcases Generator.follow { strict := false } (readClass tokens).steps with e | h
    · rfl
    · cases (readClass tokens).error? <;> rfl

/-! ## The names that scopes hold -/

/-- The names that the scope of the class and that of the subroutine at hand hold. -/
structure Held where
  ofClass : List String := []
  ofSubroutine : List String := []

namespace Held

variable (held : Held) (b : Bool)

/-- The names of one of the two scopes. -/
def names : List String :=
  if b then held.ofClass else held.ofSubroutine

/-- Adds names to one of the two scopes. -/
def add (names : List String) : Held :=
  if b then { held with ofClass := held.ofClass ++ names }
  else { held with ofSubroutine := held.ofSubroutine ++ names }

/-- The names after a step. -/
def after : Step → Held
  | .declare kind _ name _ => held.add kind.isOfClass [name]
  | .beginSubroutine kind => { held with ofSubroutine := kind.implicitNames }
  | _ => held

/-- The error that a step is when it declares a name that its scope holds. -/
def objection? : Step → Option NameError
  | .declare kind _ name p => if name ∈ held.names kind.isOfClass then some (.redeclared name (some p)) else none
  | _ => none

/-- The first declaration of a name that its scope holds, as the error that it is. -/
def firstRepeat? (held : Held) : List Step → Option NameError
  | [] => none
  | step :: steps =>
    match held.objection? step with
    | some e => some e
    | none => (held.after step).firstRepeat? steps

@[simp] theorem add_nil : held.add b [] = held := by
  cases b <;> simp [add]

@[simp] theorem add_add (names others : List String) : (held.add b names).add b others = held.add b (names ++ others) := by
  cases b <;> simp [add]

theorem names_add (b' : Bool) (names : List String) :
    (held.add b names).names b' = if b = b' then held.names b ++ names else held.names b' := by
  cases b <;> cases b' <;> rfl

@[simp] theorem names_add_self (names : List String) : (held.add b names).names b = held.names b ++ names := by
  rw [names_add, if_pos rfl]

/-- Only steps that change a scope matter. -/
theorem firstRepeat?_filter (steps : List Step) :
    held.firstRepeat? (steps.filter Step.isScoping) = held.firstRepeat? steps := by
  induction steps generalizing held with
  | nil => rfl
  | cons step steps ih =>
    by_cases hs : step.isScoping = true
    · rw [List.filter_cons_of_pos hs, firstRepeat?, firstRepeat?, ih]
    · have idle : held.objection? step = none ∧ held.after step = held := by
        cases step <;> first | exact absurd rfl hs | exact ⟨rfl, rfl⟩
      rw [List.filter_cons_of_neg hs, firstRepeat?, idle.1, idle.2, ih]

end Held

/-! ## A table and the names that it holds -/

theorem Scope.contains_insert (scope : Scope) (v : Variable) (name : String) :
    (scope.insert v).contains name = true ↔ scope.contains name = true ∨ name = v.name := by
  have renamed (w : Variable) : (if w.name == v.name then v else w).name = w.name := by
    split
    · next h => exact (beq_iff_eq.mp h).symm
    · rfl
  unfold insert
  split
  · next hv =>
    simp only [contains, List.any_map, Function.comp_def, renamed]
    refine ⟨.inl, ?_⟩
    rintro (h | rfl)
    · exact h
    · exact hv
  · simp [contains, @eq_comm _ name v.name]

theorem SymbolTable.scope_setScope (table : SymbolTable) (kind k : VariableKind) (scope : Scope) :
    (table.setScope kind scope).scope k = if kind.isOfClass = k.isOfClass then scope else table.scope k := by
  cases kind <;> cases k <;> rfl

/-- A table declares, in each scope, the names that are held there. -/
def SymbolTable.Holds (table : SymbolTable) (held : Held) : Prop :=
  ∀ name kind, table.isDefinedInScope name kind = true ↔ name ∈ held.names kind.isOfClass

namespace SymbolTable.Holds

variable {table table' : SymbolTable} {held : Held}

theorem define (h : table.Holds held) {name type : String} {kind : VariableKind}
    (hd : table.define name type kind = .ok table') : table'.Holds (held.add kind.isOfClass [name]) := by
  simp only [SymbolTable.define] at hd
  split at hd <;> cases hd
  intro other k
  show ((table.setScope kind ((table.scope kind).insert ⟨name, type, kind, _⟩)).scope k).contains other = true ↔ _
  rw [scope_setScope, Held.names_add]
  by_cases hk : kind.isOfClass = k.isOfClass
  · rw [if_pos hk, if_pos hk, Scope.contains_insert, List.mem_append, List.mem_singleton]
    exact or_congr (h other kind) Iff.rfl
  · rw [if_neg hk, if_neg hk]
    exact h other k

theorem startSubroutine (h : table.Holds held) : table.startSubroutine.Holds { held with ofSubroutine := [] } := by
  intro name kind
  cases kind with
  | static => exact h name .static
  | field => exact h name .field
  | argument | «local» => exact iff_of_false Bool.false_ne_true List.not_mem_nil

end SymbolTable.Holds

namespace Generator

variable {g h : Generator} {held : Held}

/-- A step changes the names that the table holds as its kind tells. -/
theorem holds_of_step (hg : g.table.Holds held) {step : Step} (hs : g.step step = .ok h) :
    h.table.Holds (held.after step) := by
  cases step with
  | declare kind type name p =>
    obtain ⟨table, hd, rfl⟩ := define_of_declare hs
    exact hg.define hd
  | beginSubroutine kind =>
    cases kind with
    | constructor | function =>
      cases hs
      exact hg.startSubroutine
    | method =>
      simp only [Generator.step, beginSubroutine] at hs
      split at hs <;> cases hs
      next hd => exact hg.startSubroutine.define hd
  | _ =>
    rw [(kept_of_step rfl hs).2]
    exact hg

/-- On a run that gets through, strict scopes have something against the first declaration of a name that is held. -/
theorem firstObjection_eq (hg : g.table.Holds held) {steps : List Step} (hs : g.follow steps = .ok h) :
    g.firstObjection? steps = held.firstRepeat? steps := by
  induction steps generalizing g held with
  | nil => rfl
  | cons step steps ih =>
    obtain ⟨g', hstep, hrest⟩ := follow_cons.mp hs
    have same : g.objection? step = held.objection? step := by
      cases step <;> first | rfl | exact if_congr (hg _ _) rfl rfl
    rw [firstObjection?, Held.firstRepeat?, same, hstep]
    simp only [ih (holds_of_step hg hstep) hrest]

end Generator

/-! ## The first repeated name -/

/-- A declaration is the first one of a name that its scope holds: the names of the scopes before it are distinct, so are
those before it in its own scope, and its name is one of these. -/
def IsFirstRepeat (scopes : List NamedScope) (d : Naming) : Prop :=
  ∃ before scope after early late, scopes = before ++ scope :: after ∧ scope.namings = early ++ d :: late ∧
    (∀ s ∈ before, s.names.Nodup) ∧ (scope.implicitNames ++ early.map (·.declaration.name)).Nodup ∧
    d.declaration.name ∈ scope.implicitNames ++ early.map (·.declaration.name)

/-- A list that repeats something after distinct ones has a first place where it does. -/
theorem exists_first_repeat {names : List String} (ds : List Naming) (hn : names.Nodup)
    (h : ¬(names ++ ds.map (·.declaration.name)).Nodup) :
    ∃ early d late, ds = early ++ d :: late ∧ (names ++ early.map (·.declaration.name)).Nodup ∧
      d.declaration.name ∈ names ++ early.map (·.declaration.name) := by
  induction ds using List.reverseRecOn with
  | nil => exact absurd (by simpa using hn) h
  | append_singleton ds d ih =>
    by_cases hd : (names ++ ds.map (·.declaration.name)).Nodup
    · refine ⟨ds, d, [], rfl, hd, ?_⟩
      by_contra hnew
      rw [List.map_append, ← List.append_assoc, List.map_singleton] at h
      exact h (List.nodup_append.mpr ⟨hd, List.nodup_singleton _, fun a ha b hb hab => hnew (by simp_all)⟩)
    · obtain ⟨early, d', late, rfl, hearly, hd'⟩ := ih hd
      exact ⟨early, d', late ++ [d], by simp, hearly, hd'⟩

/-- Where the names of some scope are not distinct, there is a first repeated one. -/
theorem exists_isFirstRepeat {scopes : List NamedScope} (h : ¬∀ s ∈ scopes, s.names.Nodup) :
    ∃ d, IsFirstRepeat scopes d := by
  induction scopes with
  | nil => exact absurd (List.forall_mem_nil _) h
  | cons s scopes ih =>
    by_cases hs : s.names.Nodup
    · obtain ⟨d, before, scope, after, early, late, rfl, hd, hb, he, hm⟩ :=
        ih fun h' => h (List.forall_mem_cons.mpr ⟨hs, h'⟩)
      exact ⟨d, s :: before, scope, after, early, late, rfl, hd, List.forall_mem_cons.mpr ⟨hs, hb⟩, he, hm⟩
    · obtain ⟨early, d, late, hd, he, hm⟩ := exists_first_repeat s.namings s.nodup_implicitNames hs
      exact ⟨d, [], s, scopes, early, late, rfl, hd, List.forall_mem_nil _, he, hm⟩

section

variable {place : Nat → Position} {held : Held} {b : Bool} {others : List Step}

/-- Declarations of names that are new in their scope are passed. -/
theorem firstRepeat?_distinct {ds : List Naming} (hk : ∀ d ∈ ds, d.declaration.kind.isOfClass = b)
    (hn : (held.names b ++ ds.map (·.declaration.name)).Nodup) :
    held.firstRepeat? (ds.map (Naming.step place) ++ others) =
      (held.add b (ds.map (·.declaration.name))).firstRepeat? others := by
  induction ds generalizing held with
  | nil => rw [List.map_nil, List.nil_append, List.map_nil, Held.add_nil]
  | cons d ds ih =>
    obtain ⟨rfl, hk⟩ := List.forall_mem_cons.mp hk
    rw [List.map_cons, ← List.singleton_append, ← List.append_assoc] at hn
    have hnew : d.declaration.name ∉ held.names d.declaration.kind.isOfClass := by
      have := (List.nodup_append.mp (List.nodup_append.mp hn).1).2.2
      exact fun hd => this _ hd _ (List.mem_singleton_self _) rfl
    rw [List.map_cons, List.cons_append, Held.firstRepeat?, Naming.step, Held.objection?, if_neg hnew]
    simp only [Held.after]
    rw [ih hk (by rwa [Held.names_add_self]), Held.add_add, List.map_cons, List.singleton_append]

/-- After declarations of names that are new in their scope comes one of a name that it holds. -/
theorem firstRepeat?_repeated {early late : List Naming} {d : Naming}
    (hk : ∀ d' ∈ early ++ d :: late, d'.declaration.kind.isOfClass = b)
    (hn : (held.names b ++ early.map (·.declaration.name)).Nodup)
    (hd : d.declaration.name ∈ held.names b ++ early.map (·.declaration.name)) :
    held.firstRepeat? ((early ++ d :: late).map (Naming.step place) ++ others) =
      some (.redeclared d.declaration.name (some (place d.token))) := by
  obtain ⟨hearly, hlate⟩ := List.forall_mem_append.mp hk
  obtain ⟨rfl, -⟩ := List.forall_mem_cons.mp hlate
  rw [List.map_append, List.append_assoc, firstRepeat?_distinct hearly hn, List.map_cons, List.cons_append,
    Held.firstRepeat?, Naming.step, Held.objection?, if_pos (by rwa [Held.names_add_self])]

/-- A scope starts with its implicit names, the scope of the class only once. -/
def Held.enter (held : Held) (s : NamedScope) : Held :=
  s.subroutine?.elim held fun kind => { held with ofSubroutine := kind.implicitNames }

theorem firstRepeat?_enter (s : NamedScope) :
    held.firstRepeat? (s.steps place ++ others) =
      (held.enter s).firstRepeat? (s.namings.map (Naming.step place) ++ others) := by
  rcases s with ⟨- | kind, ds⟩ <;> rfl

/-- The first repeated name is in the first scope, or the names of the first scope are distinct and it is in a later one. -/
theorem isFirstRepeat_cons {s : NamedScope} {scopes : List NamedScope} {d : Naming} :
    IsFirstRepeat (s :: scopes) d ↔
      (∃ early late, s.namings = early ++ d :: late ∧ (s.implicitNames ++ early.map (·.declaration.name)).Nodup ∧
        d.declaration.name ∈ s.implicitNames ++ early.map (·.declaration.name)) ∨
      s.names.Nodup ∧ IsFirstRepeat scopes d := by
  constructor
  · rintro ⟨- | ⟨s', before⟩, scope, after, early, late, hs, hd, hb, he, hm⟩ <;> cases hs
    · exact .inl ⟨early, late, hd, he, hm⟩
    · obtain ⟨hs, hb⟩ := List.forall_mem_cons.mp hb
      exact .inr ⟨hs, before, scope, after, early, late, rfl, hd, hb, he, hm⟩
  · rintro (⟨early, late, hd, he, hm⟩ | ⟨hs, before, scope, after, early, late, rfl, hd, hb, he, hm⟩)
    · exact ⟨[], s, scopes, early, late, rfl, hd, List.forall_mem_nil _, he, hm⟩
    · exact ⟨s :: before, scope, after, early, late, rfl, hd, List.forall_mem_cons.mpr ⟨hs, hb⟩, he, hm⟩

/-- The first repeated name is found, provided that the names at the beginning of each scope are its implicit ones. -/
theorem firstRepeat?_scopes {scopes : List NamedScope} {d : Naming} (hk : ∀ s ∈ scopes, s.Fits)
    (hstart : ∀ s ∈ scopes.head?, (held.enter s).names s.subroutine?.isNone = s.implicitNames)
    (hlater : ∀ s ∈ scopes.tail, s.subroutine?.isSome) (h : IsFirstRepeat scopes d) :
    held.firstRepeat? (scopes.flatMap (NamedScope.steps place)) =
      some (.redeclared d.declaration.name (some (place d.token))) := by
  induction scopes generalizing held with
  | nil =>
    obtain ⟨before, scope, after, -, -, hs, -⟩ := h
    simp at hs
  | cons s scopes ih =>
    obtain ⟨hs, hk⟩ := List.forall_mem_cons.mp hk
    have start := hstart s rfl
    rw [List.flatMap_cons, firstRepeat?_enter]
    rcases isFirstRepeat_cons.mp h with ⟨early, late, hd, he, hm⟩ | ⟨hn, h⟩
    · rw [NamedScope.Fits, hd] at hs
      rw [hd]
      exact firstRepeat?_repeated hs (by rwa [start]) (by rwa [start])
    · rw [firstRepeat?_distinct hs (by rwa [start])]
      refine ih hk (fun s' hs' => ?_) (fun s' hs' => hlater s' (List.mem_of_mem_tail hs')) h
      have := hlater s' (List.mem_of_mem_head? hs')
      rcases s' with ⟨- | kind, ds⟩
      · cases this
      · rfl

end

/-! ## Main statement -/

/-- A class that lenient scopes accept is accepted by strict ones when the names of each of its scopes are distinct. -/
theorem valid_strict_iff {c : ClassDeclaration} (hv : c.Valid false) :
    c.Valid true ↔ ∀ s ∈ c.scopes, s.names.Nodup := by
  have distinct : (∀ s ∈ c.scopes, s.names.Nodup) ↔
      (c.scope.map (·.name)).Nodup ∧ ∀ s ∈ c.subroutines, ((s.scope c.name).map (·.name)).Nodup := by
    rw [← List.forall_mem_map (P := fun names : List String => names.Nodup), c.names_scopes, List.forall_mem_cons,
      List.forall_mem_map]
  rw [distinct]
  constructor
  · intro h
    exact ⟨h.scope.distinct rfl, fun s hs => (h.subroutines s hs).scope.distinct rfl⟩
  · rintro ⟨hc, hs⟩
    exact ⟨⟨hv.scope.counts, fun _ => hc⟩,
      fun s hm => ⟨⟨(hv.subroutines s hm).scope.counts, fun _ => hs s hm⟩, (hv.subroutines s hm).body⟩⟩

/-- Where compilation with lenient scopes succeeds, strict scopes refuse the first repeated name, at its token. -/
theorem strict_result_of_repeat {record : Bool} {tokens : List Token} {c : ClassDeclaration} {r : CompiledClass}
    {d : Naming} (hk : c.kinds = tokens.map (·.kind)) (hr : (compile false record tokens).result = .ok r)
    (hd : IsFirstRepeat c.scopes d) :
    (compile true record tokens).result =
      .error (.name (.redeclared d.declaration.name (some (placeIn tokens d.token)))) := by
  obtain ⟨-, g, hg, -⟩ := compile_result_eq_ok.mp hr
  have empty : (SymbolTable.empty).Holds {} := by
    intro name kind
    cases kind <;> exact iff_of_false Bool.false_ne_true List.not_mem_nil
  have start (s : NamedScope) : (Held.enter {} s).names s.subroutine?.isNone = s.implicitNames := by
    rcases s with ⟨- | kind, ds⟩ <;> rfl
  have later : ∀ s ∈ c.scopes.tail, s.subroutine?.isSome := by
    intro s hs
    obtain ⟨n, sub, -, hsub⟩ := exists_of_mem_along hs
    rw [List.mem_singleton.mp hsub]
    rfl
  rw [strict_result, Generator.firstObjection_eq empty hg, ← Held.firstRepeat?_filter, scoping_readClass hk,
    c.scoping_eq_flatMap, firstRepeat?_scopes c.fits_of_mem_scopes (fun s _ => start s) later hd]

/-- What compilation with strict scopes comes to is the error of a name declared again, or what lenient scopes come to. -/
theorem strict_result_or (record : Bool) (tokens : List Token) :
    (∃ name p, (compile true record tokens).result = .error (.name (.redeclared name p))) ∨
      (compile true record tokens).result = (compile false record tokens).result := by
  rw [strict_result]
  cases ho : Generator.firstObjection? { strict := false } (readClass tokens).steps with
  | some e =>
    obtain ⟨name, p, rfl⟩ := Generator.eq_redeclared_of_firstObjection ho
    exact .inl ⟨name, some p, rfl⟩
  | none => exact .inr rfl

/-- The first repeated name is a token of the class. -/
theorem IsFirstRepeat.exists_token {c : ClassDeclaration} {tokens : List Token} {d : Naming}
    (hk : c.kinds = tokens.map (·.kind)) (hd : IsFirstRepeat c.scopes d) :
    ∃ token, tokens[d.token]? = some token ∧ token.kind = .identifier d.declaration.name ∧
      placeIn tokens d.token = token.position := by
  obtain ⟨before, scope, after, early, late, hs, hnamings, -⟩ := hd
  have stands : Stand c.kinds 0 scope.namings := c.stand scope (by rw [hs]; simp)
  obtain ⟨i, hi, hkind⟩ := stands d (by rw [hnamings]; simp)
  rw [hk, List.getElem?_map, Option.map_eq_some_iff] at hkind
  obtain ⟨token, htoken, hname⟩ := hkind
  rw [← Nat.zero_add i, ← hi] at htoken
  refine ⟨token, htoken, hname, ?_⟩
  rw [placeIn, htoken]
  rfl

/-- Strict scopes only add an error, that of a name declared again. What they accept, lenient scopes accept and compile
alike; an error of lenient scopes is theirs too, unless theirs is the added one, and theirs is that of lenient scopes,
unless it is the added one. What lenient scopes accept, they accept exactly when the names of each scope are distinct;
otherwise their error names, at its place, the first declaration in the order of the text whose name its scope holds. -/
theorem strict_adds_redeclared (record : Bool) (tokens : List Token) :
    let lenient := (compile false record tokens).result
    let strict := (compile true record tokens).result
    (∀ r, strict = .ok r → lenient = .ok r) ∧
    (∀ e, lenient = .error e → strict = .error e ∨ ∃ name p, strict = .error (.name (.redeclared name p))) ∧
    (∀ e, strict = .error e → (∀ name p, e ≠ .name (.redeclared name p)) → lenient = .error e) ∧
    ∀ r, lenient = .ok r →
      Derivable tokens ∧ ∀ c : ClassDeclaration, c.kinds = tokens.map (·.kind) →
        ((∃ r, strict = .ok r) ↔ ∀ s ∈ c.scopes, s.names.Nodup) ∧
        ((¬∀ s ∈ c.scopes, s.names.Nodup) → ∃ d token, IsFirstRepeat c.scopes d ∧ tokens[d.token]? = some token ∧
          token.kind = .identifier d.declaration.name ∧
          strict = .error (.name (.redeclared d.declaration.name (some token.position)))) := by
  intro lenient strict
  refine ⟨?_, ?_, ?_, ?_⟩
  · intro r hr
    rcases strict_result_or record tokens with ⟨name, p, he⟩ | same
    · cases he.symm.trans hr
    · exact same.symm.trans hr
  · intro e he
    rcases strict_result_or record tokens with again | same
    · exact .inr again
    · exact .inl (same.trans he)
  · intro e he hne
    rcases strict_result_or record tokens with ⟨name, p, again⟩ | same
    · cases again.symm.trans he
      exact absurd rfl (hne name p)
    · exact same.symm.trans he
  · intro r hr
    obtain ⟨c, hk, -⟩ := compile_eq_ok_iff.mp hr
    refine ⟨⟨c, hk⟩, fun c hk => ⟨?_, ?_⟩⟩
    · rw [← valid_strict_iff ((compile_kinds_eq_ok_iff hk).mp hr).1]
      constructor
      · rintro ⟨r, hr⟩
        exact ((compile_kinds_eq_ok_iff hk).mp hr).1
      · intro h
        exact ⟨_, (compile_kinds_eq_ok_iff hk).mpr ⟨h, rfl⟩⟩
    · intro h
      obtain ⟨d, hd⟩ := exists_isFirstRepeat h
      obtain ⟨token, htoken, hname, place⟩ := hd.exists_token hk
      have refused := strict_result_of_repeat hk hr hd
      rw [place] at refused
      exact ⟨d, token, hd, htoken, hname, refused⟩

/-- A local may have the name of a field, and in a strict scope not that of a parameter. -/
example :
    compileText true "class A \x7b field int y; method int f(int x) \x7b var char y, x; return x; \x7d \x7d" =
      .error (.name (.redeclared "x" (some ⟨1, 58⟩))) := by
  decide +kernel

end JackCompiler
