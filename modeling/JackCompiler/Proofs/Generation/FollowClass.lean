import JackCompiler.Proofs.Generation.Follow

/-!
# Following the steps of a class

Declarations grow the table (`Declares`), the head of a subroutine resets it, and the statements of a body write their code
in the context of the declarations before them. A generator gets through a subroutine exactly when the subroutine is valid
(`Subroutine.follow_iff`), so it gets through a class exactly when the class is valid, and then it has written the code of
the rules (`ClassDeclaration.follow_iff`).
-/

namespace JackCompiler

open Vm

/-! ## Declarations -/

/-- The table after the declarations of one scope, those of the class or of the subroutine, and those of the other. -/
def tableBeside (isOfClass : Bool) (other ds : List Declaration) : SymbolTable :=
  if isOfClass then tableOf ds other else tableOf other ds

/-- Steps that get a generator through exactly when more declarations leave their scope admissible, and then have added
them to the table and done nothing else. -/
def Declares (isOfClass : Bool) (steps : List Step) (ds : List Declaration) : Prop :=
  ∀ (g : Generator) (other earlier : List Declaration), g.table = tableBeside isOfClass other earlier →
    Admissible g.strict earlier →
    g.Reaches steps (Admissible g.strict (earlier ++ ds)) { g with table := tableBeside isOfClass other (earlier ++ ds) }

namespace Declares

variable {b : Bool} {steps others : List Step} {ds ds' : List Declaration}

theorem nil : Declares b [] [] := by
  intro g other earlier ht ha
  rw [List.append_nil, ← ht]
  exact (Generator.Reaches.nil g).congr (by simp [ha]) fun _ => rfl

/-- A step without effect declares nothing. -/
theorem of_idle {step : Step} (h : ∀ g : Generator, g.step step = .ok g) : Declares b [step] [] := by
  intro g other earlier ht ha
  rw [List.append_nil, ← ht]
  exact (Generator.Reaches.of_step (h g)).congr (by simp [ha]) fun _ => rfl

theorem append (h : Declares b steps ds) (h' : Declares b others ds') : Declares b (steps ++ others) (ds ++ ds') := by
  intro g other earlier ht ha
  rw [← List.append_assoc]
  refine ((h g other earlier ht ha).append fun ha1 => h' _ other (earlier ++ ds) rfl ha1).congr ?_ fun _ => rfl
  exact ⟨fun h => h.2, fun h => ⟨h.of_append, h⟩⟩

theorem during (rule : Rule) (h : Declares b steps ds) : Declares b (during rule steps) ds := by
  have enter : Declares b [.enter rule] [] := of_idle fun _ => rfl
  have leave : Declares b [.leave rule] [] := of_idle fun _ => rfl
  have whole := (enter.append h).append leave
  rwa [List.nil_append, List.append_nil] at whole

/-- Declarations part by part. -/
theorem flatMap {α : Type} {f : α → List Step} {f' : α → List Declaration} (h : ∀ a, Declares b (f a) (f' a))
    (as : List α) : Declares b (as.flatMap f) (as.flatMap f') := by
  induction as with
  | nil => exact nil
  | cons a as ih => exact (h a).append ih

/-- A declaration is accepted when its kind has an index left and, in a strict scope, its name is new. -/
theorem declare (kind : VariableKind) (type name : String) (p : Position) :
    Declares kind.isOfClass [.declare kind type name p] [⟨kind, type, name⟩] := by
  intro g other earlier ht ha g'
  obtain ⟨cs, ss, hb, hd, hb'⟩ : ∃ cs ss, tableBeside kind.isOfClass other earlier = tableOf cs ss ∧
      declarationsOf cs ss kind = earlier ∧
      tableBeside kind.isOfClass other (earlier ++ [⟨kind, type, name⟩]) =
        if kind.isOfClass then tableOf (cs ++ [⟨kind, type, name⟩]) ss else tableOf cs (ss ++ [⟨kind, type, name⟩]) := by
    unfold tableBeside declarationsOf
    cases kind.isOfClass
    · exact ⟨other, earlier, rfl, rfl, rfl⟩
    · exact ⟨earlier, other, rfl, rfl, rfl⟩
  have hs : g.table.isDefinedInScope name kind = true ↔ name ∈ earlier.map (·.name) := by
    rw [ht, hb, isDefinedInScope_tableOf, hd]
  rw [Generator.follow_singleton, Generator.step, Generator.declare, ha.append_singleton_iff, hb']
  by_cases hn : g.strict = true ∧ name ∈ earlier.map (·.name)
  · rw [if_pos (by rw [Bool.and_eq_true, hs]; exact hn)]
    simp only [reduceCtorEq, false_iff]
    rintro ⟨⟨-, h⟩, -⟩
    exact h hn.1 hn.2
  · rw [if_neg (by rw [Bool.and_eq_true, hs]; exact hn), ht, hb]
    have hle := ha.counts kind
    by_cases hc : Declaration.countOf kind earlier < 65535
    · rw [define_tableOf cs ss ⟨kind, type, name⟩ (by rw [hd]; exact hc)]
      simp only [Except.ok.injEq]
      constructor
      · rintro rfl
        exact ⟨⟨hc, fun h h' => hn ⟨h, h'⟩⟩, rfl⟩
      · rintro ⟨-, rfl⟩
        rfl
    · rw [define_tableOf_full cs ss ⟨kind, type, name⟩ (by rw [hd]; exact Nat.le_antisymm hle (Nat.le_of_not_lt hc))]
      simp [hc]

end Declares

/-- Names of one type that are declared together. -/
theorem NamesOfType.declares (kind : VariableKind) (d : NamesOfType) :
    Declares kind.isOfClass (d.steps kind) (d.declarations kind) := by
  rw [steps, declareSteps, declarations, List.map_eq_flatMap, List.map_eq_flatMap]
  exact .flatMap (fun name => .declare kind d.type.name name .nowhere) d.names

theorem ClassVariables.declares (d : ClassVariables) : Declares true d.steps (d.names.declarations d.kind.kind) := by
  have hb : d.kind.kind.isOfClass = true := by cases d.kind <;> rfl
  have h := (d.names.declares d.kind.kind).during .classVarDec
  rwa [hb] at h

theorem Parameter.declares (ps : List Parameter) :
    Declares false (ps.map Parameter.step) (ps.map Parameter.declaration) := by
  rw [List.map_eq_flatMap, List.map_eq_flatMap]
  exact .flatMap (fun p => .declare .argument p.type.name p.name .nowhere) ps

theorem declares_locals (ds : List NamesOfType) :
    Declares false (ds.flatMap localSteps) (ds.flatMap (NamesOfType.declarations .«local»)) :=
  .flatMap (fun d => (d.declares .«local»).during .varDec) ds

/-! ## The end of a body -/

section

variable {Γ : Context}

/-- The code of a statement ends with a return exactly when the statement is one. -/
theorem Statement.code_last (s : Statement) (k : Nat) (h : Γ.Meets s.demands) :
    ∃ is i, s.code Γ k = is ++ [i] ∧ i.isReturn = endsInReturn [s] := by
  cases s with
  | «let» name value =>
    rw [Statement.demands, meets_cons, Demand.Met, Option.isSome_iff_exists] at h
    obtain ⟨⟨v, hv⟩, -⟩ := h
    exact ⟨value.code Γ, Rules.pop v, by simp [Statement.code, Context.write, hv], rfl⟩
  | letElement =>
    exact ⟨_, .pop .that 0, (List.append_assoc _ [Instruction.pop .temp 0, .pop .pointer 1, .push .temp 0] _).symm, rfl⟩
  | «if» => exact ⟨_, _, rfl, rfl⟩
  | ifElse => exact ⟨_, _, rfl, rfl⟩
  | «while» condition block =>
    exact ⟨_, .label (Rules.label "WHILE_END" (2 * k + 1)),
      (List.append_assoc _ [Instruction.goto (Rules.label "WHILE_TOP" (2 * k))] _).symm, rfl⟩
  | «do» => exact ⟨_, _, rfl, rfl⟩
  | «return» => exact ⟨_, _, rfl, rfl⟩

/-- The code of statements ends with a return exactly when the last of them is one. -/
theorem blockCode_last {block : List Statement} (k : Nat) (h : Γ.Meets (blockDemands block)) (hne : block ≠ []) :
    ∃ is i, blockCode Γ k block = is ++ [i] ∧ i.isReturn = endsInReturn block := by
  induction block generalizing k with
  | nil => exact absurd rfl hne
  | cons s others ih =>
    rw [blockDemands, meets_append] at h
    rw [blockCode]
    cases others with
    | nil =>
      obtain ⟨is, i, hc, hr⟩ := s.code_last k h.1
      exact ⟨is, i, by rw [hc, blockCode, List.append_nil], hr⟩
    | cons s' others =>
      obtain ⟨is, i, hc, hr⟩ := ih (k + s.constructs) h.2 (List.cons_ne_nil s' others)
      exact ⟨s.code Γ k ++ is, i, by rw [hc, List.append_assoc], hr⟩

end

theorem Vm.Code.endsWithReturn_writeAll (code : Code) (is : List Instruction) (i : Instruction) :
    (code.writeAll (is ++ [i])).endsWithReturn = i.isReturn := by
  have h : (code.writeAll (is ++ [i])).toList = code.toList ++ is ++ [i] := by
    rw [Code.toList_writeAll, List.append_assoc]
  rw [Code.endsWithReturn, Code.last?, ← Array.getLast?_toList, ← Code.toList, h, List.getLast?_concat]
  rfl

/-- After the head of a subroutine and its statements, the last instruction is a return exactly when the last statement
is one. -/
theorem endsWithReturn_body {Γ : Context} {body : List Statement} (h : Γ.Meets (blockDemands body)) (code : Code)
    (name : String) (locals : UInt16) (fields : Nat) (kind : SubroutineKind) :
    (code.writeAll (.function name locals :: Rules.prologue fields kind ++ blockCode Γ 0 body)).endsWithReturn =
      endsInReturn body := by
  by_cases hb : body = []
  · subst hb
    rw [blockCode, List.append_nil]
    cases kind with
    | constructor =>
      exact code.endsWithReturn_writeAll [_, _, _] (.pop .pointer 0)
    | function => exact code.endsWithReturn_writeAll [] (.function name locals)
    | method => exact code.endsWithReturn_writeAll [_, _] (.pop .pointer 0)
  · obtain ⟨is, i, hc, hr⟩ := blockCode_last 0 h hb
    rw [hc, ← List.append_assoc, Code.endsWithReturn_writeAll, hr]

/-! ## Subroutines -/

theorem Declaration.countOf_declarations (kind : VariableKind) (d : NamesOfType) :
    Declaration.countOf kind (d.declarations kind) = d.names.length := by
  simp [Declaration.countOf, NamesOfType.declarations, List.countP_map, Function.comp_def]

/-- The locals of a subroutine are counted in its head. -/
theorem Subroutine.countOf_local (className : String) (s : Subroutine) :
    Declaration.countOf .«local» (s.scope className) = (s.locals.flatMap NamesOfType.names).length := by
  have hi : Declaration.countOf .«local» (s.implicit className) = 0 := by
    rw [implicit]
    cases s.kind <;> rfl
  have hp : Declaration.countOf .«local» (s.parameters.map Parameter.declaration) = 0 := by
    simp [Declaration.countOf, Parameter.declaration]
  rw [scope, Declaration.countOf_append, Declaration.countOf_append, hi, hp]
  induction s.locals with
  | nil => rfl
  | cons d ds ih => simp_all [Declaration.countOf_declarations]

theorem prologue_eq (fields : Nat) (kind : SubroutineKind) :
    kind.prologue (UInt16.ofNat fields) = Rules.prologue fields kind := by
  cases kind <;> rfl

/-- A subroutine begins with the declarations of the class and the implicit argument of a method. -/
theorem step_beginSubroutine {g : Generator} {c : ClassDeclaration} {ss : List Declaration} (s : Subroutine)
    (hn : g.className = c.name) (ht : g.table = tableOf c.scope ss) :
    g.step (.beginSubroutine s.kind) =
      .ok { g with table := tableOf c.scope (s.implicit c.name), constructs := 0, unfinished := [] } := by
  have hs : g.table.startSubroutine = tableOf c.scope [] := by rw [ht, startSubroutine_tableOf]
  rw [Subroutine.implicit]
  cases s.kind with
  | constructor | function => rw [Generator.step, Generator.beginSubroutine, hs]
  | method =>
    have h := define_tableOf c.scope [] ⟨.argument, c.name, "this"⟩ (by simp [declarationsOf, VariableKind.isOfClass])
    simp only [Generator.step, Generator.beginSubroutine, hs, hn, h]
    rfl

/-- The implicit argument alone is admissible. -/
theorem admissible_implicit (strict : Bool) (className : String) (s : Subroutine) :
    Admissible strict (s.implicit className) := by
  rw [Subroutine.implicit]
  cases s.kind with
  | constructor | function => exact .nil
  | method =>
    refine ⟨fun kind => ?_, fun _ => by simp⟩
    rw [Declaration.countOf_singleton]
    split <;> omega

section

variable {g : Generator} {c : ClassDeclaration} {ss : List Declaration} (s : Subroutine)

/-- The declarations of a subroutine get through when its scope is admissible. -/
theorem Subroutine.reaches_declarations (hn : g.className = c.name) (ht : g.table = tableOf c.scope ss) :
    g.Reaches
      (.beginSubroutine s.kind :: during .parameterList (s.parameters.map Parameter.step) ++
        .enter .subroutineBody :: s.locals.flatMap localSteps)
      (Admissible g.strict (s.scope c.name))
      { g with table := tableOf c.scope (s.scope c.name), constructs := 0, unfinished := [] } := by
  have start := Generator.Reaches.of_step (step_beginSubroutine s hn ht)
  have enter : Declares false [.enter .subroutineBody] [] := .of_idle fun _ => rfl
  have rest := ((Parameter.declares s.parameters).during .parameterList).append (enter.append (declares_locals s.locals))
  have all := start.append fun _ => rest _ c.scope (s.implicit c.name) rfl (admissible_implicit g.strict c.name s)
  rw [Subroutine.scope, List.append_assoc]
  exact all.congr (by rw [true_and, List.nil_append]) fun _ => rfl

/-- The body of a subroutine gets through when the declarations meet its demands. -/
theorem Subroutine.reaches_body (hn : g.className = c.name) (ht : g.table = tableOf c.scope (s.scope c.name))
    (hk : g.constructs = 0) :
    g.Reaches (.beginBody s.kind s.name :: during .statements (blockSteps s.body) ++ [.endBody])
      ((c.context s).Meets (blockDemands s.body))
      { g with code := g.code.writeAll (c.subroutineCode s), constructs := blockConstructs s.body } := by
  have hl : g.table.count .«local» = UInt16.ofNat (s.locals.flatMap NamesOfType.names).length := by
    rw [ht, ← s.countOf_local c.name]
    rfl
  have hf : g.table.count .field = UInt16.ofNat (Declaration.countOf .field c.scope) := by
    rw [ht]
    rfl
  have sees : ∀ is, (g.emit is).Sees (c.context s) := by
    intro is
    refine ⟨hn, fun name => ?_⟩
    rw [← show g.table = (g.emit is).table from rfl, ht]
    exact lookup?_tableOf c.scope (s.scope c.name) name
  have head := Generator.Reaches.of_step (show g.step (.beginBody s.kind s.name) = .ok _ from rfl)
  rw [hl, hf, hn, prologue_eq] at head
  have block := head.append fun _ => (writes_block s.body).during .statements _ (sees _)
  refine (block.append fun _ => .of_step (show Generator.step _ .endBody = .ok _ from rfl)).congr (by simp) fun h => ?_
  have he := endsWithReturn_body h g.code (qualify c.name s.name)
    (UInt16.ofNat (s.locals.flatMap NamesOfType.names).length) (Declaration.countOf .field c.scope) s.kind
  rw [Code.writeAll_append] at he
  rw [ClassDeclaration.subroutineCode, Code.writeAll_append, Code.writeAll_append]
  simp only [Generator.emit, hk, Nat.zero_add] at he ⊢
  rw [he]
  cases endsInReturn s.body with
  | false => rfl
  | true => rfl

/-- A generator in the class gets through a subroutine exactly when the subroutine is valid, and then has written its
code. -/
theorem Subroutine.reaches (hn : g.className = c.name) (ht : g.table = tableOf c.scope ss) :
    g.Reaches s.steps (s.Valid g.strict c)
      { g with
        table := tableOf c.scope (s.scope c.name)
        code := g.code.writeAll (c.subroutineCode s)
        constructs := blockConstructs s.body
        unfinished := [] } := by
  have head := (Generator.Reaches.of_step (show g.step (.enter .subroutineDec) = .ok g from rfl)).append fun _ =>
    s.reaches_declarations hn ht
  have body := head.append fun _ => s.reaches_body hn rfl rfl
  have tail := (body.append fun _ => .of_step (show Generator.step _ (.leave .subroutineBody) = .ok _ from rfl)).append
    fun _ => .of_step (show Generator.step _ (.leave .subroutineDec) = .ok _ from rfl)
  have hs : s.steps = [.enter .subroutineDec] ++
      (.beginSubroutine s.kind :: during .parameterList (s.parameters.map Parameter.step) ++
        .enter .subroutineBody :: s.locals.flatMap localSteps) ++
      (.beginBody s.kind s.name :: during .statements (blockSteps s.body) ++ [.endBody]) ++
      [.leave .subroutineBody] ++ [.leave .subroutineDec] := by
    simp [Subroutine.steps, Subroutine.stepsFromName, during]
  rw [hs]
  refine tail.congr ?_ fun _ => rfl
  constructor
  · rintro ⟨⟨⟨⟨-, hd⟩, hb⟩, -⟩, -⟩
    exact ⟨hd, hb⟩
  · rintro ⟨hd, hb⟩
    exact ⟨⟨⟨⟨trivial, hd⟩, hb⟩, trivial⟩, trivial⟩

end

/-! ## The class -/

/-- What a generator has made of a class. -/
def Generator.compiled (g : Generator) : CompiledClass :=
  ⟨g.className, g.table.ofClass, g.code.toList⟩

/-- What the rules make of a class. -/
def ClassDeclaration.compiled (c : ClassDeclaration) : CompiledClass :=
  ⟨c.name, c.symbols, c.code⟩

/-- A generator in the class gets through subroutines exactly when they are valid, and then has written their code. -/
theorem exists_reaches_subroutines {g : Generator} {c : ClassDeclaration} {ss : List Declaration}
    (subs : List Subroutine) (hn : g.className = c.name) (ht : g.table = tableOf c.scope ss) :
    ∃ h, g.Reaches (subs.flatMap Subroutine.steps) (∀ s ∈ subs, s.Valid g.strict c) h ∧
      h.compiled = ⟨c.name, c.symbols, g.code.toList ++ subs.flatMap c.subroutineCode⟩ := by
  induction subs generalizing g ss with
  | nil =>
    refine ⟨g, (Generator.Reaches.nil g).congr (by simp) fun _ => rfl, ?_⟩
    simp [Generator.compiled, hn, ht, ClassDeclaration.symbols, tableOf]
  | cons s subs ih =>
    obtain ⟨h, hr, hc⟩ := @ih
      { g with
        table := tableOf c.scope (s.scope c.name)
        code := g.code.writeAll (c.subroutineCode s)
        constructs := blockConstructs s.body
        unfinished := [] } (s.scope c.name) hn rfl
    refine ⟨h, ((s.reaches hn ht).append fun _ => hr).congr (by simp) fun _ => rfl, ?_⟩
    rw [hc, Code.toList_writeAll, List.append_assoc]
    rfl

/-- A new generator gets through a class exactly when the class is valid, and then has made of it what the rules make. -/
theorem ClassDeclaration.exists_reaches (strict : Bool) (c : ClassDeclaration) :
    ∃ h, Generator.Reaches { strict } c.steps (c.Valid strict) h ∧ h.compiled = c.compiled := by
  let g : Generator := { strict, className := c.name }
  have start := (Generator.Reaches.of_step (show Generator.step { strict } (.enter .«class») = .ok _ from rfl)).append
    fun _ => .of_step (show Generator.step _ (.className c.name) = .ok g from rfl)
  have scope : g.Reaches (c.declarations.flatMap ClassVariables.steps) (Admissible strict c.scope)
      { g with table := tableOf c.scope [] } :=
    Declares.flatMap ClassVariables.declares c.declarations g [] [] rfl .nil
  obtain ⟨h, hr, hc⟩ := @exists_reaches_subroutines { g with table := tableOf c.scope [] } c [] c.subroutines rfl rfl
  have all := ((start.append fun _ => scope).append fun _ => hr).append
    fun _ => .of_step (show h.step (.leave .«class») = .ok h from rfl)
  refine ⟨h, ?_, hc⟩
  have hs : c.steps = [.enter .«class»] ++ [.className c.name] ++ c.declarations.flatMap ClassVariables.steps ++
      c.subroutines.flatMap Subroutine.steps ++ [.leave .«class»] := by
    simp [ClassDeclaration.steps, during]
  rw [hs]
  refine all.congr ?_ fun _ => rfl
  constructor
  · rintro ⟨⟨⟨-, hd⟩, hb⟩, -⟩
    exact ⟨hd, hb⟩
  · rintro ⟨hd, hb⟩
    exact ⟨⟨⟨⟨trivial, trivial⟩, hd⟩, hb⟩, trivial⟩

end JackCompiler
