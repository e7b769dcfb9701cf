import JackCompiler.Proofs.Generation.Acceptance
import JackCompiler.Proofs.Syntax.Renaming

/-!
# Code under other names for variables

Code holds the kind and the number of a variable, not its name. A context is renamed when the replaced names stand in it for
the variables that the names stood for, and names that stand for none are kept (`Context.Renamed`): then statements with the
replaced names have the same code in it (`block_code_rename`), and their demands are met when they were
(`block_meets_rename`). Declarations under other names make such a context, whatever the other scope declares. Main statement:
`compile_renamed`.
-/

namespace JackCompiler

open Vm

/-! ## Contexts -/

/-- A context in which variables have other names. For the names in the given tokens, a replaced name stands for the renamed
variable, and a name that stands for nothing is not replaced. -/
structure Context.Renamed (ρ : String → String) (ks : List TokenKind) (Γ Γ' : Context) : Prop where
  className : Γ'.className = Γ.className
  find? : ∀ name, .identifier name ∈ ks → Γ'.find? (ρ name) = (Γ.find? name).map (Variable.rename ρ)
  fixed : ∀ name, .identifier name ∈ ks → Γ.find? name = none → ρ name = name

namespace Context.Renamed

variable {ρ : String → String} {ks : List TokenKind} {Γ Γ' : Context} (hΓ : Renamed ρ ks Γ Γ')
include hΓ

theorem read {name : String} (hn : .identifier name ∈ ks) : Γ'.read (ρ name) = Γ.read name := by
  rw [Context.read, Context.read, hΓ.find? name hn, Option.map_map]
  rfl

theorem write {name : String} (hn : .identifier name ∈ ks) : Γ'.write (ρ name) = Γ.write name := by
  rw [Context.write, Context.write, hΓ.find? name hn, Option.map_map]
  rfl

theorem isSome_find? {name : String} (hn : .identifier name ∈ ks) :
    (Γ'.find? (ρ name)).isSome = (Γ.find? name).isSome := by
  rw [hΓ.find? name hn, Option.isSome_map]

variable {callee : Callee} (hc : callee.kinds ⊆ ks)
include hc

theorem receiver : Γ'.receiver (callee.rename ρ) = Γ.receiver callee := by
  cases callee with
  | own subroutine => rfl
  | qualified qualifier subroutine => exact hΓ.read (hc List.mem_cons_self)

theorem receivers : Γ'.receivers (callee.rename ρ) = Γ.receivers callee := by
  cases callee with
  | own subroutine => rfl
  | qualified qualifier subroutine =>
    rw [Callee.rename, Context.receivers, hΓ.isSome_find? (hc List.mem_cons_self), Context.receivers]

/-- A name before the dot calls what it called: a variable keeps its type, and the name of a class is kept. -/
theorem function : Γ'.function (callee.rename ρ) = Γ.function callee := by
  cases callee with
  | own subroutine => rw [Callee.rename, Context.function, Context.function, hΓ.className]
  | qualified qualifier subroutine =>
    have hq : TokenKind.identifier qualifier ∈ ks := hc List.mem_cons_self
    rw [Callee.rename, Context.function, Context.function, hΓ.find? qualifier hq]
    cases h : Γ.find? qualifier with
    | none => rw [Option.map_none, hΓ.fixed qualifier hq h]
    | some v => rfl

theorem call (n : Nat) : Γ'.call (callee.rename ρ) n = Γ.call callee n := by
  rw [Context.call, Context.call, hΓ.function hc, hΓ.receivers hc]

end Context.Renamed

/-! ## Code -/

theorem length_renameArguments (ρ : String → String) (es : List Expression) :
    (renameArguments ρ es).length = es.length := by
  induction es with
  | nil => rfl
  | cons e es ih => rw [renameArguments, List.length_cons, List.length_cons, ih]

section

variable {ρ : String → String} {ks : List TokenKind} {Γ Γ' : Context}

mutual

/-- An expression with replaced names has the same code. -/
theorem Expression.code_rename (hΓ : Context.Renamed ρ ks Γ Γ') (e : Expression) (h : e.kinds ⊆ ks) :
    (e.rename ρ).code Γ' = e.code Γ := by
  match e with
  | .term t => exact t.code_rename hΓ h
  | .binary left operator right =>
    obtain ⟨hleft, hright⟩ := Expression.subset_of_binary h
    rw [Expression.rename, Expression.code, Expression.code, left.code_rename hΓ hleft, right.code_rename hΓ hright]

/-- A term with replaced names has the same code. -/
theorem Term.code_rename (hΓ : Context.Renamed ρ ks Γ Γ') (t : Term) (h : t.kinds ⊆ ks) :
    (t.rename ρ).code Γ' = t.code Γ := by
  match t with
  | .integer _ | .string _ | .constant _ => rfl
  | .variable name => exact hΓ.read (h List.mem_cons_self)
  | .element name index =>
    obtain ⟨hname, hindex⟩ := Term.subset_of_element h
    rw [Term.rename, Term.code, Term.code, index.code_rename hΓ hindex, hΓ.read hname]
  | .call callee arguments =>
    obtain ⟨hcallee, harguments⟩ := subset_of_call h
    rw [Term.rename, Term.code, Term.code, hΓ.receiver hcallee, hΓ.call hcallee, length_renameArguments,
      arguments_code_rename hΓ arguments harguments]
  | .parenthesized inner => exact inner.code_rename hΓ (Term.subset_of_parenthesized h)
  | .unary operator operand =>
    rw [Term.rename, Term.code, Term.code, operand.code_rename hΓ (Term.subset_of_unary h)]

/-- Arguments with replaced names have the same code. -/
theorem arguments_code_rename (hΓ : Context.Renamed ρ ks Γ Γ') (es : List Expression) (h : argumentKinds es ⊆ ks) :
    argumentCode Γ' (renameArguments ρ es) = argumentCode Γ es := by
  match es with
  | [] => rfl
  | e :: es =>
    obtain ⟨he, hes⟩ := subset_of_arguments h
    rw [renameArguments, argumentCode, argumentCode, e.code_rename hΓ he, arguments_code_rename hΓ es hes]

end

theorem callCode_rename (hΓ : Context.Renamed ρ ks Γ Γ') {callee : Callee} {arguments : List Expression}
    (h : callKinds callee arguments ⊆ ks) :
    callCode Γ' (callee.rename ρ) (renameArguments ρ arguments) = callCode Γ callee arguments :=
  Term.code_rename hΓ (.call callee arguments) h

end

mutual

/-- A statement with replaced names has as many `if` and `while`. -/
theorem Statement.constructs_rename (ρ : String → String) (s : Statement) : (s.rename ρ).constructs = s.constructs := by
  match s with
  | .let .. | .letElement .. | .do .. | .return .. => rfl
  | .if _ block => rw [Statement.rename, Statement.constructs, Statement.constructs, block_constructs_rename ρ block]
  | .ifElse _ block elseBlock =>
    rw [Statement.rename, Statement.constructs, Statement.constructs, block_constructs_rename ρ block,
      block_constructs_rename ρ elseBlock]
  | .while _ block =>
    rw [Statement.rename, Statement.constructs, Statement.constructs, block_constructs_rename ρ block]

theorem block_constructs_rename (ρ : String → String) (block : List Statement) :
    blockConstructs (renameBlock ρ block) = blockConstructs block := by
  match block with
  | [] => rfl
  | s :: others =>
    rw [renameBlock, blockConstructs, blockConstructs, s.constructs_rename ρ, block_constructs_rename ρ others]

end

/-- Statements with replaced names end in a `return` when the statements do. -/
theorem endsInReturn_rename (ρ : String → String) (block : List Statement) :
    endsInReturn (renameBlock ρ block) = endsInReturn block := by
  have mapped : renameBlock ρ block = block.map (Statement.rename ρ) := by
    induction block with
    | nil => rfl
    | cons s others ih => rw [renameBlock, List.map_cons, ih]
  rw [endsInReturn, endsInReturn, mapped, List.getLast?_map]
  rcases block.getLast? with _ | s
  · rfl
  · cases s <;> rfl

section

variable {ρ : String → String} {ks : List TokenKind} {Γ Γ' : Context}

mutual

/-- A statement with replaced names has the same code. -/
theorem Statement.code_rename (hΓ : Context.Renamed ρ ks Γ Γ') (s : Statement) (k : Nat) (h : s.kinds ⊆ ks) :
    (s.rename ρ).code Γ' k = s.code Γ k := by
  match s with
  | .let name value =>
    obtain ⟨hname, hvalue⟩ := Statement.subset_of_let h
    rw [Statement.rename, Statement.code, Statement.code, value.code_rename hΓ hvalue, hΓ.write hname]
  | .letElement name index value =>
    obtain ⟨hname, hindex, hvalue⟩ := Statement.subset_of_letElement h
    rw [Statement.rename, Statement.code, Statement.code, index.code_rename hΓ hindex, value.code_rename hΓ hvalue,
      hΓ.read hname]
  | .if condition block =>
    obtain ⟨hcondition, hblock⟩ := Statement.subset_of_if h
    rw [Statement.rename, Statement.code, Statement.code, condition.code_rename hΓ hcondition,
      block_code_rename hΓ block _ hblock]
  | .ifElse condition block elseBlock =>
    obtain ⟨hcondition, hblock, helse⟩ := Statement.subset_of_ifElse h
    rw [Statement.rename, Statement.code, Statement.code, condition.code_rename hΓ hcondition,
      block_code_rename hΓ block _ hblock, block_constructs_rename, block_code_rename hΓ elseBlock _ helse]
  | .while condition block =>
    obtain ⟨hcondition, hblock⟩ := Statement.subset_of_while h
    rw [Statement.rename, Statement.code, Statement.code, condition.code_rename hΓ hcondition,
      block_code_rename hΓ block _ hblock]
  | .do callee arguments =>
    rw [Statement.rename, Statement.code, Statement.code, callCode_rename hΓ (Statement.subset_of_do h)]
  | .return value => cases value with
    | none => rfl
    | some e =>
      have same : (e.rename ρ).code Γ' = e.code Γ := e.code_rename hΓ (Statement.subset_of_return h)
      rw [Statement.rename, Statement.code, Statement.code, Option.map_some, Option.elim_some, Option.elim_some, same]

/-- Statements with replaced names have the same code. -/
theorem block_code_rename (hΓ : Context.Renamed ρ ks Γ Γ') (block : List Statement) (k : Nat)
    (h : blockKinds block ⊆ ks) : blockCode Γ' k (renameBlock ρ block) = blockCode Γ k block := by
  match block with
  | [] => rfl
  | s :: others =>
    obtain ⟨hs, hothers⟩ := subset_of_block h
    rw [renameBlock, blockCode, blockCode, s.code_rename hΓ k hs, s.constructs_rename,
      block_code_rename hΓ others _ hothers]

end

/-! ## Demands -/

mutual

/-- An expression with replaced names has what it needs. -/
theorem Expression.meets_rename (hΓ : Context.Renamed ρ ks Γ Γ') (e : Expression) (h : e.kinds ⊆ ks) :
    Γ'.Meets (e.rename ρ).demands ↔ Γ.Meets e.demands := by
  match e with
  | .term t => exact t.meets_rename hΓ h
  | .binary left operator right =>
    obtain ⟨hleft, hright⟩ := Expression.subset_of_binary h
    rw [Expression.rename, Expression.demands, Expression.demands, meets_append, meets_append,
      left.meets_rename hΓ hleft, right.meets_rename hΓ hright]

/-- A term with replaced names has what it needs. -/
theorem Term.meets_rename (hΓ : Context.Renamed ρ ks Γ Γ') (t : Term) (h : t.kinds ⊆ ks) :
    Γ'.Meets (t.rename ρ).demands ↔ Γ.Meets t.demands := by
  match t with
  | .integer _ | .constant _ => exact iff_of_true meets_nil meets_nil
  | .string body => simp only [Term.rename, Term.demands, meets_cons, meets_nil, Demand.Met]
  | .variable name =>
    simp only [Term.rename, Term.demands, meets_cons, meets_nil, Demand.Met, hΓ.isSome_find? (h List.mem_cons_self)]
  | .element name index =>
    obtain ⟨hname, hindex⟩ := Term.subset_of_element h
    simp only [Term.rename, Term.demands, meets_cons, Demand.Met, hΓ.isSome_find? hname, index.meets_rename hΓ hindex]
  | .call callee arguments =>
    obtain ⟨hcallee, harguments⟩ := subset_of_call h
    simp only [Term.rename, Term.demands, meets_append, meets_cons, meets_nil, Demand.Met, length_renameArguments,
      hΓ.receivers hcallee, arguments_meets_rename hΓ arguments harguments]
  | .parenthesized inner => exact inner.meets_rename hΓ (Term.subset_of_parenthesized h)
  | .unary operator operand => exact operand.meets_rename hΓ (Term.subset_of_unary h)

/-- Arguments with replaced names have what they need. -/
theorem arguments_meets_rename (hΓ : Context.Renamed ρ ks Γ Γ') (es : List Expression) (h : argumentKinds es ⊆ ks) :
    Γ'.Meets (argumentDemands (renameArguments ρ es)) ↔ Γ.Meets (argumentDemands es) := by
  match es with
  | [] => exact iff_of_true meets_nil meets_nil
  | e :: es =>
    obtain ⟨he, hes⟩ := subset_of_arguments h
    rw [renameArguments, argumentDemands, argumentDemands, meets_append, meets_append, e.meets_rename hΓ he,
      arguments_meets_rename hΓ es hes]

end

mutual

/-- A statement with replaced names has what it needs. -/
theorem Statement.meets_rename (hΓ : Context.Renamed ρ ks Γ Γ') (s : Statement) (h : s.kinds ⊆ ks) :
    Γ'.Meets (s.rename ρ).demands ↔ Γ.Meets s.demands := by
  match s with
  | .let name value =>
    obtain ⟨hname, hvalue⟩ := Statement.subset_of_let h
    simp only [Statement.rename, Statement.demands, meets_cons, Demand.Met, hΓ.isSome_find? hname,
      value.meets_rename hΓ hvalue]
  | .letElement name index value =>
    obtain ⟨hname, hindex, hvalue⟩ := Statement.subset_of_letElement h
    simp only [Statement.rename, Statement.demands, meets_append, meets_cons, Demand.Met, hΓ.isSome_find? hname,
      index.meets_rename hΓ hindex, value.meets_rename hΓ hvalue]
  | .if condition block =>
    obtain ⟨hcondition, hblock⟩ := Statement.subset_of_if h
    rw [Statement.rename, Statement.demands, Statement.demands, meets_append, meets_append,
      condition.meets_rename hΓ hcondition, block_meets_rename hΓ block hblock]
  | .ifElse condition block elseBlock =>
    obtain ⟨hcondition, hblock, helse⟩ := Statement.subset_of_ifElse h
    rw [Statement.rename, Statement.demands, Statement.demands, meets_append, meets_append, meets_append, meets_append,
      condition.meets_rename hΓ hcondition, block_meets_rename hΓ block hblock, block_meets_rename hΓ elseBlock helse]
  | .while condition block =>
    obtain ⟨hcondition, hblock⟩ := Statement.subset_of_while h
    rw [Statement.rename, Statement.demands, Statement.demands, meets_append, meets_append,
      condition.meets_rename hΓ hcondition, block_meets_rename hΓ block hblock]
  | .do callee arguments => exact Term.meets_rename hΓ (.call callee arguments) (Statement.subset_of_do h)
  | .return value => cases value with
    | none => exact iff_of_true meets_nil meets_nil
    | some e => exact e.meets_rename hΓ (Statement.subset_of_return h)

/-- Statements with replaced names have what they need. -/
theorem block_meets_rename (hΓ : Context.Renamed ρ ks Γ Γ') (block : List Statement) (h : blockKinds block ⊆ ks) :
    Γ'.Meets (blockDemands (renameBlock ρ block)) ↔ Γ.Meets (blockDemands block) := by
  match block with
  | [] => exact iff_of_true meets_nil meets_nil
  | s :: others =>
    obtain ⟨hs, hothers⟩ := subset_of_block h
    rw [renameBlock, blockDemands, blockDemands, meets_append, meets_append, s.meets_rename hΓ hs,
      block_meets_rename hΓ others hothers]

end

end

/-! ## Scopes -/

section

variable {x y name : String} {vs : List Variable}

/-- A new name stands for what the old one stood for, and the others for what they stood for. -/
theorem lastNamed?_renamed (hvs : ∀ v ∈ vs, v.name ≠ y) (hy : name ≠ y) :
    lastNamed? (vs.map (Variable.rename (renamed x y))) (renamed x y name) =
      (lastNamed? vs name).map (Variable.rename (renamed x y)) :=
  lastNamed?_rename (injOn_renamed x y) hvs hy

/-- What another name stands for is not renamed. -/
theorem map_lastNamed?_of_ne (hx : name ≠ x) :
    (lastNamed? vs name).map (Variable.rename (renamed x y)) = lastNamed? vs name := by
  cases h : lastNamed? vs name with
  | none => rfl
  | some v =>
    rw [Option.map_some, Variable.rename, name_of_lastNamed? h, renamed_of_ne y hx, ← name_of_lastNamed? h]

theorem lastNamed?_renamed_of_ne (hvs : ∀ v ∈ vs, v.name ≠ y) (hx : name ≠ x) (hy : name ≠ y) :
    lastNamed? (vs.map (Variable.rename (renamed x y))) name = lastNamed? vs name := by
  have found := lastNamed?_renamed (x := x) hvs hy
  rwa [renamed_of_ne y hx, map_lastNamed?_of_ne hx] at found

end

namespace Declaration

variable {x y : String} {ds : List Declaration}

/-- Declarations of other names are not renamed. -/
theorem map_rename_of_notMem (hx : x ∉ ds.map (·.name)) : ds.map (rename (renamed x y)) = ds := by
  refine (List.map_congr_left fun d hd => ?_).trans (List.map_id ds)
  have other : d.name ≠ x := fun h => hx (List.mem_map.mpr ⟨d, hd, h⟩)
  rw [rename, renamed_of_ne y other, id]

theorem ne_of_mem_made (hy : y ∉ ds.map (·.name)) : ∀ v ∈ made ds, v.name ≠ y := by
  rintro v hv rfl
  rw [← made_names] at hy
  exact hy (List.mem_map.mpr ⟨v, hv, rfl⟩)

end Declaration

/-- A declared name stands for something. -/
theorem exists_lastNamed?_made {ds : List Declaration} {name : String} (h : name ∈ ds.map (·.name)) :
    ∃ v, lastNamed? (Declaration.made ds) name = some v := by
  rw [← Option.isSome_iff_exists, lastNamed?_isSome, Declaration.made_names]
  exact h

namespace Context

theorem find?_ofDeclarations (className : String) (cs ss : List Declaration) (name : String) :
    (ofDeclarations className cs ss).find? name =
      (lastNamed? (Declaration.made ss) name).or (lastNamed? (Declaration.made cs) name) := rfl

variable {className x y : String} {cs ss : List Declaration} {ks : List TokenKind} (hks : .identifier y ∉ ks)
include hks

/-- A name of the class is replaced, and the subroutine does not declare it. -/
theorem renamed_ofClass (hcs : y ∉ cs.map (·.name)) (hss : y ∉ ss.map (·.name)) (hx : x ∈ cs.map (·.name))
    (hx' : x ∉ ss.map (·.name)) :
    Renamed (renamed x y) ks (ofDeclarations className cs ss)
      (ofDeclarations className (cs.map (Declaration.rename (renamed x y))) ss) where
  className := rfl
  find? name hn := by
    have hy : name ≠ y := by
      rintro rfl
      exact hks hn
    have own := lastNamed?_renamed (x := x) (Declaration.ne_of_mem_made hss) hy
    rw [← Declaration.made_rename, Declaration.map_rename_of_notMem hx'] at own
    rw [find?_ofDeclarations, own, Declaration.made_rename, lastNamed?_renamed (Declaration.ne_of_mem_made hcs) hy,
      find?_ofDeclarations, Option.map_or]
  fixed name _ h := by
    refine renamed_of_ne y ?_
    rintro rfl
    obtain ⟨v, hv⟩ := exists_lastNamed?_made hx
    rw [find?_ofDeclarations, hv, Option.or_eq_none_iff] at h
    cases h.2

/-- A name of the class is replaced that the subroutine declares for itself. -/
theorem renamed_ofClass_shadowed (hcs : y ∉ cs.map (·.name)) (hx : x ∈ ss.map (·.name)) :
    Renamed id ks (ofDeclarations className cs ss)
      (ofDeclarations className (cs.map (Declaration.rename (renamed x y))) ss) where
  className := rfl
  find? name hn := by
    have hy : name ≠ y := by
      rintro rfl
      exact hks hn
    have same : Variable.rename id = id := rfl
    rw [same, Option.map_id, id, id, find?_ofDeclarations, find?_ofDeclarations]
    by_cases h : name = x
    · obtain ⟨v, hv⟩ := exists_lastNamed?_made hx
      rw [h, hv, Option.some_or, Option.some_or]
    · rw [Declaration.made_rename, lastNamed?_renamed_of_ne (Declaration.ne_of_mem_made hcs) h hy]
  fixed _ _ _ := rfl

/-- A name of the subroutine is replaced, whether or not the class declares it, too. -/
theorem renamed_ofSubroutine (hss : y ∉ ss.map (·.name)) (hx : x ∈ ss.map (·.name)) :
    Renamed (renamed x y) ks (ofDeclarations className cs ss)
      (ofDeclarations className cs (ss.map (Declaration.rename (renamed x y)))) where
  className := rfl
  find? name hn := by
    have hy : name ≠ y := by
      rintro rfl
      exact hks hn
    rw [find?_ofDeclarations, find?_ofDeclarations, Declaration.made_rename,
      lastNamed?_renamed (Declaration.ne_of_mem_made hss) hy]
    by_cases h : name = x
    · obtain ⟨v, hv⟩ := exists_lastNamed?_made hx
      rw [h, hv, Option.map_some, Option.some_or, Option.some_or, Option.map_some]
    · rw [renamed_of_ne y h, Option.map_or, map_lastNamed?_of_ne h, map_lastNamed?_of_ne h]
  fixed name _ h := by
    refine renamed_of_ne y ?_
    rintro rfl
    obtain ⟨v, hv⟩ := exists_lastNamed?_made hx
    rw [find?_ofDeclarations, hv, Option.some_or] at h
    cases h

end Context

/-! ## Subroutines -/

theorem NamesOfType.declarations_rename (ρ : String → String) (kind : VariableKind) (d : NamesOfType) :
    (d.rename ρ).declarations kind = (d.declarations kind).map (Declaration.rename ρ) := by
  have names : (d.rename ρ).names = d.names.map ρ := rfl
  rw [declarations, declarations, names, List.map_map, List.map_map]
  rfl

namespace ClassDeclaration

/-- The names in the scope of a class are those that it declares. -/
theorem map_name_scope (c : ClassDeclaration) : c.scope.map (·.name) = c.declared .class := by
  rw [scope, declared, List.map_flatMap]
  refine List.flatMap_congr fun d _ => ?_
  rw [NamesOfType.declarations, List.map_map]
  exact List.map_id _

end ClassDeclaration

namespace Subroutine

variable {c c' : ClassDeclaration} {s s' : Subroutine} {ρ : String → String} {x : String}

/-- The names in the scope of a subroutine are those that it declares and that of its object. -/
theorem map_name_scope (className : String) (s : Subroutine) :
    (s.scope className).map (·.name) = (s.implicit className).map (·.name) ++ s.declared := by
  rw [scope, declared, List.map_append, List.map_append, List.map_map, List.map_flatMap, List.append_assoc]
  congr 2
  refine List.flatMap_congr fun d _ => ?_
  rw [NamesOfType.declarations, List.map_map]
  exact List.map_id _

/-- A name other than that of the object is in the scope exactly when the subroutine declares it. -/
theorem mem_map_name_scope_iff (hx : x ≠ "this") (className : String) :
    x ∈ (s.scope className).map (·.name) ↔ x ∈ s.declared := by
  have implicit : x ∉ (s.implicit className).map (·.name) := by
    rw [Subroutine.implicit]
    cases s.kind <;> simp [hx]
  rw [map_name_scope, List.mem_append, or_iff_right implicit]

/-- The scope of a renamed subroutine is the renamed scope, as long as the object keeps its name. -/
theorem scope_rename (hthis : ρ "this" = "this") (className : String) :
    (s.rename ρ).scope className = (s.scope className).map (Declaration.rename ρ) := by
  have implicit : (s.implicit className).map (Declaration.rename ρ) = s.implicit className := by
    rw [Subroutine.implicit]
    cases s.kind <;> simp [Declaration.rename, hthis]
  have parameters : (s.parameters.map (Parameter.rename ρ)).map Parameter.declaration =
      (s.parameters.map Parameter.declaration).map (Declaration.rename ρ) := by
    rw [List.map_map, List.map_map]
    rfl
  have locals : (s.locals.map (NamesOfType.rename ρ)).flatMap (NamesOfType.declarations .«local») =
      (s.locals.flatMap (NamesOfType.declarations .«local»)).map (Declaration.rename ρ) := by
    rw [List.flatMap_map, List.map_flatMap]
    exact List.flatMap_congr fun d _ => NamesOfType.declarations_rename ρ .«local» d
  rw [scope, scope, List.map_append, List.map_append, implicit, ← parameters, ← locals]
  rfl

/-- A renamed subroutine declares as many locals. -/
theorem length_locals_rename (ρ : String → String) (s : Subroutine) :
    ((s.rename ρ).locals.flatMap NamesOfType.names).length = (s.locals.flatMap NamesOfType.names).length := by
  have names : (s.rename ρ).locals.flatMap NamesOfType.names = (s.locals.flatMap NamesOfType.names).map ρ := by
    rw [rename, List.flatMap_map, List.map_flatMap]
    rfl
  rw [names, List.length_map]

/-- A subroutine of one class that has the code of a subroutine of another, and is valid when that is. -/
structure SameCode (c c' : ClassDeclaration) (s s' : Subroutine) : Prop where
  code : c'.subroutineCode s' = c.subroutineCode s
  valid : ∀ strict, s.Valid strict c → s'.Valid strict c'

theorem SameCode.forall_valid {strict : Bool} {ss ss' : List Subroutine} (h : List.Forall₂ (SameCode c c') ss ss')
    (hv : ∀ s ∈ ss, s.Valid strict c) : ∀ s' ∈ ss', s'.Valid strict c' := by
  induction h with
  | nil => exact List.forall_mem_nil _
  | cons hs _ ih =>
    obtain ⟨hv, hvs⟩ := List.forall_mem_cons.mp hv
    exact List.forall_mem_cons.mpr ⟨hs.valid strict hv, ih hvs⟩

/-- A subroutine whose body is renamed in a renamed context. -/
theorem sameCode_of_renamed (hΓ : Context.Renamed ρ s.kinds (c.context s) (c'.context s'))
    (hfields : Declaration.countOf .field c'.scope = Declaration.countOf .field c.scope)
    (hkind : s'.kind = s.kind) (hname : s'.name = s.name) (hbody : s'.body = renameBlock ρ s.body)
    (hlocals : (s'.locals.flatMap NamesOfType.names).length = (s.locals.flatMap NamesOfType.names).length)
    (hscope : ∀ strict, Admissible strict (s.scope c.name) → Admissible strict (s'.scope c'.name)) :
    SameCode c c' s s' := by
  obtain ⟨-, -, -, -, inside⟩ := subset_of_kinds (List.Subset.refl s.kinds)
  have className : c'.name = c.name := hΓ.className
  refine ⟨?_, fun strict h => ⟨hscope strict h.scope, ?_⟩⟩
  · have ending : endsInReturn s'.body = endsInReturn s.body := by rw [hbody, endsInReturn_rename]
    rw [ClassDeclaration.subroutineCode, ClassDeclaration.subroutineCode, className, hname, hlocals, hfields, hkind, ending,
      hbody, block_code_rename hΓ s.body 0 inside]
  · rw [hbody, block_meets_rename hΓ s.body inside]
    exact h.body

end Subroutine

/-! ## Classes -/

namespace ClassDeclaration

variable {c : ClassDeclaration} {x y : String} {owner : ScopeOwner}

theorem scope_rename_class : (c.rename x y .class).scope = c.scope.map (Declaration.rename (renamed x y)) := by
  rw [scope, rename, scope, List.flatMap_map, List.map_flatMap]
  exact List.flatMap_congr fun d _ => NamesOfType.declarations_rename _ _ d.names

/-- What a name stands for in a subroutine: what the subroutine declares under it last, or else what the class does. So a name
of the class stands for its variable in the subroutines that `Subroutine.renameOuter` changes, and in no others. -/
theorem find?_context {name : String} (hn : name ≠ "this") (s : Subroutine) :
    (c.context s).find? name =
      if name ∈ s.declared then lastNamed? (Declaration.made (s.scope c.name)) name
      else lastNamed? (Declaration.made c.scope) name := by
  rw [context, Context.find?_ofDeclarations]
  split
  · next own =>
    obtain ⟨v, hv⟩ := exists_lastNamed?_made ((Subroutine.mem_map_name_scope_iff hn c.name).mpr own)
    rw [hv, Option.some_or]
  · next other =>
    have none : name ∉ (Declaration.made (s.scope c.name)).map (·.name) := by
      rw [Declaration.made_names, Subroutine.mem_map_name_scope_iff hn]
      exact other
    rw [lastNamed?_eq_none none, Option.none_or]

/-- A name that stands in no scope of a class and nowhere in its subroutines. -/
structure IsNew (c : ClassDeclaration) (y : String) : Prop where
  scope : y ∉ c.scope.map (·.name)
  subroutineScope : ∀ s ∈ c.subroutines, y ∉ (s.scope c.name).map (·.name)
  kinds : ∀ s ∈ c.subroutines, .identifier y ∉ s.kinds

theorem isNew_of_notMem (hy : .identifier y ∉ c.kinds) (hthis : y ≠ "this") : c.IsNew y where
  scope := by
    rw [map_name_scope]
    exact fun h => hy (identifier_mem_kinds h)
  subroutineScope s hs := by
    rw [Subroutine.mem_map_name_scope_iff hthis]
    exact fun h => hy (kinds_subset_of_mem_subroutines hs (Subroutine.identifier_mem_kinds h))
  kinds _ hs h := hy (kinds_subset_of_mem_subroutines hs h)

/-- When a name of the class is replaced, each subroutine keeps its code, whether or not it shadows the name. -/
theorem sameCode_renameOuter (hnew : c.IsNew y) (hx : x ∈ c.declared .class) (hthis : x ≠ "this") {s : Subroutine}
    (hs : s ∈ c.subroutines) : Subroutine.SameCode c (c.rename x y .class) s (s.renameOuter x y) := by
  have context (s : Subroutine) : (c.rename x y .class).context s =
      .ofDeclarations c.name (c.scope.map (Declaration.rename (renamed x y))) (s.scope c.name) := by
    rw [context, scope_rename_class]
    rfl
  have fields : Declaration.countOf .field (c.rename x y .class).scope = Declaration.countOf .field c.scope := by
    rw [scope_rename_class, Declaration.countOf_rename]
  rw [Subroutine.renameOuter]
  split
  · next shadowed =>
    have hx' := (Subroutine.mem_map_name_scope_iff hthis c.name).mpr shadowed
    refine Subroutine.sameCode_of_renamed (ρ := id) ?_ fields rfl rfl (renameBlock_id s.body).symm rfl fun _ h => h
    rw [context]
    exact Context.renamed_ofClass_shadowed (hnew.kinds s hs) hnew.scope hx'
  · next visible =>
    have hx' := mt (Subroutine.mem_map_name_scope_iff hthis c.name).mp visible
    rw [← map_name_scope] at hx
    refine Subroutine.sameCode_of_renamed (ρ := renamed x y) ?_ fields rfl rfl rfl rfl fun _ h => h
    rw [context]
    exact Context.renamed_ofClass (hnew.kinds s hs) hnew.scope (hnew.subroutineScope s hs) hx hx'

/-- When a name of a subroutine is replaced, the subroutine keeps its code. -/
theorem sameCode_renameInner (hnew : c.IsNew y) (hthis : x ≠ "this") {s : Subroutine} (hs : s ∈ c.subroutines)
    (hx : x ∈ s.declared) (number : Nat) :
    Subroutine.SameCode c (c.rename x y (.subroutine number)) s (s.rename (renamed x y)) := by
  have scope := Subroutine.scope_rename (s := s) (renamed_of_ne y (Ne.symm hthis)) c.name
  have context : (c.rename x y (.subroutine number)).context (s.rename (renamed x y)) =
      .ofDeclarations c.name c.scope ((s.scope c.name).map (Declaration.rename (renamed x y))) := by
    rw [← scope]
    rfl
  have locals := Subroutine.length_locals_rename (renamed x y) s
  refine Subroutine.sameCode_of_renamed (ρ := renamed x y) ?_ rfl rfl rfl rfl locals fun strict h => ?_
  · rw [context]
    exact Context.renamed_ofSubroutine (hnew.kinds s hs) (hnew.subroutineScope s hs)
      ((Subroutine.mem_map_name_scope_iff hthis c.name).mpr hx)
  · have admissible := h.rename (injOn_renamed x y) fun d hd => ?_
    · rw [← scope] at admissible
      exact admissible
    · rintro rfl
      exact hnew.subroutineScope s hs (List.mem_map.mpr ⟨d, hd, rfl⟩)

/-- The subroutines of a renamed class have their code and stay valid. -/
theorem sameCode_rename (hnew : c.IsNew y) (hx : x ∈ c.declared owner) (hthis : x ≠ "this") :
    List.Forall₂ (Subroutine.SameCode c (c.rename x y owner)) c.subroutines (c.rename x y owner).subroutines := by
  cases owner with
  | «class» =>
    exact List.forall₂_map_right_iff.mpr (List.forall₂_same.mpr fun s hs => sameCode_renameOuter hnew hx hthis hs)
  | subroutine number =>
    -- the other subroutines are the same and stand in a class with the same scope
    refine forall₂_modify (fun s hs => ?_) fun s _ => ⟨rfl, fun strict h => ⟨h.scope, h.body⟩⟩
    rw [declared, hs] at hx
    exact sameCode_renameInner hnew hthis (List.mem_of_getElem? hs) hx number

/-- A renamed class is valid when the class is, and has its code. -/
theorem Valid.rename {strict : Bool} (hc : c.Valid strict) (hnew : c.IsNew y) (hx : x ∈ c.declared owner)
    (hthis : x ≠ "this") : (c.rename x y owner).Valid strict ∧ (c.rename x y owner).code = c.code := by
  have same := sameCode_rename hnew hx hthis
  have admissible : Admissible strict (c.rename x y owner).scope := by
    cases owner with
    | «class» =>
      rw [scope_rename_class]
      refine hc.scope.rename (injOn_renamed x y) fun d hd => ?_
      rintro rfl
      exact hnew.scope (List.mem_map.mpr ⟨d, hd, rfl⟩)
    | subroutine number => exact hc.scope
  exact ⟨⟨admissible, Subroutine.SameCode.forall_valid same hc.subroutines⟩,
    flatMap_eq_of_forall₂ (same.imp fun _ _ h => h.code)⟩

/-- The variables of a class in which a name is replaced: those of the class itself are renamed, and a name of a subroutine
is none of theirs. -/
theorem symbols_rename (hnew : c.IsNew y) :
    (c.rename x y owner).symbols =
      match owner with
      | .class => c.symbols.map (Variable.rename (renamed x y))
      | .subroutine _ => c.symbols := by
  cases owner with
  | «class» =>
    rw [symbols, scope_rename_class, Declaration.made_rename,
      scopeOf_rename (injOn_renamed x y) (Declaration.ne_of_mem_made hnew.scope), symbols]
  | subroutine number => rfl

end ClassDeclaration

/-! ## Main statement -/

/-- Variable names are bound: when a name that the class or one of its subroutines declares is replaced by a new one, where it
is declared and where it stands for what was declared, the class is accepted as before, with the same code. The variables of
the class differ in that name if it is one of theirs, and not at all if it is that of a subroutine. In a subroutine that
declares the old name this stands for what the subroutine declares, in any other for what the class does. The new name stands
in place of the old one only: when it is read as the old one, the tokens of the class are as before. -/
theorem compile_renamed {strict record : Bool} {tokens : List Token} {c : ClassDeclaration} {r : CompiledClass}
    (hk : c.kinds = tokens.map (·.kind)) (h : (compile strict record tokens).result = .ok r)
    (hthis : .identifier "this" ∉ c.kinds) (owner : ScopeOwner) {x y : String} (hx : x ∈ c.declared owner)
    (hy : .identifier y ∉ c.kinds) (hy' : y ≠ "this") :
    (c.rename x y owner).kinds.map (TokenKind.rename (renamed y x)) = c.kinds ∧
      (∀ s : Subroutine, (c.context s).find? x =
        if x ∈ s.declared then lastNamed? (Declaration.made (s.scope c.name)) x
        else lastNamed? (Declaration.made c.scope) x) ∧
      ∀ record' tokens', (c.rename x y owner).kinds = tokens'.map (·.kind) →
        ∃ r', (compile strict record' tokens').result = .ok r' ∧ r'.name = r.name ∧ r'.code = r.code ∧
          r'.classVariables =
            match owner with
            | .class => r.classVariables.map (Variable.rename (renamed x y))
            | .subroutine _ => r.classVariables := by
  obtain ⟨hv, rfl⟩ := (compile_kinds_eq_ok_iff hk).mp h
  have hx' : x ≠ "this" := by
    rintro rfl
    exact hthis (ClassDeclaration.identifier_mem_kinds hx)
  have hnew := ClassDeclaration.isNew_of_notMem hy hy'
  obtain ⟨hv', hcode⟩ := hv.rename hnew hx hx'
  refine ⟨c.kinds_rename owner hy, ClassDeclaration.find?_context hx', fun record' tokens' hk' => ?_⟩
  refine ⟨(c.rename x y owner).compiled, (compile_kinds_eq_ok_iff hk').mpr ⟨hv', rfl⟩, ?_, hcode,
    ClassDeclaration.symbols_rename hnew⟩
  cases owner <;> rfl

/-- A method without a value that calls `run` on the object of a variable. -/
def runningMethod (name : String) (parameters : List Parameter) («variable» : String) : Subroutine where
  kind := .method
  resultType := none
  name := name
  parameters := parameters
  locals := []
  body := [.do (.qualified «variable» "run") [], .return none]

/-- A class with a field that has the name of its type, a method that shadows it, and a method that does not. -/
def shadowingClass : ClassDeclaration where
  name := "P"
  declarations := [⟨.field, .ofClass "Q", "Q", []⟩]
  subroutines := [runningMethod "f" [⟨.ofClass "Q", "Q"⟩] "Q", runningMethod "g" [] "Q"]

/-- The field and the parameter are renamed one without the other, and neither the type. -/
theorem compile_renamed_shadowing :
    (compile true false (unplaced shadowingClass.kinds)).result = .ok shadowingClass.compiled ∧
      (∃ r, (compile true false (unplaced (shadowingClass.rename "Q" "w" .class).kinds)).result = .ok r ∧
        r.code = shadowingClass.code ∧ r.classVariables = [⟨"w", "Q", .field, 0⟩]) ∧
      ∃ r, (compile true false (unplaced (shadowingClass.rename "Q" "v" (.subroutine 0)).kinds)).result = .ok r ∧
        r.code = shadowingClass.code ∧ r.classVariables = [⟨"Q", "Q", .field, 0⟩] := by
  have spelt (c : ClassDeclaration) : c.kinds = (unplaced c.kinds).map (·.kind) := (map_kind_unplaced c.kinds).symm
  have compiled : (compile true false (unplaced shadowingClass.kinds)).result = .ok shadowingClass.compiled :=
    (compile_kinds_eq_ok_iff (spelt _)).mpr ⟨by decide +kernel, rfl⟩
  have noThis : .identifier "this" ∉ shadowingClass.kinds := by decide +kernel
  obtain ⟨-, -, field⟩ := compile_renamed (x := "Q") (y := "w") (spelt _) compiled noThis .class (by decide)
    (by decide +kernel) (by decide)
  obtain ⟨-, -, parameter⟩ := compile_renamed (x := "Q") (y := "v") (spelt _) compiled noThis (.subroutine 0) (by decide)
    (by decide +kernel) (by decide)
  obtain ⟨r, hr, -, hcode, hvariables⟩ := field false _ (spelt _)
  obtain ⟨r', hr', -, hcode', hvariables'⟩ := parameter false _ (spelt _)
  exact ⟨compiled, ⟨r, hr, hcode, hvariables⟩, r', hr', hcode', hvariables'⟩

/-- The class under the new name of its field, as it is written. -/
def shadowingText : String :=
  "class P \x7b field Q w;" ++
    " method void f(Q Q) \x7b do Q.run(); return; \x7d" ++
    " method void g() \x7b do w.run(); return; \x7d \x7d"

example : (scan shadowingText).map (List.map Token.kind) = .ok (shadowingClass.rename "Q" "w" .class).kinds := by
  decide +kernel

end JackCompiler
