import JackCompiler.Proofs.Syntax.Tree
import JackCompiler.Proofs.Variables.Renaming

/-!
# Trees with other names for variables

Only some names in a class can stand for variables: those of declarations, those in the place of a variable, and those before
the dot of a call. `ClassDeclaration.rename` replaces a name that the class or one of its subroutines declares, where it is
declared and where it stands for what was declared there. It leaves the names of types, classes and subroutines alone, and a
subroutine that declares the name of a variable of the class for itself. When the new name is read as the old one again, the
class is written as before (`ClassDeclaration.kinds_rename`).
-/

namespace JackCompiler

/-! ## Uses -/

section

variable (ρ : String → String)

/-- A callee whose name before the dot is replaced. -/
def Callee.rename : Callee → Callee
  | .own subroutine => .own subroutine
  | .qualified qualifier subroutine => .qualified (ρ qualifier) subroutine

mutual

/-- An expression whose names for variables are replaced. -/
def Expression.rename : Expression → Expression
  | .term t => .term t.rename
  | .binary left operator right => .binary left.rename operator right.rename

/-- A term whose names for variables are replaced. -/
def Term.rename : Term → Term
  | .integer value => .integer value
  | .string body => .string body
  | .constant word => .constant word
  | .variable name => .variable (ρ name)
  | .element name index => .element (ρ name) index.rename
  | .call callee arguments => .call (callee.rename ρ) (renameArguments arguments)
  | .parenthesized inner => .parenthesized inner.rename
  | .unary operator operand => .unary operator operand.rename

/-- Arguments whose names for variables are replaced. -/
def renameArguments : List Expression → List Expression
  | [] => []
  | argument :: others => argument.rename :: renameArguments others

end

mutual

/-- A statement whose names for variables are replaced. -/
def Statement.rename : Statement → Statement
  | .let name value => .let (ρ name) (value.rename ρ)
  | .letElement name index value => .letElement (ρ name) (index.rename ρ) (value.rename ρ)
  | .if condition block => .if (condition.rename ρ) (renameBlock block)
  | .ifElse condition block elseBlock => .ifElse (condition.rename ρ) (renameBlock block) (renameBlock elseBlock)
  | .while condition block => .while (condition.rename ρ) (renameBlock block)
  | .do callee arguments => .do (callee.rename ρ) (renameArguments ρ arguments)
  | .return value => .return (value.map (Expression.rename ρ))

/-- Statements whose names for variables are replaced. -/
def renameBlock : List Statement → List Statement
  | [] => []
  | statement :: others => statement.rename :: renameBlock others

end

/-! ## Declarations -/

/-- Declared names that are replaced. -/
def NamesOfType.rename (d : NamesOfType) : NamesOfType :=
  { d with first := ρ d.first, others := d.others.map ρ }

/-- A declaration of variables of the class whose names are replaced. -/
def ClassVariables.rename (d : ClassVariables) : ClassVariables :=
  { d with names := d.names.rename ρ }

/-- A parameter whose name is replaced. -/
def Parameter.rename (p : Parameter) : Parameter :=
  { p with name := ρ p.name }

namespace Subroutine

/-- A subroutine whose names for variables are replaced where they are used. -/
def renameUses (s : Subroutine) : Subroutine :=
  { s with body := renameBlock ρ s.body }

/-- A subroutine whose names for variables are replaced where they are declared and where they are used. -/
def rename (s : Subroutine) : Subroutine :=
  { s with
    parameters := s.parameters.map (Parameter.rename ρ)
    locals := s.locals.map (NamesOfType.rename ρ)
    body := renameBlock ρ s.body }

/-- The names that a subroutine declares. -/
def declared (s : Subroutine) : List String :=
  s.parameters.map (·.name) ++ s.locals.flatMap NamesOfType.names

end Subroutine

end

/-- A subroutine of a class in which a name of the class is replaced. The name stands for something else in a subroutine that
declares it for itself. -/
def Subroutine.renameOuter (x y : String) (s : Subroutine) : Subroutine :=
  if x ∈ s.declared then s else s.renameUses (renamed x y)

/-! ## Scopes of a class -/

/-- Whose scope it is: that of the class, or that of the subroutine with a number. -/
inductive ScopeOwner where
  | «class»
  | subroutine (number : Nat)

namespace ClassDeclaration

variable (c : ClassDeclaration)

/-- The names that are declared in a scope of a class. -/
def declared : ScopeOwner → List String
  | .class => c.declarations.flatMap fun d => d.names.names
  | .subroutine number => c.subroutines[number]?.elim [] Subroutine.declared

/-- A class in which a name of one of its scopes is replaced: where the scope declares it, and where it stands for what the
scope declares. -/
def rename (x y : String) : ScopeOwner → ClassDeclaration
  | .class =>
    { c with
      declarations := c.declarations.map (ClassVariables.rename (renamed x y))
      subroutines := c.subroutines.map (Subroutine.renameOuter x y) }
  | .subroutine number =>
    { c with subroutines := c.subroutines.modify number (Subroutine.rename (renamed x y)) }

end ClassDeclaration

/-! A declared name is written where it is declared. -/

theorem NamesOfType.identifier_mem_kinds {d : NamesOfType} {name : String} (h : name ∈ d.names) :
    .identifier name ∈ d.kinds := by
  rw [names, List.mem_cons] at h
  rcases h with rfl | h
  · exact List.mem_cons_of_mem _ List.mem_cons_self
  · refine List.mem_cons_of_mem _ (List.mem_cons_of_mem _ (List.mem_flatMap.mpr ⟨name, h, ?_⟩))
    exact List.mem_cons_of_mem _ List.mem_cons_self

theorem Subroutine.identifier_mem_kinds {s : Subroutine} {name : String} (h : name ∈ s.declared) :
    .identifier name ∈ s.kinds := by
  obtain ⟨-, -, hparameters, hlocals, -⟩ := subset_of_kinds (List.Subset.refl s.kinds)
  rw [declared, List.mem_append] at h
  rcases h with h | h
  · obtain ⟨p, hp, rfl⟩ := List.mem_map.mp h
    exact hparameters (Parameter.kinds_subset_listKinds hp (List.mem_cons_of_mem _ List.mem_cons_self))
  · obtain ⟨d, hd, h⟩ := List.mem_flatMap.mp h
    refine hlocals (List.mem_flatMap.mpr ⟨d, hd, ?_⟩)
    simp [localKinds, NamesOfType.identifier_mem_kinds h]

theorem ClassDeclaration.identifier_mem_kinds {c : ClassDeclaration} {owner : ScopeOwner} {name : String}
    (h : name ∈ c.declared owner) : .identifier name ∈ c.kinds := by
  cases owner with
  | «class» =>
    obtain ⟨d, hd, h⟩ := List.mem_flatMap.mp h
    refine kinds_subset_of_mem_declarations hd ?_
    simp [ClassVariables.kinds, NamesOfType.identifier_mem_kinds h]
  | subroutine number =>
    rw [declared] at h
    cases hs : c.subroutines[number]? with
    | none =>
      rw [hs] at h
      cases h
    | some s =>
      rw [hs] at h
      exact kinds_subset_of_mem_subroutines (List.mem_of_getElem? hs) (Subroutine.identifier_mem_kinds h)

/-! ## Names that are kept -/

@[simp] theorem Callee.rename_id (callee : Callee) : callee.rename id = callee := by
  cases callee <;> rfl

mutual

theorem Expression.rename_id (e : Expression) : e.rename id = e := by
  match e with
  | .term t => rw [Expression.rename, t.rename_id]
  | .binary left operator right => rw [Expression.rename, left.rename_id, right.rename_id]

theorem Term.rename_id (t : Term) : t.rename id = t := by
  match t with
  | .integer _ | .string _ | .constant _ | .variable _ => rfl
  | .element name index => rw [Term.rename, index.rename_id, id]
  | .call callee arguments => rw [Term.rename, callee.rename_id, renameArguments_id arguments]
  | .parenthesized inner => rw [Term.rename, inner.rename_id]
  | .unary operator operand => rw [Term.rename, operand.rename_id]

theorem renameArguments_id (es : List Expression) : renameArguments id es = es := by
  match es with
  | [] => rfl
  | e :: es => rw [renameArguments, e.rename_id, renameArguments_id es]

end

mutual

theorem Statement.rename_id (s : Statement) : s.rename id = s := by
  match s with
  | .let name value => rw [Statement.rename, value.rename_id, id]
  | .letElement name index value => rw [Statement.rename, index.rename_id, value.rename_id, id]
  | .if condition block => rw [Statement.rename, condition.rename_id, renameBlock_id block]
  | .ifElse condition block elseBlock =>
    rw [Statement.rename, condition.rename_id, renameBlock_id block, renameBlock_id elseBlock]
  | .while condition block => rw [Statement.rename, condition.rename_id, renameBlock_id block]
  | .do callee arguments => rw [Statement.rename, callee.rename_id, renameArguments_id]
  | .return value => cases value with
    | none => rfl
    | some e => rw [Statement.rename, Option.map_some, e.rename_id]

theorem renameBlock_id (block : List Statement) : renameBlock id block = block := by
  match block with
  | [] => rfl
  | s :: others => rw [renameBlock, s.rename_id, renameBlock_id others]

end

/-! ## Reading the new name as the old one -/

/-- A token in which a name is replaced. -/
def TokenKind.rename (σ : String → String) : TokenKind → TokenKind
  | .identifier name => .identifier (σ name)
  | .keyword word => .keyword word
  | .symbol c => .symbol c
  | .integer value => .integer value
  | .string body => .string body

namespace TokenKind

variable (σ : String → String)

@[simp] theorem rename_identifier (name : String) : (identifier name).rename σ = identifier (σ name) := rfl

@[simp] theorem rename_keyword (word : Keyword) : (keyword word).rename σ = keyword word := rfl

@[simp] theorem rename_symbol (c : Char) : (symbol c).rename σ = symbol c := rfl

end TokenKind

/-- The names in some tokens are kept by `σ`, which gets them back when `ρ` has replaced them. -/
def Undone (ρ σ : String → String) (ks : List TokenKind) : Prop :=
  ∀ name, .identifier name ∈ ks → σ name = name ∧ σ (ρ name) = name

section

variable {ρ σ : String → String} {ks : List TokenKind} (hks : Undone ρ σ ks)
include hks

theorem Undone.map_rename {kinds : List TokenKind} (h : kinds ⊆ ks) : kinds.map (TokenKind.rename σ) = kinds := by
  refine (List.map_congr_left fun k hk => ?_).trans (List.map_id kinds)
  cases k with
  | identifier name => exact congrArg TokenKind.identifier (hks name (h hk)).1
  | _ => rfl

theorem Callee.kinds_rename {callee : Callee} (h : callee.kinds ⊆ ks) :
    (callee.rename ρ).kinds.map (TokenKind.rename σ) = callee.kinds := by
  cases callee with
  | own subroutine => exact hks.map_rename h
  | qualified qualifier subroutine =>
    simp only [kinds, List.cons_subset] at h
    simp [rename, kinds, (hks qualifier h.1).2, (hks subroutine h.2.2.1).1]

end

section

variable {ρ σ : String → String} {ks : List TokenKind}

mutual

theorem Expression.kinds_rename (hks : Undone ρ σ ks) (e : Expression) (h : e.kinds ⊆ ks) :
    (e.rename ρ).kinds.map (TokenKind.rename σ) = e.kinds := by
  match e with
  | .term t => exact t.kinds_rename hks h
  | .binary left operator right =>
    obtain ⟨hleft, hright⟩ := Expression.subset_of_binary h
    simp [Expression.rename, Expression.kinds, left.kinds_rename hks hleft, right.kinds_rename hks hright]

theorem Term.kinds_rename (hks : Undone ρ σ ks) (t : Term) (h : t.kinds ⊆ ks) :
    (t.rename ρ).kinds.map (TokenKind.rename σ) = t.kinds := by
  match t with
  | .integer _ | .string _ | .constant _ => rfl
  | .variable name => simp [Term.rename, Term.kinds, (hks name (h List.mem_cons_self)).2]
  | .element name index =>
    obtain ⟨hname, hindex⟩ := Term.subset_of_element h
    simp [Term.rename, Term.kinds, (hks name hname).2, index.kinds_rename hks hindex]
  | .call callee arguments =>
    obtain ⟨hcallee, harguments⟩ := subset_of_call h
    simp [Term.rename, Term.kinds, callee.kinds_rename hks hcallee, arguments_kinds_rename hks arguments harguments]
  | .parenthesized inner =>
    simp [Term.rename, Term.kinds, inner.kinds_rename hks (Term.subset_of_parenthesized h)]
  | .unary operator operand => simp [Term.rename, Term.kinds, operand.kinds_rename hks (Term.subset_of_unary h)]

theorem arguments_kinds_rename (hks : Undone ρ σ ks) (es : List Expression) (h : argumentKinds es ⊆ ks) :
    (argumentKinds (renameArguments ρ es)).map (TokenKind.rename σ) = argumentKinds es := by
  match es with
  | [] => rfl
  | e :: es =>
    simp only [argumentKinds, List.append_subset] at h
    simp [renameArguments, argumentKinds, e.kinds_rename hks h.1, moreArguments_kinds_rename hks es h.2]

theorem moreArguments_kinds_rename (hks : Undone ρ σ ks) (es : List Expression) (h : moreArgumentKinds es ⊆ ks) :
    (moreArgumentKinds (renameArguments ρ es)).map (TokenKind.rename σ) = moreArgumentKinds es := by
  match es with
  | [] => rfl
  | e :: es =>
    simp only [moreArgumentKinds, List.cons_append, List.cons_subset, List.append_subset] at h
    simp [renameArguments, moreArgumentKinds, e.kinds_rename hks h.2.1, moreArguments_kinds_rename hks es h.2.2]

end

mutual

theorem Statement.kinds_rename (hks : Undone ρ σ ks) (s : Statement) (h : s.kinds ⊆ ks) :
    (s.rename ρ).kinds.map (TokenKind.rename σ) = s.kinds := by
  match s with
  | .let name value =>
    obtain ⟨hname, hvalue⟩ := Statement.subset_of_let h
    simp [Statement.rename, Statement.kinds, (hks name hname).2, value.kinds_rename hks hvalue]
  | .letElement name index value =>
    obtain ⟨hname, hindex, hvalue⟩ := Statement.subset_of_letElement h
    simp [Statement.rename, Statement.kinds, (hks name hname).2, index.kinds_rename hks hindex,
      value.kinds_rename hks hvalue]
  | .if condition block =>
    obtain ⟨hcondition, hblock⟩ := Statement.subset_of_if h
    simp [Statement.rename, Statement.kinds, conditionKinds, braced, condition.kinds_rename hks hcondition,
      block_kinds_rename hks block hblock]
  | .ifElse condition block elseBlock =>
    obtain ⟨hcondition, hblock, helse⟩ := Statement.subset_of_ifElse h
    simp [Statement.rename, Statement.kinds, conditionKinds, braced, condition.kinds_rename hks hcondition,
      block_kinds_rename hks block hblock, block_kinds_rename hks elseBlock helse]
  | .while condition block =>
    obtain ⟨hcondition, hblock⟩ := Statement.subset_of_while h
    simp [Statement.rename, Statement.kinds, conditionKinds, braced, condition.kinds_rename hks hcondition,
      block_kinds_rename hks block hblock]
  | .do callee arguments =>
    obtain ⟨hcallee, harguments⟩ := subset_of_call (Statement.subset_of_do h)
    simp [Statement.rename, Statement.kinds, callKinds, callee.kinds_rename hks hcallee,
      arguments_kinds_rename hks arguments harguments]
  | .return value => cases value with
    | none => rfl
    | some e => simp [Statement.rename, Statement.kinds, e.kinds_rename hks (Statement.subset_of_return h)]

theorem block_kinds_rename (hks : Undone ρ σ ks) (block : List Statement) (h : blockKinds block ⊆ ks) :
    (blockKinds (renameBlock ρ block)).map (TokenKind.rename σ) = blockKinds block := by
  match block with
  | [] => rfl
  | s :: others =>
    obtain ⟨hs, hothers⟩ := subset_of_block h
    simp [renameBlock, blockKinds, s.kinds_rename hks hs, block_kinds_rename hks others hothers]

end

end

section

variable {ρ σ : String → String} {ks : List TokenKind}

/-- What holds of renamed parts one by one holds of them one after another. -/
theorem map_flatMap_rename {α : Type} {xs : List α} {f : α → List TokenKind} {g : α → α}
    (h : ∀ x ∈ xs, (f (g x)).map (TokenKind.rename σ) = f x) :
    ((xs.map g).flatMap f).map (TokenKind.rename σ) = xs.flatMap f := by
  rw [List.flatMap_map, List.map_flatMap]
  exact List.flatMap_congr h

/-- The tokens of one part are among those of all. -/
theorem subset_of_flatMap {α : Type} {xs : List α} {f : α → List TokenKind} (h : xs.flatMap f ⊆ ks) {x : α}
    (hx : x ∈ xs) : f x ⊆ ks :=
  fun _ hk => h (List.mem_flatMap.mpr ⟨x, hx, hk⟩)

variable (hks : Undone ρ σ ks)
include hks

theorem TypeName.kind_rename {t : TypeName} (h : t.kind ∈ ks) : t.kind.rename σ = t.kind := by
  cases t with
  | ofClass name => exact congrArg TokenKind.identifier (hks name h).1
  | int | char | boolean => rfl

theorem moreNameKinds_rename {names : List String} (h : moreNameKinds names ⊆ ks) :
    (moreNameKinds (names.map ρ)).map (TokenKind.rename σ) = moreNameKinds names := by
  refine map_flatMap_rename fun name hn => ?_
  have inside := subset_of_flatMap h hn
  simp [(hks name (inside (List.mem_cons_of_mem _ List.mem_cons_self))).2]

theorem NamesOfType.kinds_rename {d : NamesOfType} (h : d.kinds ⊆ ks) :
    (d.rename ρ).kinds.map (TokenKind.rename σ) = d.kinds := by
  simp only [NamesOfType.kinds, List.cons_subset] at h
  obtain ⟨htype, hfirst, hothers⟩ := h
  simp [NamesOfType.kinds, NamesOfType.rename, TypeName.kind_rename hks htype, (hks d.first hfirst).2,
    moreNameKinds_rename hks hothers]

theorem ClassVariables.kinds_rename {d : ClassVariables} (h : d.kinds ⊆ ks) :
    (d.rename ρ).kinds.map (TokenKind.rename σ) = d.kinds := by
  simp only [ClassVariables.kinds, List.cons_append, List.cons_subset, List.append_subset] at h
  simp [ClassVariables.kinds, ClassVariables.rename, NamesOfType.kinds_rename hks h.2.1]

theorem localKinds_rename {d : NamesOfType} (h : localKinds d ⊆ ks) :
    (localKinds (d.rename ρ)).map (TokenKind.rename σ) = localKinds d := by
  simp only [localKinds, List.cons_append, List.cons_subset, List.append_subset] at h
  simp [localKinds, NamesOfType.kinds_rename hks h.2.1]

namespace Parameter

theorem kinds_rename {p : Parameter} (h : p.kinds ⊆ ks) :
    (p.rename ρ).kinds.map (TokenKind.rename σ) = p.kinds := by
  simp only [kinds, List.cons_subset] at h
  simp [kinds, rename, TypeName.kind_rename hks h.1, (hks p.name h.2.1).2]

theorem listKinds_rename {ps : List Parameter} (h : listKinds ps ⊆ ks) :
    (listKinds (ps.map (rename ρ))).map (TokenKind.rename σ) = listKinds ps := by
  cases ps with
  | nil => rfl
  | cons p ps =>
    rw [listKinds, List.append_subset] at h
    have others : (moreKinds (ps.map (rename ρ))).map (TokenKind.rename σ) = moreKinds ps := by
      refine map_flatMap_rename fun p hp => ?_
      have inside := List.Subset.trans (List.subset_cons_self _ _) (subset_of_flatMap h.2 hp)
      rw [List.map_cons, kinds_rename hks inside, TokenKind.rename_symbol]
    rw [List.map_cons, listKinds, List.map_append, kinds_rename hks h.1, others, listKinds]

end Parameter

namespace Subroutine

variable {s : Subroutine}

theorem resultType_rename (h : s.kinds ⊆ ks) :
    (s.resultType.elim (.keyword .void) TypeName.kind).rename σ =
      s.resultType.elim (.keyword .void) TypeName.kind := by
  obtain ⟨hresult, -⟩ := subset_of_kinds h
  cases ht : s.resultType with
  | none => rfl
  | some t =>
    rw [ht] at hresult
    exact TypeName.kind_rename hks hresult

theorem kinds_rename (h : s.kinds ⊆ ks) : (s.rename ρ).kinds.map (TokenKind.rename σ) = s.kinds := by
  obtain ⟨-, hname, hparameters, hlocals, hbody⟩ := subset_of_kinds h
  have locals := map_flatMap_rename (g := NamesOfType.rename ρ) fun d hd =>
    localKinds_rename hks (subset_of_flatMap hlocals hd)
  simp [kinds, kindsFromName, braced, rename, resultType_rename hks h, (hks s.name hname).1,
    Parameter.listKinds_rename hks hparameters, locals, block_kinds_rename hks s.body hbody]

theorem kinds_renameUses (h : s.kinds ⊆ ks) : (s.renameUses ρ).kinds.map (TokenKind.rename σ) = s.kinds := by
  obtain ⟨-, hname, hparameters, hlocals, hbody⟩ := subset_of_kinds h
  simp [kinds, kindsFromName, braced, renameUses, resultType_rename hks h, (hks s.name hname).1,
    hks.map_rename hparameters, hks.map_rename hlocals, block_kinds_rename hks s.body hbody]

end Subroutine

end

/-! ## A class -/

/-- Lists whose items are related one by one: those that are put together from them are the same. -/
theorem flatMap_eq_of_forall₂ {α β γ : Type} {f : α → List γ} {g : β → List γ} {xs : List α} {ys : List β}
    (h : List.Forall₂ (fun x y => g y = f x) xs ys) : ys.flatMap g = xs.flatMap f := by
  induction h with
  | nil => rfl
  | cons hxy _ ih => rw [List.flatMap_cons, List.flatMap_cons, hxy, ih]

/-- One item of a list is replaced, and the others are related to themselves. -/
theorem forall₂_modify {α : Type} {R : α → α → Prop} {f : α → α} {xs : List α} {n : Nat}
    (hf : ∀ x, xs[n]? = some x → R x (f x)) (h : ∀ x ∈ xs, R x x) : List.Forall₂ R xs (xs.modify n f) := by
  induction xs generalizing n with
  | nil =>
    rw [List.modify_nil]
    exact .nil
  | cons x xs ih =>
    obtain ⟨hx, hxs⟩ := List.forall_mem_cons.mp h
    cases n with
    | zero => exact .cons (hf x rfl) (List.forall₂_same.mpr hxs)
    | succ n => exact .cons hx (ih hf hxs)

namespace ClassDeclaration

variable {c : ClassDeclaration} {x y : String}

theorem undone_renamed {ks : List TokenKind} (hy : .identifier y ∉ ks) : Undone (renamed x y) (renamed y x) ks := by
  intro name hn
  have other : name ≠ y := by
    rintro rfl
    exact hy hn
  exact ⟨renamed_of_ne x other, renamed_renamed other⟩

/-- A new name that is read as the old one again is found nowhere but in place of the old one: the class is written as
before. -/
theorem kinds_rename (owner : ScopeOwner) (hy : .identifier y ∉ c.kinds) :
    (c.rename x y owner).kinds.map (TokenKind.rename (renamed y x)) = c.kinds := by
  have hks : Undone (renamed x y) (renamed y x) c.kinds := undone_renamed hy
  have same (s : Subroutine) (hs : s ∈ c.subroutines) : s.kinds.map (TokenKind.rename (renamed y x)) = s.kinds :=
    hks.map_rename (kinds_subset_of_mem_subroutines hs)
  have name : (TokenKind.identifier c.name).rename (renamed y x) = .identifier c.name :=
    congrArg TokenKind.identifier (hks c.name (List.mem_cons_of_mem _ List.mem_cons_self)).1
  cases owner with
  | «class» =>
    have declarations := map_flatMap_rename (g := ClassVariables.rename (renamed x y)) fun d hd =>
      ClassVariables.kinds_rename hks (kinds_subset_of_mem_declarations hd)
    have subroutines := map_flatMap_rename (g := Subroutine.renameOuter x y) (f := Subroutine.kinds) fun s hs => by
      rw [Subroutine.renameOuter]
      split
      · exact same s hs
      · exact Subroutine.kinds_renameUses hks (kinds_subset_of_mem_subroutines hs)
    simp [kinds, braced, rename, name, declarations, subroutines]
  | subroutine number =>
    have declarations : (c.declarations.flatMap ClassVariables.kinds).map (TokenKind.rename (renamed y x)) =
        c.declarations.flatMap ClassVariables.kinds := by
      rw [List.map_flatMap]
      exact List.flatMap_congr fun d hd => hks.map_rename (kinds_subset_of_mem_declarations hd)
    have subroutines : ((c.subroutines.modify number (Subroutine.rename (renamed x y))).flatMap Subroutine.kinds).map
        (TokenKind.rename (renamed y x)) = c.subroutines.flatMap Subroutine.kinds := by
      rw [List.map_flatMap]
      refine flatMap_eq_of_forall₂ (forall₂_modify (fun s hs => ?_) same)
      exact Subroutine.kinds_rename hks (kinds_subset_of_mem_subroutines (List.mem_of_getElem? hs))
    simp [kinds, braced, rename, name, declarations, subroutines, - TokenKind.rename_identifier]

end ClassDeclaration

end JackCompiler
