import JackCompiler.Proofs.Generation.Acceptance
import JackCompiler.Proofs.Grammar.Viable
import Mathlib.Data.List.Nodup

/-!
# Where names are declared

Two kinds of step change what a scope holds: a variable is declared, or a subroutine begins. A tree tells which of them a
walk comes to, and how many tokens stand before each declared name (`Naming`); with the tokens at hand this is the place of
the declaration. Main statement: `scoping_readClass`, for tokens that spell a class.
-/

namespace JackCompiler

/-! ## Walks in parts -/

/-- A walk that had gone through other steps before. -/
def Walk.after (before : Array Step) (walk : Walk) : Walk :=
  { walk with steps := before ++ walk.steps }

/-- A walk that goes on where it ended, unless it was stopped. -/
def Walk.andThen (walk : Walk) (next : Array Step → List Token → Walk) : Walk :=
  match walk.outcome with
  | .ok rest => next walk.steps rest
  | .error e => ⟨walk.steps, .error e⟩

section

variable {last : Position} {goals others : List Goal} {tokens rest : List Token} {steps steps' before : Array Step}

/-- The steps before a walk are handed on as they are. -/
theorem walkFrom_after : walkFrom last goals tokens (before ++ steps) = (walkFrom last goals tokens steps).after before := by
  induction goals, tokens, steps using walkFrom.induct with
  | case1 tokens steps => simp [Walk.after]
  | case2 tokens steps goal goals step h ih => rw [walkFrom_of_emit h, walkFrom_of_emit h, ← ih, Array.append_push]
  | case3 tokens steps goal goals new h _ ih => rw [walkFrom_of_expand h, walkFrom_of_expand h, ih]
  | case4 tokens steps goal goals new h _ _ _ _ ih =>
    cases tokens with
    | nil => exact absurd h (goal.move_none_ne_take new)
    | cons token tokens =>
      rw [List.tail_cons] at ih
      rw [walkFrom_of_take h, walkFrom_of_take h, ih]
  | case5 tokens steps goal goals expected h => rw [walkFrom_of_fail h, walkFrom_of_fail h, Walk.after]

/-- A walk with goals one after another is a walk with the first, and from where it ends one with the others. -/
theorem walkFrom_append_eq :
    walkFrom last (goals ++ others) tokens steps =
      (walkFrom last goals tokens steps).andThen fun steps rest => walkFrom last others rest steps := by
  induction goals, tokens, steps using walkFrom.induct with
  | case1 tokens steps =>
    rw [walkFrom_nil]
    rfl
  | case2 tokens steps goal goals step hm ih => rw [List.cons_append, walkFrom_of_emit hm, walkFrom_of_emit hm, ih]
  | case3 tokens steps goal goals new hm _ ih =>
    rw [List.cons_append, walkFrom_of_expand hm, walkFrom_of_expand hm, ← List.append_assoc, ih]
  | case4 tokens steps goal goals new hm _ _ _ _ ih =>
    cases tokens with
    | nil => exact absurd hm (goal.move_none_ne_take new)
    | cons token tokens =>
      rw [List.tail_cons] at ih
      rw [List.cons_append, walkFrom_of_take hm, walkFrom_of_take hm, ← List.append_assoc, ih]
  | case5 tokens steps goal goals expected hm =>
    rw [List.cons_append, walkFrom_of_fail hm, walkFrom_of_fail hm]
    rfl

/-- A walk that meets its goals goes on with the goals after them. -/
theorem walkFrom_append (h : walkFrom last goals tokens steps = ⟨steps', .ok rest⟩) :
    walkFrom last (goals ++ others) tokens steps = walkFrom last others rest steps' := by
  rw [walkFrom_append_eq, h]
  rfl

/-- A walk that is stopped would be stopped as well with more goals behind. -/
theorem walkFrom_append_of_error {e : GrammarError} (h : walkFrom last goals tokens steps = ⟨steps', .error e⟩) :
    walkFrom last (goals ++ others) tokens steps = ⟨steps', .error e⟩ := by
  rw [walkFrom_append_eq, h]
  rfl

end

/-! ## Steps that change a scope -/

/-- Whether a step changes what a scope holds. -/
def Step.isScoping : Step → Bool
  | .declare .. | .beginSubroutine _ => true
  | _ => false

@[simp] theorem Step.isScoping_relocate (f : Position → Position) (step : Step) :
    (step.relocate f).isScoping = step.isScoping := by
  cases step <;> rfl

/-- The steps of a walk that change what a scope holds. -/
def scoping (last : Position) (goals : List Goal) (tokens : List Token) : List Step :=
  (walkFrom last goals tokens #[]).steps.toList.filter Step.isScoping

section

variable {last : Position} {goal : Goal} {goals new : List Goal} {token : Token} {tokens rest : List Token}

/-- What a walk comes to after some steps. -/
theorem filter_walkFrom (steps : Array Step) :
    (walkFrom last goals tokens steps).steps.toList.filter Step.isScoping =
      steps.toList.filter Step.isScoping ++ scoping last goals tokens := by
  have whole : walkFrom last goals tokens (steps ++ #[]) = (walkFrom last goals tokens #[]).after steps := walkFrom_after
  rw [Array.append_empty] at whole
  simp [whole, Walk.after, scoping]

@[simp] theorem scoping_nil : scoping last [] tokens = [] := by
  simp [scoping]

@[simp] theorem scoping_emit (step : Step) :
    scoping last (.emit step :: goals) tokens = [step].filter Step.isScoping ++ scoping last goals tokens := by
  rw [scoping, walkFrom_emit, filter_walkFrom]
  simp

@[simp] theorem scoping_symbol (c : Char) (p : Position) :
    scoping last (.symbol c :: goals) (⟨.symbol c, p⟩ :: tokens) = scoping last goals tokens := by
  rw [scoping, walkFrom_symbol, scoping]

/-- The beginning and the end of a rule change no scope. -/
@[simp] theorem scoping_within (rule : Rule) (inner : List Goal) :
    scoping last (Goal.within rule inner ++ goals) tokens =
      scoping last (inner ++ .emit (.leave rule) :: goals) tokens := by
  simp [Goal.within, Step.isScoping]

theorem scoping_of_take (h : goal.move (some token) = .take new) :
    scoping last (goal :: goals) (token :: tokens) = scoping last (new ++ goals) tokens := by
  rw [scoping, walkFrom_of_take h, scoping]

theorem scoping_of_expand (h : goal.move tokens.head? = .expand new) :
    scoping last (goal :: goals) tokens = scoping last (new ++ goals) tokens := by
  rw [scoping, walkFrom_of_expand h, scoping]

end

/-! ## Tokens at places -/

/-- Tokens of the given kinds at the places from number `n` on. -/
def placed (place : Nat → Position) (n : Nat) : List TokenKind → List Token
  | [] => []
  | kind :: kinds => ⟨kind, place n⟩ :: placed place (n + 1) kinds

/-- The place of a token of a list, by the number of tokens before it. -/
def placeIn (tokens : List Token) (n : Nat) : Position :=
  tokens[n]?.elim .nowhere (·.position)

section

variable (place : Nat → Position) (n : Nat)

@[simp] theorem placed_nil : placed place n [] = [] := rfl

@[simp] theorem placed_cons (kind : TokenKind) (kinds : List TokenKind) :
    placed place n (kind :: kinds) = ⟨kind, place n⟩ :: placed place (n + 1) kinds := rfl

@[simp] theorem placed_append (kinds others : List TokenKind) :
    placed place n (kinds ++ others) = placed place n kinds ++ placed place (n + kinds.length) others := by
  induction kinds generalizing n with
  | nil => rfl
  | cons kind kinds ih =>
    rw [List.cons_append, placed_cons, ih, placed_cons, List.cons_append, List.length_cons, Nat.add_right_comm,
      Nat.add_assoc]

@[simp] theorem map_relocate_placed (kinds : List TokenKind) :
    (placed place n kinds).map (Token.relocate fun _ => .nowhere) = unplaced kinds := by
  induction kinds generalizing n with
  | nil => rfl
  | cons kind kinds ih => rw [placed_cons, List.map_cons, ih, unplaced_cons, Token.relocate]

end

/-- Tokens stand where they stand. -/
theorem placed_placeIn (tokens : List Token) : placed (placeIn tokens) 0 (tokens.map (·.kind)) = tokens := by
  suffices ∀ before, placed (placeIn (before ++ tokens)) before.length (tokens.map (·.kind)) = tokens from this []
  intro before
  induction tokens generalizing before with
  | nil => rfl
  | cons token tokens ih =>
    have later := ih (before ++ [token])
    rw [List.append_assoc, List.singleton_append, List.length_append, List.length_singleton] at later
    rw [List.map_cons, placed_cons, later, placeIn]
    simp

/-! ## Declarations and the tokens before their names -/

/-- A declaration, with the number of tokens before its name. -/
structure Naming where
  declaration : Declaration
  token : Nat

/-- The step of a declaration. -/
def Naming.step (place : Nat → Position) (d : Naming) : Step :=
  .declare d.declaration.kind d.declaration.type d.declaration.name (place d.token)

/-- What parts one after another amount to, each by the number of tokens before it. -/
def along {α β : Type} (kinds : α → List TokenKind) (f : Nat → α → List β) : Nat → List α → List β
  | _, [] => []
  | n, a :: as => f n a ++ along kinds f (n + (kinds a).length) as

/-- The namings of a type and its names, by the number of tokens before the type. -/
def NamesOfType.namings (kind : VariableKind) (n : Nat) (d : NamesOfType) : List Naming :=
  ⟨⟨kind, d.type.name, d.first⟩, n + 1⟩ ::
    along (fun name => [.symbol ',', .identifier name]) (fun n name => [⟨⟨kind, d.type.name, name⟩, n + 1⟩]) (n + 2)
      d.others

/-- The namings of a declaration of variables of the class, by the number of tokens before it. -/
def ClassVariables.namings (n : Nat) (d : ClassVariables) : List Naming :=
  d.names.namings d.kind.kind (n + 1)

/-- The namings of a declaration of locals, by the number of tokens before it. -/
def localNamings (n : Nat) (d : NamesOfType) : List Naming :=
  d.namings .«local» (n + 1)

/-- The namings of parameters, by the number of tokens before them. -/
def Parameter.namings (n : Nat) : List Parameter → List Naming
  | [] => []
  | p :: ps =>
    ⟨p.declaration, n + 1⟩ :: along (fun p => .symbol ',' :: p.kinds) (fun n p => [⟨p.declaration, n + 2⟩]) (n + 2) ps

/-- The namings of a subroutine, by the number of tokens before it. -/
def Subroutine.namings (n : Nat) (s : Subroutine) : List Naming :=
  Parameter.namings (n + 4) s.parameters ++
    along localKinds localNamings (n + 6 + (Parameter.listKinds s.parameters).length) s.locals

/-- The steps of a subroutine that change a scope. -/
def Subroutine.scoping (place : Nat → Position) (n : Nat) (s : Subroutine) : List Step :=
  .beginSubroutine s.kind :: (s.namings n).map (Naming.step place)

/-- The namings of the variables of a class. -/
def ClassDeclaration.namings (c : ClassDeclaration) : List Naming :=
  along ClassVariables.kinds ClassVariables.namings 3 c.declarations

/-- The number of tokens before the subroutines of a class. -/
def ClassDeclaration.tokensBefore (c : ClassDeclaration) : Nat :=
  3 + (c.declarations.flatMap ClassVariables.kinds).length

/-- The steps of a class that change a scope. -/
def ClassDeclaration.scoping (place : Nat → Position) (c : ClassDeclaration) : List Step :=
  c.namings.map (Naming.step place) ++ along Subroutine.kinds (Subroutine.scoping place) c.tokensBefore c.subroutines

section

variable {α β γ : Type} (kinds : α → List TokenKind) (f : Nat → α → List β) (n : Nat) (as : List α)

theorem map_along (g : β → γ) : (along kinds f n as).map g = along kinds (fun n a => (f n a).map g) n as := by
  induction as generalizing n with
  | nil => rfl
  | cons a as ih => rw [along, List.map_append, ih, along]

theorem flatMap_along (g : β → List γ) :
    (along kinds f n as).flatMap g = along kinds (fun n a => (f n a).flatMap g) n as := by
  induction as generalizing n with
  | nil => rfl
  | cons a as ih => rw [along, List.flatMap_append, ih, along]

/-- What parts amount to wherever they stand. -/
theorem along_const (f : α → List β) : along kinds (fun _ a => f a) n as = as.flatMap f := by
  induction as generalizing n with
  | nil => rfl
  | cons a as ih => rw [along, ih, List.flatMap_cons]

variable {kinds f n as} in
/-- What parts amount to comes from some part. -/
theorem exists_of_mem_along {b : β} (h : b ∈ along kinds f n as) : ∃ k, ∃ a ∈ as, b ∈ f k a := by
  induction as generalizing n with
  | nil => cases h
  | cons a as ih =>
    rcases List.mem_append.mp h with h | h
    · exact ⟨n, a, List.mem_cons_self, h⟩
    · obtain ⟨k, a', ha, hb⟩ := ih h
      exact ⟨k, a', List.mem_cons_of_mem a ha, hb⟩

end

/-! ## What a tree declares -/

/-- The names of a type are declared in their order. -/
theorem NamesOfType.declarations_eq (kind : VariableKind) (n : Nat) (d : NamesOfType) :
    (d.namings kind n).map Naming.declaration = d.declarations kind := by
  rw [namings, List.map_cons, map_along]
  have others := along_const (fun name => [.symbol ',', .identifier name]) (n + 2) d.others
    fun name => [(⟨kind, d.type.name, name⟩ : Declaration)]
  rw [declarations, names, List.map_cons, List.map_eq_flatMap, ← others]
  rfl

theorem Parameter.declarations_eq (n : Nat) (ps : List Parameter) :
    (Parameter.namings n ps).map Naming.declaration = ps.map Parameter.declaration := by
  cases ps with
  | nil => rfl
  | cons p ps =>
    have others := along_const (fun p => .symbol ',' :: p.kinds) (n + 2) ps fun p => [p.declaration]
    rw [namings, List.map_cons, map_along, List.map_cons, List.map_eq_flatMap (l := ps), ← others]
    rfl

/-- The scope of a subroutine is what its head and its locals declare after its implicit argument. -/
theorem Subroutine.scope_eq (className : String) (n : Nat) (s : Subroutine) :
    s.scope className = s.implicit className ++ (s.namings n).map Naming.declaration := by
  simp only [scope, namings, List.map_append, map_along, Parameter.declarations_eq, localNamings,
    NamesOfType.declarations_eq, along_const, List.append_assoc]

/-- The scope of a class is what its declarations declare. -/
theorem ClassDeclaration.scope_eq (c : ClassDeclaration) : c.scope = c.namings.map Naming.declaration := by
  simp only [scope, namings, map_along, ClassVariables.namings, NamesOfType.declarations_eq, along_const]

/-! ## The scopes of a class -/

/-- The names that a scope holds before any is declared: a method has its object as an argument. -/
def SubroutineKind.implicitNames : SubroutineKind → List String
  | .method => ["this"]
  | .constructor | .function => []

/-- A scope of a class, with what is declared in it by name: that of one of its subroutines, or its own. -/
structure NamedScope where
  subroutine? : Option SubroutineKind
  namings : List Naming

namespace NamedScope

/-- The names that a scope holds from its beginning. -/
def implicitNames (s : NamedScope) : List String :=
  s.subroutine?.elim [] SubroutineKind.implicitNames

/-- The names of a scope in the order of their declarations. -/
def names (s : NamedScope) : List String :=
  s.implicitNames ++ s.namings.map (·.declaration.name)

/-- The steps of a scope that change it. -/
def steps (place : Nat → Position) (s : NamedScope) : List Step :=
  (s.subroutine?.map Step.beginSubroutine).toList ++ s.namings.map (Naming.step place)

end NamedScope

/-- The scopes of a class in the order of the text: its own, and those of its subroutines. -/
def ClassDeclaration.scopes (c : ClassDeclaration) : List NamedScope :=
  ⟨none, c.namings⟩ :: along Subroutine.kinds (fun n s => [⟨some s.kind, s.namings n⟩]) c.tokensBefore c.subroutines

theorem NamedScope.nodup_implicitNames (s : NamedScope) : s.implicitNames.Nodup := by
  rcases s with ⟨- | kind, ds⟩
  · exact List.nodup_nil
  · cases kind
    · exact List.nodup_nil
    · exact List.nodup_nil
    · exact List.nodup_singleton _

/-- A scope declares variables of its own kinds only. -/
def NamedScope.Fits (s : NamedScope) : Prop :=
  ∀ d ∈ s.namings, d.declaration.kind.isOfClass = s.subroutine?.isNone

namespace ClassDeclaration

variable (c : ClassDeclaration)

/-- Scope after scope, the tree tells which steps change the scopes. -/
theorem scoping_eq_flatMap (place : Nat → Position) :
    c.scoping place = c.scopes.flatMap (NamedScope.steps place) := by
  rw [scopes, List.flatMap_cons, flatMap_along]
  simp only [List.flatMap_singleton]
  rfl

theorem fits_of_mem_scopes : ∀ s ∈ c.scopes, s.Fits := by
  rw [scopes, List.forall_mem_cons]
  constructor
  · intro x hx
    have declared : x.declaration ∈ c.scope := by
      rw [c.scope_eq]
      exact List.mem_map_of_mem hx
    obtain ⟨d, -, hd⟩ := List.mem_flatMap.mp declared
    obtain ⟨name, -, hname⟩ := List.mem_map.mp hd
    rw [← hname]
    cases d.kind <;> rfl
  · intro scope hscope x hx
    obtain ⟨n, s, -, hs⟩ := exists_of_mem_along hscope
    rw [List.mem_singleton.mp hs] at hx ⊢
    have declared : x.declaration ∈ (s.namings n).map Naming.declaration := List.mem_map_of_mem hx
    simp only [Subroutine.namings, List.map_append, map_along, Parameter.declarations_eq, localNamings,
      NamesOfType.declarations_eq, along_const, List.mem_append, List.mem_map, List.mem_flatMap] at declared
    rcases declared with ⟨p, -, hp⟩ | ⟨d, -, hd⟩
    · rw [← hp]
      rfl
    · obtain ⟨name, -, hname⟩ := List.mem_map.mp hd
      rw [← hname]
      rfl

/-- The scopes of a class hold what its tree declares in them. -/
theorem names_scopes :
    c.scopes.map NamedScope.names = c.scope.map (·.name) :: c.subroutines.map fun s => (s.scope c.name).map (·.name) := by
  have implicit (s : Subroutine) : s.kind.implicitNames = (s.implicit c.name).map (·.name) := by
    unfold Subroutine.implicit
    cases s.kind <;> rfl
  have names (n : Nat) (s : Subroutine) :
      NamedScope.names ⟨some s.kind, s.namings n⟩ = (s.scope c.name).map (·.name) := by
    rw [s.scope_eq c.name n, List.map_append, List.map_map, ← implicit]
    rfl
  rw [scopes, List.map_cons, map_along, c.scope_eq, List.map_map, List.map_eq_flatMap (l := c.subroutines)]
  simp only [List.map_cons, List.map_nil, names, along_const]
  rfl

end ClassDeclaration

/-! ## Names are tokens -/

/-- The names of declarations stand where these say among tokens of the given kinds, the first of which is number `n`. -/
def Stand (kinds : List TokenKind) (n : Nat) (ds : List Naming) : Prop :=
  ∀ d ∈ ds, ∃ i, d.token = n + i ∧ kinds[i]? = some (.identifier d.declaration.name)

namespace Stand

variable {kind : TokenKind} {kinds others : List TokenKind} {n : Nat} {ds ds' : List Naming}

theorem nil : Stand kinds n [] := by
  intro d hd
  cases hd

theorem of_eq {m : Nat} (h : Stand kinds m ds) (hm : m = n) : Stand kinds n ds := by
  rwa [← hm]

theorem cons (h : Stand kinds (n + 1) ds) : Stand (kind :: kinds) n ds := by
  intro d hd
  obtain ⟨i, hi, hk⟩ := h d hd
  exact ⟨i + 1, by omega, hk⟩

theorem left (h : Stand kinds n ds) : Stand (kinds ++ others) n ds := by
  intro d hd
  obtain ⟨i, hi, hk⟩ := h d hd
  obtain ⟨hlt, -⟩ := List.getElem?_eq_some_iff.mp hk
  exact ⟨i, hi, by rw [List.getElem?_append_left hlt, hk]⟩

theorem right (h : Stand others (n + kinds.length) ds) : Stand (kinds ++ others) n ds := by
  induction kinds generalizing n with
  | nil => exact h
  | cons kind kinds ih =>
    rw [List.length_cons, Nat.add_comm kinds.length, ← Nat.add_assoc] at h
    exact (ih h).cons

theorem append (h : Stand kinds n ds) (h' : Stand kinds n ds') : Stand kinds n (ds ++ ds') := by
  intro d hd
  rcases List.mem_append.mp hd with hd | hd
  · exact h d hd
  · exact h' d hd

/-- A name is the first token. -/
theorem first (d : Declaration) : Stand (.identifier d.name :: kinds) n [⟨d, n⟩] := by
  intro d' hd
  rw [List.mem_singleton.mp hd]
  exact ⟨0, rfl, rfl⟩

theorem along {α : Type} {kinds : α → List TokenKind} {f : Nat → α → List Naming} (h : ∀ n a, Stand (kinds a) n (f n a))
    (n : Nat) (as : List α) : Stand (as.flatMap kinds) n (along kinds f n as) := by
  induction as generalizing n with
  | nil => exact nil
  | cons a as ih => exact (h n a).left.append (ih _).right

end Stand

theorem NamesOfType.stand (kind : VariableKind) (n : Nat) (d : NamesOfType) : Stand d.kinds n (d.namings kind n) := by
  have first : Stand d.kinds n [⟨⟨kind, d.type.name, d.first⟩, n + 1⟩] := (Stand.first _).cons
  have other (n : Nat) (name : String) :
      Stand [.symbol ',', .identifier name] n [⟨⟨kind, d.type.name, name⟩, n + 1⟩] :=
    (Stand.first ⟨kind, d.type.name, name⟩).cons
  exact first.append (Stand.along other (n + 2) d.others).cons.cons

theorem Parameter.stand (n : Nat) (ps : List Parameter) : Stand (Parameter.listKinds ps) n (Parameter.namings n ps) := by
  cases ps with
  | nil => exact .nil
  | cons p ps =>
    have first : Stand (Parameter.listKinds (p :: ps)) n [⟨p.declaration, n + 1⟩] := (Stand.first p.declaration).cons
    have other (n : Nat) (p : Parameter) : Stand (.symbol ',' :: p.kinds) n [⟨p.declaration, n + 2⟩] :=
      (Stand.first p.declaration).cons.cons
    exact first.append (Stand.along other (n + 2) ps).cons.cons

theorem Subroutine.stand (n : Nat) (s : Subroutine) : Stand s.kinds n (s.namings n) := by
  have parameters : Stand s.kinds n (Parameter.namings (n + 4) s.parameters) :=
    (Parameter.stand (n + 4) s.parameters).left.cons.cons.cons.cons
  have declaration (n : Nat) (d : NamesOfType) : Stand (localKinds d) n (localNamings n d) :=
    (d.stand .«local» (n + 1)).left.cons
  have locals : Stand s.kinds n
      (along localKinds localNamings (n + 6 + (Parameter.listKinds s.parameters).length) s.locals) := by
    have inner := (Stand.along declaration (n + 6 + (Parameter.listKinds s.parameters).length) s.locals).of_eq
      (show _ = n + 4 + (Parameter.listKinds s.parameters).length + 1 + 1 by omega)
    exact (Stand.right inner.left.left.cons.cons).cons.cons.cons.cons
  exact parameters.append locals

/-- The names of a class stand where its scopes say. -/
theorem ClassDeclaration.stand (c : ClassDeclaration) : ∀ s ∈ c.scopes, Stand c.kinds 0 s.namings := by
  have declaration (n : Nat) (d : ClassVariables) : Stand d.kinds n (d.namings n) :=
    (d.names.stand d.kind.kind (n + 1)).left.cons
  have subroutines := Stand.along Subroutine.stand c.tokensBefore c.subroutines
  rw [scopes, List.forall_mem_cons]
  constructor
  · have inner : Stand (c.declarations.flatMap ClassVariables.kinds) 3 c.namings := .along declaration 3 c.declarations
    exact inner.left.left.cons.cons.cons
  · intro scope hscope d hd
    have inner : Stand c.kinds 0 (along Subroutine.kinds (fun n s => s.namings n) c.tokensBefore c.subroutines) :=
      (Stand.right subroutines).left.cons.cons.cons
    refine inner d ?_
    have all : (along Subroutine.kinds (fun n s => [NamedScope.mk (some s.kind) (s.namings n)]) c.tokensBefore
        c.subroutines).flatMap NamedScope.namings =
          along Subroutine.kinds (fun n s => s.namings n) c.tokensBefore c.subroutines := by
      rw [flatMap_along]
      simp only [List.flatMap_singleton]
    rw [← all]
    exact List.mem_flatMap.mpr ⟨scope, hscope, hd⟩

/-! ## Walks through declarations -/

section

variable {last : Position} {place : Nat → Position} {goals : List Goal} {rest : List Token}

/-- Parts of one form are walked through one after another when each of them leads back to their goal. -/
theorem scoping_along {α : Type} {goal : Goal} {kinds : α → List TokenKind} {parts : Nat → α → List Step}
    (h : ∀ (n : Nat) (a : α) (rest : List Token), scoping last (goal :: goals) (placed place n (kinds a) ++ rest) =
      parts n a ++ scoping last (goal :: goals) rest) (n : Nat) (as : List α) :
    scoping last (goal :: goals) (placed place n (as.flatMap kinds) ++ rest) =
      along kinds parts n as ++ scoping last (goal :: goals) rest := by
  induction as generalizing n with
  | nil => rfl
  | cons a as ih => rw [List.flatMap_cons, placed_append, List.append_assoc, h, ih, along, List.append_assoc]

theorem scoping_moreName (kind : VariableKind) (type : String) (n : Nat) (name : String) (rest : List Token) :
    scoping last (.moreNames kind type :: goals) (placed place n [.symbol ',', .identifier name] ++ rest) =
      [.declare kind type name (place (n + 1))] ++ scoping last (.moreNames kind type :: goals) rest := by
  rw [placed_cons, placed_cons, placed_nil, List.cons_append, scoping_of_take rfl, List.singleton_append,
    List.singleton_append, scoping_of_take rfl]
  simp only [List.cons_append, List.nil_append, scoping_emit]
  rfl

/-- A type and its names up to the semicolon. -/
theorem NamesOfType.scoping_eq (kind : VariableKind) (n : Nat) (d : NamesOfType) {p : Position} :
    scoping last (.typedNames kind :: goals) (placed place n d.kinds ++ ⟨.symbol ';', p⟩ :: rest) =
      (d.namings kind n).map (Naming.step place) ++ scoping last goals (⟨.symbol ';', p⟩ :: rest) := by
  rw [kinds, placed_cons, List.cons_append, scoping_of_take (typedNames_move kind d.type _), List.singleton_append,
    placed_cons, List.cons_append, scoping_of_take rfl, moreNameKinds]
  simp only [List.cons_append, List.nil_append, scoping_emit]
  rw [scoping_along (scoping_moreName kind d.type.name), scoping_of_expand rfl, List.nil_append, namings,
    List.map_cons, map_along]
  rfl

/-- A declaration of variables of the class. -/
theorem ClassVariables.scoping_eq (n : Nat) (d : ClassVariables) (rest : List Token) :
    scoping last (.classVariables :: goals) (placed place n d.kinds ++ rest) =
      (d.namings n).map (Naming.step place) ++ scoping last (.classVariables :: goals) rest := by
  have hm (p : Position) : Goal.classVariables.move (some ⟨.keyword d.kind.keyword, p⟩) =
      .take (Goal.within .classVarDec [.typedNames d.kind.kind, .symbol ';'] ++ [.classVariables]) := by
    cases d.kind <;> rfl
  simp only [kinds, placed_cons, placed_append, placed_nil, List.append_assoc, List.cons_append, List.nil_append]
  rw [scoping_of_take (hm _)]
  simp only [List.append_assoc, scoping_within, List.cons_append, List.nil_append]
  rw [NamesOfType.scoping_eq]
  simp [Step.isScoping, namings]

/-- A declaration of locals. -/
theorem scoping_locals (n : Nat) (d : NamesOfType) (rest : List Token) :
    scoping last (.locals :: goals) (placed place n (localKinds d) ++ rest) =
      (localNamings n d).map (Naming.step place) ++ scoping last (.locals :: goals) rest := by
  simp only [localKinds, placed_cons, placed_append, placed_nil, List.append_assoc, List.cons_append, List.nil_append]
  rw [scoping_of_take rfl]
  simp only [List.append_assoc, scoping_within, List.cons_append, List.nil_append]
  rw [NamesOfType.scoping_eq]
  simp [Step.isScoping, localNamings]

theorem scoping_moreParameter (n : Nat) (p : Parameter) (rest : List Token) :
    scoping last (.moreParameters :: goals) (placed place n (.symbol ',' :: p.kinds) ++ rest) =
      [Naming.step place ⟨p.declaration, n + 2⟩] ++ scoping last (.moreParameters :: goals) rest := by
  rw [placed_cons, Parameter.kinds, placed_cons, placed_cons, placed_nil, List.cons_append, scoping_of_take rfl,
    List.singleton_append, List.cons_append, scoping_of_take (parameter_move p.type _), List.singleton_append,
    List.singleton_append, scoping_of_take rfl]
  simp only [List.cons_append, List.nil_append, scoping_emit]
  rfl

/-- The parameters of a subroutine up to the parenthesis. -/
theorem scoping_parameters (n : Nat) (ps : List Parameter) {p : Position} :
    scoping last (.parameters :: goals) (placed place n (Parameter.listKinds ps) ++ ⟨.symbol ')', p⟩ :: rest) =
      (Parameter.namings n ps).map (Naming.step place) ++ scoping last goals (⟨.symbol ')', p⟩ :: rest) := by
  cases ps with
  | nil =>
    rw [Parameter.listKinds, placed_nil, List.nil_append, scoping_of_expand rfl]
    rfl
  | cons parameter ps =>
    have hm : Goal.parameters.move (some ⟨parameter.type.kind, place n⟩) = .expand [.parameter] := by
      cases parameter.type <;> rfl
    simp only [Parameter.listKinds, Parameter.kinds, placed_cons, List.cons_append, List.nil_append]
    rw [scoping_of_expand hm, List.singleton_append, scoping_of_take (parameter_move parameter.type _),
      List.singleton_append, scoping_of_take rfl, Parameter.moreKinds]
    simp only [List.cons_append, List.nil_append, scoping_emit]
    rw [scoping_along scoping_moreParameter, scoping_of_expand rfl, List.nil_append, Parameter.namings, List.map_cons,
      map_along]
    rfl

end

/-! ## Bodies -/

@[simp] theorem filter_during (rule : Rule) (steps : List Step) :
    (during rule steps).filter Step.isScoping = steps.filter Step.isScoping := by
  simp [during, Step.isScoping]

mutual

theorem Expression.filter_chainSteps (e : Expression) : e.chainSteps.filter Step.isScoping = [] := by
  cases e with
  | term t => rw [Expression.chainSteps, filter_during, t.filter_innerSteps]
  | binary left operator right =>
    rw [Expression.chainSteps, List.filter_append, List.filter_append, filter_during, left.filter_chainSteps,
      right.filter_innerSteps]
    rfl

theorem Term.filter_innerSteps (t : Term) : t.innerSteps.filter Step.isScoping = [] := by
  cases t with
  | integer | string | constant | «variable» => rfl
  | element name index => simp [Term.innerSteps, Step.isScoping, index.filter_chainSteps]
  | «call» callee arguments => simp [Term.innerSteps, Step.isScoping, filter_argumentSteps callee 0 arguments]
  | parenthesized inner => rw [Term.innerSteps, filter_during, inner.filter_chainSteps]
  | unary operator operand => simp [Term.innerSteps, Step.isScoping, operand.filter_innerSteps]

theorem filter_argumentSteps (callee : Callee) (count : Nat) (arguments : List Expression) :
    (argumentSteps callee count arguments).filter Step.isScoping = [] := by
  cases arguments with
  | nil => rfl
  | cons argument others =>
    rw [argumentSteps, List.filter_append, filter_during, argument.filter_chainSteps, List.nil_append,
      List.filter_cons_of_neg (by simp [Step.isScoping]), filter_argumentSteps callee (count + 1) others]

end

theorem Expression.filter_steps (e : Expression) : e.steps.filter Step.isScoping = [] := by
  rw [steps, filter_during, e.filter_chainSteps]

mutual

theorem Statement.filter_steps (s : Statement) : s.steps.filter Step.isScoping = [] := by
  cases s with
  | «let» name value => simp [Statement.steps, Step.isScoping, value.filter_steps]
  | letElement name index value => simp [Statement.steps, Step.isScoping, value.filter_steps, index.filter_steps]
  | «if» condition block => simp [Statement.steps, Step.isScoping, condition.filter_steps, filter_blockSteps block]
  | ifElse condition block elseBlock =>
    simp [Statement.steps, Step.isScoping, condition.filter_steps, filter_blockSteps block, filter_blockSteps elseBlock]
  | «while» condition block => simp [Statement.steps, Step.isScoping, condition.filter_steps, filter_blockSteps block]
  | «do» callee arguments => simp [Statement.steps, callSteps, Step.isScoping, filter_argumentSteps callee 0 arguments]
  | «return» value =>
    cases value with
    | none => rfl
    | some value => simp [Statement.steps, Step.isScoping, value.filter_steps]

/-- The steps of statements change no scope. -/
theorem filter_blockSteps (ss : List Statement) : (blockSteps ss).filter Step.isScoping = [] := by
  cases ss with
  | nil => rfl
  | cons s others => rw [blockSteps, List.filter_append, s.filter_steps, filter_blockSteps others, List.append_nil]

end

/-! ## Walks through subroutines and classes -/

section

variable {last : Position} {place : Nat → Position} {goals : List Goal} {rest : List Token}

/-- Statements up to the closing brace of their block. -/
theorem scoping_statements (n : Nat) (ss : List Statement) {p : Position} :
    scoping last (.statements :: goals) (placed place n (blockKinds ss) ++ ⟨.symbol '\x7d', p⟩ :: rest) =
      scoping last goals (⟨.symbol '\x7d', p⟩ :: rest) := by
  let away : Position → Position := fun _ => .nowhere
  let tokens := placed place n (blockKinds ss) ++ ⟨.symbol '\x7d', p⟩ :: rest
  -- the places are taken away, so that the walk through the tree applies, and what it comes to is read back
  have walk := walkFrom_relocate (f := away) last [.statements] tokens #[]
  have kinds : tokens.map (Token.relocate away) =
      unplaced (blockKinds ss) ++ ⟨.symbol '\x7d', .nowhere⟩ :: rest.map (Token.relocate away) := by
    simp [tokens, away, Token.relocate]
  rw [kinds, Array.map_empty] at walk
  have block : WalksBlock .nowhere ss := walk_statements ss
  have tree := block [] (rest.map (Token.relocate away)) #[]
  rw [walkFrom_nil] at tree
  rcases hw : walkFrom last [.statements] tokens #[] with ⟨steps, e | left⟩
  · rw [hw, Walk.relocate_error] at walk
    have same := congrArg Walk.outcome (tree.symm.trans walk)
    cases same
  · rw [hw, Walk.relocate_ok] at walk
    have same := tree.symm.trans walk
    rw [Walk.mk.injEq, Except.ok.injEq] at same
    have silent : steps.toList.filter Step.isScoping = [] := by
      have none : (steps.toList.map (Step.relocate away)).filter Step.isScoping = [] := by
        rw [← Array.toList_map, ← same.1, Array.toList_appendList, List.nil_append, filter_blockSteps]
      rw [List.filter_map, List.map_eq_nil_iff] at none
      rw [← none]
      exact List.filter_congr fun step _ => (step.isScoping_relocate away).symm
    have stops : left = ⟨.symbol '\x7d', p⟩ :: rest := by
      have suffix : left <:+ tokens := suffix_of_walkFrom (congrArg Walk.outcome hw)
      have length : left.length = (⟨.symbol '\x7d', p⟩ :: rest : List Token).length := by
        simpa using (congrArg List.length same.2).symm
      exact (List.suffix_of_suffix_length_le suffix (List.suffix_append _ _) (Nat.le_of_eq length)).eq_of_length length
    rw [scoping, ← List.singleton_append, walkFrom_append hw, filter_walkFrom, silent, stops, List.nil_append]

/-- The declarations of locals end where the statements begin. -/
theorem scoping_locals_end (n : Nat) (ss : List Statement) {p : Position} :
    scoping last (.locals :: goals) (placed place n (blockKinds ss) ++ ⟨.symbol '\x7d', p⟩ :: rest) =
      scoping last goals (placed place n (blockKinds ss) ++ ⟨.symbol '\x7d', p⟩ :: rest) := by
  have hm : Goal.locals.move (placed place n (blockKinds ss) ++ ⟨.symbol '\x7d', p⟩ :: rest).head? = .expand [] := by
    cases ss with
    | nil => rfl
    | cons s ss => cases s <;> rfl
  rw [scoping_of_expand hm, List.nil_append]

/-- A subroutine. -/
theorem Subroutine.scoping_eq (n : Nat) (s : Subroutine) (rest : List Token) :
    JackCompiler.scoping last (.subroutines :: goals) (placed place n s.kinds ++ rest) =
      s.scoping place n ++ JackCompiler.scoping last (.subroutines :: goals) rest := by
  have hm (p : Position) : Goal.subroutines.move (some ⟨.keyword s.kind.keyword, p⟩) =
      .take (Goal.within .subroutineDec [.resultType, .subroutine s.kind] ++ [.subroutines]) := by
    cases s.kind <;> rfl
  have hr (p : Position) :
      Goal.resultType.move (some ⟨s.resultType.elim (.keyword .void) TypeName.kind, p⟩) = .take [] := by
    rcases s.resultType with - | type
    · rfl
    · cases type <;> rfl
  simp only [kinds, kindsFromName, braced, placed_cons, placed_append, placed_nil, List.append_assoc, List.cons_append,
    List.nil_append]
  rw [scoping_of_take (hm _)]
  simp only [List.append_assoc, scoping_within, List.cons_append, List.nil_append]
  rw [scoping_of_take (hr _), List.nil_append, scoping_of_take rfl]
  simp only [List.append_assoc, List.cons_append, List.nil_append, scoping_emit, scoping_symbol, scoping_within]
  rw [scoping_parameters]
  simp only [scoping_emit, scoping_symbol, scoping_within, List.append_assoc, List.cons_append, List.nil_append]
  rw [scoping_along scoping_locals, scoping_locals_end, scoping_emit, scoping_within]
  simp only [List.cons_append, List.nil_append]
  have locals (k : Nat) : n + 1 + 1 + 1 + 1 + k + 1 + 1 = n + 6 + k := by omega
  rw [scoping_statements, scoping_emit, scoping_symbol, scoping_emit, scoping_emit, scoping_emit, locals,
    Subroutine.scoping, namings, List.map_append, map_along, List.cons_append, List.append_assoc]
  rfl

/-- The declarations of class variables end where the subroutines begin. -/
theorem scoping_classVariables_end (n : Nat) (ss : List Subroutine) {p : Position} :
    scoping last (.classVariables :: goals)
        (placed place n (ss.flatMap Subroutine.kinds) ++ ⟨.symbol '\x7d', p⟩ :: rest) =
      scoping last goals (placed place n (ss.flatMap Subroutine.kinds) ++ ⟨.symbol '\x7d', p⟩ :: rest) := by
  have hm : Goal.classVariables.move
      (placed place n (ss.flatMap Subroutine.kinds) ++ ⟨.symbol '\x7d', p⟩ :: rest).head? = .expand [] := by
    rcases ss with - | ⟨⟨kind⟩, ss⟩
    · rfl
    · cases kind <;> rfl
  rw [scoping_of_expand hm, List.nil_append]

/-- A class. -/
theorem ClassDeclaration.scoping_eq (c : ClassDeclaration) :
    JackCompiler.scoping last Goal.ofClass (placed place 0 c.kinds) = c.scoping place := by
  have hg : Goal.ofClass = Goal.within .«class»
      [.classKeyword, .className, .symbol '\x7b', .classVariables, .subroutines, .symbol '\x7d'] ++ [] := by
    simp [Goal.ofClass]
  have he (p : Position) :
      JackCompiler.scoping last [.subroutines, .symbol '\x7d', .emit (.leave .«class»)] [⟨.symbol '\x7d', p⟩] = [] := by
    rw [scoping_of_expand rfl, List.nil_append, scoping_symbol, scoping_emit, scoping_nil]
    rfl
  simp only [kinds, braced, placed_cons, placed_append, placed_nil, List.append_assoc, List.cons_append]
  rw [hg, scoping_within]
  simp only [List.cons_append, List.nil_append]
  rw [scoping_of_take rfl, List.nil_append, scoping_of_take rfl, List.singleton_append, scoping_emit,
    scoping_symbol, scoping_along ClassVariables.scoping_eq, scoping_classVariables_end,
    scoping_along Subroutine.scoping_eq, he]
  simp [ClassDeclaration.scoping, namings, tokensBefore, map_along, Step.isScoping]

/-- The steps of tokens that spell a class change its scopes as its tree tells, at the places of the tokens. -/
theorem scoping_readClass {c : ClassDeclaration} {tokens : List Token} (hk : c.kinds = tokens.map (·.kind)) :
    (readClass tokens).steps.filter Step.isScoping = c.scoping (placeIn tokens) := by
  have walk : JackCompiler.scoping (Token.endPosition tokens) Goal.ofClass (placed (placeIn tokens) 0 c.kinds) =
      c.scoping (placeIn tokens) := c.scoping_eq
  rw [hk, placed_placeIn] at walk
  exact walk

end

end JackCompiler
