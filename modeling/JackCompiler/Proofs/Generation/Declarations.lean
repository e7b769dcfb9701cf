import JackCompiler.Variable.Table
import Mathlib.Data.List.Basic

/-!
# Declarations and the variables they make

A table is built one declaration at a time. Seen from its end it needs no history: a declaration takes the number of
earlier declarations of its kind as its index, a name stands for its last declaration in the scope, and a scope lists each
name once, where it was first declared (`scopeOf`). `define_tableOf` is the step lemma: a declaration more makes the table
of one declaration more, as long as its kind has an index left.
-/

namespace JackCompiler

/-- A name of a type that is declared as a variable of a kind. -/
structure Declaration where
  kind : VariableKind
  type : String
  name : String

namespace Declaration

/-- How many declarations are of a kind; a name declared twice counts twice. -/
def countOf (kind : VariableKind) (ds : List Declaration) : Nat :=
  ds.countP fun d => d.kind = kind

/-- The variables that declarations make after others: the index is the number of declarations of the kind before. -/
def madeAfter (earlier : List Declaration) : List Declaration → List Variable
  | [] => []
  | d :: ds => ⟨d.name, d.type, d.kind, UInt16.ofNat (countOf d.kind earlier)⟩ :: madeAfter (earlier ++ [d]) ds

/-- The variables that declarations make, one for each. -/
def made (ds : List Declaration) : List Variable :=
  madeAfter [] ds

end Declaration

/-- The last variable with the given name. -/
def lastNamed? (vs : List Variable) (name : String) : Option Variable :=
  vs.reverse.find? fun v => v.name == name

/-- The scope of variables made one after another: each name where it was first, with the variable that was last. -/
def scopeOf (vs : List Variable) : Scope :=
  (vs.map (·.name)).eraseDups.filterMap (lastNamed? vs)

/-- The table after the declarations of a class and those of a subroutine. -/
def tableOf (cs ss : List Declaration) : SymbolTable where
  ofClass := scopeOf (Declaration.made cs)
  ofSubroutine := scopeOf (Declaration.made ss)
  counters :=
    { static := UInt16.ofNat (Declaration.countOf .static cs)
      field := UInt16.ofNat (Declaration.countOf .field cs)
      argument := UInt16.ofNat (Declaration.countOf .argument ss)
      «local» := UInt16.ofNat (Declaration.countOf .«local» ss) }

/-! ## Counts and names -/

namespace Declaration

@[simp] theorem countOf_nil (kind : VariableKind) : countOf kind [] = 0 := rfl

@[simp] theorem countOf_append (kind : VariableKind) (ds ds' : List Declaration) :
    countOf kind (ds ++ ds') = countOf kind ds + countOf kind ds' := by
  simp [countOf]

@[simp] theorem countOf_singleton (kind : VariableKind) (d : Declaration) :
    countOf kind [d] = if d.kind = kind then 1 else 0 := by
  simp [countOf, List.countP_cons]

theorem madeAfter_append (earlier ds ds' : List Declaration) :
    madeAfter earlier (ds ++ ds') = madeAfter earlier ds ++ madeAfter (earlier ++ ds) ds' := by
  induction ds generalizing earlier with
  | nil => simp [madeAfter]
  | cons d ds ih => simp [madeAfter, ih]

/-- A declaration more makes a variable more. -/
theorem made_append_singleton (ds : List Declaration) (d : Declaration) :
    made (ds ++ [d]) = made ds ++ [⟨d.name, d.type, d.kind, UInt16.ofNat (countOf d.kind ds)⟩] := by
  simp [made, madeAfter_append, madeAfter]

theorem madeAfter_names (earlier ds : List Declaration) :
    (madeAfter earlier ds).map (·.name) = ds.map (·.name) := by
  induction ds generalizing earlier with
  | nil => rfl
  | cons d ds ih => simp [madeAfter, ih]

/-- The variables have the declared names. -/
theorem made_names (ds : List Declaration) : (made ds).map (·.name) = ds.map (·.name) :=
  madeAfter_names [] ds

end Declaration

/-! ## Scopes -/

theorem lastNamed?_append_singleton (vs : List Variable) (v : Variable) (name : String) :
    lastNamed? (vs ++ [v]) name = if v.name = name then some v else lastNamed? vs name := by
  by_cases h : v.name = name
  · simp [lastNamed?, h]
  · simp [lastNamed?, h]

theorem name_of_lastNamed? {vs : List Variable} {name : String} {v : Variable} (h : lastNamed? vs name = some v) :
    v.name = name := by
  simpa using List.find?_some h

/-- A name has a last variable exactly when it has one. -/
theorem lastNamed?_isSome {vs : List Variable} {name : String} :
    (lastNamed? vs name).isSome ↔ name ∈ vs.map (·.name) := by
  simp [lastNamed?]

theorem lastNamed?_eq_none {vs : List Variable} {name : String} (h : name ∉ vs.map (·.name)) :
    lastNamed? vs name = none := by
  rw [← Option.not_isSome_iff_eq_none, lastNamed?_isSome]
  exact h

/-- Looking for a name among the last variables of names finds its own. -/
theorem find?_filterMap_lastNamed? (vs : List Variable) (names : List String) (name : String) :
    List.find? (fun v => v.name == name) (names.filterMap (lastNamed? vs)) =
      if name ∈ names then lastNamed? vs name else none := by
  induction names with
  | nil => rfl
  | cons n names ih =>
    rcases hn : lastNamed? vs n with _ | v
    · rw [List.filterMap_cons_none hn, ih]
      by_cases h : name = n
      · subst h
        simp [hn]
      · simp [h]
    · rw [List.filterMap_cons_some hn, List.find?_cons]
      obtain rfl := name_of_lastNamed? hn
      by_cases h : v.name = name
      · subst h
        simp [hn]
      · have hb : (v.name == name) = false := by simpa using h
        simp [hb, Ne.symm h, ih]

/-- A scope finds the last variable with a name. -/
theorem find?_scopeOf (vs : List Variable) (name : String) : (scopeOf vs).find? name = lastNamed? vs name := by
  rw [Scope.find?, scopeOf, find?_filterMap_lastNamed?]
  by_cases h : name ∈ vs.map (·.name)
  · rw [if_pos (List.mem_eraseDups.mpr h)]
  · rw [if_neg (fun h' => h (List.mem_eraseDups.mp h')), lastNamed?_eq_none h]

/-- A scope contains the names of the variables that were made. -/
theorem contains_scopeOf (vs : List Variable) (name : String) :
    (scopeOf vs).contains name ↔ name ∈ vs.map (·.name) := by
  rw [← lastNamed?_isSome, ← find?_scopeOf, Scope.find?, List.find?_isSome, Scope.contains, List.any_eq_true]

/-- A name that was there stays where it was first. -/
theorem eraseDups_append_of_mem {names : List String} {name : String} (h : name ∈ names) :
    (names ++ [name]).eraseDups = names.eraseDups := by
  simp [List.eraseDups_append, List.removeAll, h]

/-- A new name comes last. -/
theorem eraseDups_append_of_notMem {names : List String} {name : String} (h : name ∉ names) :
    (names ++ [name]).eraseDups = names.eraseDups ++ [name] := by
  simp [List.eraseDups_append, List.removeAll, h, List.eraseDups_cons]

/-- A variable more replaces the last one of its name. -/
theorem lastNamed?_append_eq_map {vs : List Variable} {v : Variable} (h : v.name ∈ vs.map (·.name)) (name : String) :
    (lastNamed? vs name).map (fun w => if w.name == v.name then v else w) = lastNamed? (vs ++ [v]) name := by
  rw [lastNamed?_append_singleton]
  rcases hn : lastNamed? vs name with _ | w
  · have hne : v.name ≠ name := by
      rintro rfl
      rw [← lastNamed?_isSome, hn] at h
      cases h
    simp [hne]
  · obtain rfl := name_of_lastNamed? hn
    by_cases hw : w.name = v.name
    · simp [hw]
    · simp [hw, Ne.symm hw]

/-- A variable more is inserted in its scope. -/
theorem insert_scopeOf (vs : List Variable) (v : Variable) : (scopeOf vs).insert v = scopeOf (vs ++ [v]) := by
  have hm : (vs ++ [v]).map (·.name) = vs.map (·.name) ++ [v.name] := by simp
  unfold Scope.insert
  by_cases h : v.name ∈ vs.map (·.name)
  · rw [if_pos ((contains_scopeOf vs v.name).mpr h), scopeOf, scopeOf, hm, eraseDups_append_of_mem h,
      List.map_filterMap]
    refine List.filterMap_congr fun name _ => ?_
    exact lastNamed?_append_eq_map h name
  · rw [if_neg (by rwa [contains_scopeOf]), scopeOf, scopeOf, hm, eraseDups_append_of_notMem h, List.filterMap_append]
    congr 1
    · refine List.filterMap_congr fun name hn => ?_
      have hne : v.name ≠ name := by
        rintro rfl
        exact h (List.mem_eraseDups.mp hn)
      rw [lastNamed?_append_singleton, if_neg hne]
    · simp [lastNamed?_append_singleton]

/-! ## Tables -/

variable (cs ss : List Declaration)

@[simp] theorem tableOf_nil : tableOf [] [] = .empty := rfl

/-- A subroutine starts with the declarations of the class. -/
@[simp] theorem startSubroutine_tableOf : (tableOf cs ss).startSubroutine = tableOf cs [] := rfl

/-- A name stands for its last declaration in the innermost scope that declares it. -/
theorem lookup?_tableOf (name : String) :
    (tableOf cs ss).lookup? name =
      (lastNamed? (Declaration.made ss) name).or (lastNamed? (Declaration.made cs) name) := by
  rw [SymbolTable.lookup?, tableOf, find?_scopeOf, find?_scopeOf]

/-- The declarations that the scope of a kind holds. -/
def declarationsOf (kind : VariableKind) : List Declaration :=
  if kind.isOfClass then cs else ss

theorem count_tableOf (kind : VariableKind) :
    (tableOf cs ss).count kind = UInt16.ofNat (Declaration.countOf kind (declarationsOf cs ss kind)) := by
  cases kind <;> rfl

theorem scope_tableOf (kind : VariableKind) :
    (tableOf cs ss).scope kind = scopeOf (Declaration.made (declarationsOf cs ss kind)) := by
  cases kind <;> rfl

theorem isDefinedInScope_tableOf (name : String) (kind : VariableKind) :
    (tableOf cs ss).isDefinedInScope name kind ↔ name ∈ (declarationsOf cs ss kind).map (·.name) := by
  rw [SymbolTable.isDefinedInScope, scope_tableOf, contains_scopeOf, Declaration.made_names]

/-- A declaration more makes the table of one declaration more, as long as its kind has an index left. -/
theorem define_tableOf (d : Declaration) (h : Declaration.countOf d.kind (declarationsOf cs ss d.kind) < 65535) :
    (tableOf cs ss).define d.name d.type d.kind =
      .ok (if d.kind.isOfClass then tableOf (cs ++ [d]) ss else tableOf cs (ss ++ [d])) := by
  have hne : UInt16.ofNat (Declaration.countOf d.kind (declarationsOf cs ss d.kind)) ≠ SymbolTable.maxCount := by
    rw [SymbolTable.maxCount, ne_eq, ← UInt16.toNat_inj]
    simp only [UInt16.toNat_ofNat', UInt16.reduceToNat]
    omega
  simp only [SymbolTable.define, count_tableOf, if_neg hne, scope_tableOf, insert_scopeOf]
  obtain ⟨kind, type, name⟩ := d
  cases kind <;>
    simp [SymbolTable.setScope, VariableKind.isOfClass, tableOf, declarationsOf, Counters.set,
      Declaration.made_append_singleton, UInt16.ofNat_add]

/-- A kind without an index left refuses a declaration more. -/
theorem define_tableOf_full (d : Declaration) (h : Declaration.countOf d.kind (declarationsOf cs ss d.kind) = 65535) :
    (tableOf cs ss).define d.name d.type d.kind = .error (.tooMany (.variablesOf d.kind) d.name none) := by
  have he : (tableOf cs ss).count d.kind = SymbolTable.maxCount := by
    rw [count_tableOf, h]
    rfl
  simp only [SymbolTable.define, if_pos he]

/-! ## Declarations that are accepted -/

/-- What declarations of one scope have to be: no kind more often than it has indices, and if the scope allows a name only
once, no name twice. -/
structure Admissible (strict : Bool) (ds : List Declaration) : Prop where
  counts : ∀ kind, Declaration.countOf kind ds ≤ 65535
  distinct : strict = true → (ds.map (·.name)).Nodup

namespace Admissible

variable {strict : Bool} {ds ds' : List Declaration}

theorem nil : Admissible strict [] :=
  ⟨fun _ => Nat.zero_le _, fun _ => List.nodup_nil⟩

theorem of_append (h : Admissible strict (ds ++ ds')) : Admissible strict ds := by
  refine ⟨fun kind => ?_, fun hs => ?_⟩
  · have := h.counts kind
    rw [Declaration.countOf_append] at this
    omega
  · have := h.distinct hs
    rw [List.map_append, List.nodup_append] at this
    exact this.1

/-- A declaration more is admissible when its kind has an index left and, in a strict scope, its name is new. -/
theorem append_singleton_iff (h : Admissible strict ds) (d : Declaration) :
    Admissible strict (ds ++ [d]) ↔
      Declaration.countOf d.kind ds < 65535 ∧ (strict = true → d.name ∉ ds.map (·.name)) := by
  constructor
  · intro h'
    refine ⟨?_, fun hs hd => ?_⟩
    · have := h'.counts d.kind
      rw [Declaration.countOf_append, Declaration.countOf_singleton, if_pos rfl] at this
      omega
    · have := h'.distinct hs
      rw [List.map_append, List.nodup_append] at this
      exact this.2.2 d.name hd d.name (by simp) rfl
  · rintro ⟨hc, hd⟩
    refine ⟨fun kind => ?_, fun hs => ?_⟩
    · rw [Declaration.countOf_append, Declaration.countOf_singleton]
      have := h.counts kind
      split
      · next hk =>
        subst hk
        omega
      · omega
    · have hn := h.distinct hs
      have hf := hd hs
      rw [List.map_append, List.nodup_append]
      refine ⟨hn, by simp, fun name hm name' hm' he => ?_⟩
      obtain rfl : name' = d.name := by simpa using hm'
      exact hf (he ▸ hm)

end Admissible

end JackCompiler
