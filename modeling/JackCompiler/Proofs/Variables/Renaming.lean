import JackCompiler.Proofs.Generation.Declarations
import Mathlib.Data.List.Induction
import Mathlib.Data.List.Nodup
import Mathlib.Data.Set.Function

/-!
# Variables under other names

Declarations under other names make the same variables under other names (`Declaration.made_rename`), as long as different
names stay different: a name stands for what it stood for (`lastNamed?_rename`), a scope lists its variables in the same order
(`scopeOf_rename`), and declarations that were accepted still are (`Admissible.rename`). One name that is replaced by a new
one keeps names different (`injOn_renamed`).
-/

namespace JackCompiler

/-- A variable whose name is replaced. -/
def Variable.rename (ρ : String → String) (v : Variable) : Variable :=
  { v with name := ρ v.name }

/-- A declaration whose name is replaced. -/
def Declaration.rename (ρ : String → String) (d : Declaration) : Declaration :=
  { d with name := ρ d.name }

/-! ## One name for another -/

/-- Replaces the name `x` by `y`. -/
def renamed (x y name : String) : String :=
  if name = x then y else name

@[simp] theorem renamed_self (x y : String) : renamed x y x = y :=
  if_pos rfl

theorem renamed_of_ne {x name : String} (y : String) (h : name ≠ x) : renamed x y name = name :=
  if_neg h

/-- A new name that is replaced by the old one gives the old names back. -/
theorem renamed_renamed {x y name : String} (h : name ≠ y) : renamed y x (renamed x y name) = name := by
  by_cases hx : name = x
  · rw [hx, renamed_self, renamed_self]
  · rw [renamed_of_ne y hx, renamed_of_ne x h]

/-- Names other than the new one stay different. -/
theorem injOn_renamed (x y : String) : Set.InjOn (renamed x y) {name | name ≠ y} := by
  intro name hn other ho h
  rw [← renamed_renamed hn, ← renamed_renamed ho, h]

/-! ## Declarations and what they make -/

variable {ρ : String → String}

namespace Declaration

theorem countOf_rename (kind : VariableKind) (ds : List Declaration) :
    countOf kind (ds.map (rename ρ)) = countOf kind ds := by
  rw [countOf, List.countP_map]
  rfl

theorem madeAfter_rename (earlier ds : List Declaration) :
    madeAfter (earlier.map (rename ρ)) (ds.map (rename ρ)) = (madeAfter earlier ds).map (Variable.rename ρ) := by
  induction ds generalizing earlier with
  | nil => rfl
  | cons d ds ih =>
    have next : earlier.map (rename ρ) ++ [d.rename ρ] = (earlier ++ [d]).map (rename ρ) := by
      rw [List.map_append, List.map_singleton]
    rw [List.map_cons, madeAfter, next, ih, countOf_rename, madeAfter, List.map_cons]
    rfl

/-- Renamed declarations make the renamed variables. -/
theorem made_rename (ds : List Declaration) : made (ds.map (rename ρ)) = (made ds).map (Variable.rename ρ) :=
  madeAfter_rename [] ds

theorem map_name_rename (ds : List Declaration) : (ds.map (rename ρ)).map (·.name) = (ds.map (·.name)).map ρ := by
  rw [List.map_map, List.map_map]
  rfl

end Declaration

/-! ## Names that stay different -/

section

variable {names : Set String} (hρ : Set.InjOn ρ names)
include hρ

/-- A renamed name stands for what the name stood for. -/
theorem lastNamed?_rename {vs : List Variable} (hvs : ∀ v ∈ vs, v.name ∈ names) {name : String} (hn : name ∈ names) :
    lastNamed? (vs.map (Variable.rename ρ)) (ρ name) = (lastNamed? vs name).map (Variable.rename ρ) := by
  induction vs using List.reverseRecOn with
  | nil => rfl
  | append_singleton vs v ih =>
    obtain ⟨hvs, hv⟩ := List.forall_mem_append.mp hvs
    have same : (v.rename ρ).name = ρ name ↔ v.name = name := hρ.eq_iff (hv v (List.mem_singleton.mpr rfl)) hn
    rw [List.map_append, List.map_singleton, lastNamed?_append_singleton, lastNamed?_append_singleton, ih hvs]
    by_cases h : v.name = name
    · rw [if_pos h, if_pos (same.mpr h), Option.map_some]
    · rw [if_neg h, if_neg (mt same.mp h)]

/-- A renamed variable takes the place in the renamed scope that the variable takes in the scope. -/
theorem insert_rename {scope : Scope} (hs : ∀ v ∈ scope, v.name ∈ names) {v : Variable} (hv : v.name ∈ names) :
    Scope.insert (scope.map (Variable.rename ρ)) (v.rename ρ) = (scope.insert v).map (Variable.rename ρ) := by
  have same {w : Variable} (hw : w ∈ scope) : ((w.rename ρ).name == (v.rename ρ).name) = (w.name == v.name) := by
    rw [Bool.eq_iff_iff, beq_iff_eq, beq_iff_eq]
    exact hρ.eq_iff (hs w hw) hv
  have contains : Scope.contains (scope.map (Variable.rename ρ)) (v.rename ρ).name = scope.contains v.name := by
    rw [Scope.contains, Scope.contains, List.any_map, Bool.eq_iff_iff, List.any_eq_true, List.any_eq_true]
    refine exists_congr fun w => and_congr_right fun hw => ?_
    rw [Function.comp_apply, same hw]
  rw [Scope.insert, Scope.insert, contains]
  split
  · rw [List.map_map, List.map_map]
    refine List.map_congr_left fun w hw => ?_
    rw [Function.comp_apply, Function.comp_apply, same hw]
    split <;> rfl
  · rw [List.map_append, List.map_singleton]

/-- The scope of renamed variables is the renamed scope. -/
theorem scopeOf_rename {vs : List Variable} (hvs : ∀ v ∈ vs, v.name ∈ names) :
    scopeOf (vs.map (Variable.rename ρ)) = (scopeOf vs).map (Variable.rename ρ) := by
  induction vs using List.reverseRecOn with
  | nil => rfl
  | append_singleton vs v ih =>
    obtain ⟨hvs, hv⟩ := List.forall_mem_append.mp hvs
    have inside : ∀ w ∈ scopeOf vs, w.name ∈ names := by
      intro w hw
      obtain ⟨name, -, hlast⟩ := List.mem_filterMap.mp hw
      exact hvs w (List.mem_reverse.mp (List.mem_of_find?_eq_some hlast))
    rw [List.map_append, List.map_singleton, ← insert_scopeOf, ih hvs,
      insert_rename hρ inside (hv v (List.mem_singleton.mpr rfl)), insert_scopeOf]

/-- Renamed declarations are accepted when the declarations are. -/
theorem Admissible.rename {strict : Bool} {ds : List Declaration} (h : Admissible strict ds)
    (hds : ∀ d ∈ ds, d.name ∈ names) : Admissible strict (ds.map (Declaration.rename ρ)) := by
  refine ⟨fun kind => ?_, fun hs => ?_⟩
  · rw [Declaration.countOf_rename]
    exact h.counts kind
  · rw [Declaration.map_name_rename]
    refine List.Nodup.map_on (fun name hn other ho => ?_) (h.distinct hs)
    obtain ⟨d, hd, rfl⟩ := List.mem_map.mp hn
    obtain ⟨d', hd', rfl⟩ := List.mem_map.mp ho
    exact hρ (hds d hd) (hds d' hd')

end

end JackCompiler
