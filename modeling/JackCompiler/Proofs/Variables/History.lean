import JackCompiler.Proofs.Generation.Declarations
import Mathlib.Data.List.Induction

/-!
# What a table knows of the calls that made it

A table is changed by declarations and by the starts of subroutines. Of a history of calls it keeps what the declarations
that succeeded say: those of class variables for good, those of a subroutine's variables until the next one starts. The
step lemma is `Records.perform`: one call more keeps the table equal to the one that `tableOf` makes of the two lists.
Main statement: everything that can be asked of a table after any calls is answered from these lists
(`table_tells_history`).
-/

namespace JackCompiler

/-! ## Calls -/

/-- A call that changes a table. -/
inductive TableCall where
  /-- A variable is declared. -/
  | define (declaration : Declaration)
  /-- The next subroutine starts. -/
  | startSubroutine

namespace SymbolTable

/-- Whether a call succeeds. -/
def succeeds (table : SymbolTable) : TableCall → Bool
  | .define d => (table.define d.name d.type d.kind).isOk
  | .startSubroutine => true

/-- The table after a call; a declaration that fails leaves it as it is. -/
def perform (table : SymbolTable) : TableCall → SymbolTable
  | .define d =>
    match table.define d.name d.type d.kind with
    | .ok table => table
    | .error _ => table
  | .startSubroutine => table.startSubroutine

/-- The table after calls, one after another. -/
def performAll (table : SymbolTable) (calls : List TableCall) : SymbolTable :=
  calls.foldl perform table

/-- Those of some calls, one after another, that succeed. -/
def successes (table : SymbolTable) : List TableCall → List TableCall
  | [] => []
  | call :: calls =>
    if table.succeeds call then call :: (table.perform call).successes calls else (table.perform call).successes calls

end SymbolTable

/-! ## What calls declare -/

namespace TableCall

/-- Whether a call is a declaration. -/
def isDefine : TableCall → Bool
  | .define _ => true
  | .startSubroutine => false

/-- The declaration of a call, if it is one of a class variable or, as asked for, of a variable of a subroutine. -/
def declares? (ofClass : Bool) : TableCall → Option Declaration
  | .define d => if d.kind.isOfClass = ofClass then some d else none
  | .startSubroutine => none

/-- The calls after the last start of a subroutine. -/
def sinceStart (calls : List TableCall) : List TableCall :=
  (calls.reverse.takeWhile isDefine).reverse

/-- What calls declare in one of the two scopes as it is at their end: in that of the class, or in that of the subroutine
that was started last. -/
def declared (calls : List TableCall) (ofClass : Bool) : List Declaration :=
  (if ofClass then calls else sinceStart calls).filterMap (declares? ofClass)

theorem sinceStart_append_define (calls : List TableCall) (d : Declaration) :
    sinceStart (calls ++ [.define d]) = sinceStart calls ++ [.define d] := by
  rw [sinceStart, List.reverse_concat, List.takeWhile_cons_of_pos rfl, List.reverse_cons, sinceStart]

theorem sinceStart_append_startSubroutine (calls : List TableCall) :
    sinceStart (calls ++ [.startSubroutine]) = [] := by
  rw [sinceStart, List.reverse_concat, List.takeWhile_cons_of_neg Bool.false_ne_true, List.reverse_nil]

/-- A declaration more is one of its own scope and leaves the other as it is. -/
theorem declared_append_define (calls : List TableCall) (d : Declaration) (ofClass : Bool) :
    declared (calls ++ [.define d]) ofClass =
      if d.kind.isOfClass = ofClass then declared calls ofClass ++ [d] else declared calls ofClass := by
  cases ofClass <;> by_cases h : d.kind.isOfClass <;>
    simp [declared, declares?, sinceStart_append_define, h]

/-- The start of a subroutine leaves the declarations of the class and forgets the others. -/
theorem declared_append_startSubroutine (calls : List TableCall) (ofClass : Bool) :
    declared (calls ++ [.startSubroutine]) ofClass = if ofClass then declared calls true else [] := by
  cases ofClass <;> simp [declared, declares?, sinceStart_append_startSubroutine]

/-- A scope holds the kinds that are its own. -/
theorem isOfClass_of_mem_declared {calls : List TableCall} {ofClass : Bool} {d : Declaration}
    (h : d ∈ declared calls ofClass) : d.kind.isOfClass = ofClass := by
  obtain ⟨call, -, hc⟩ := List.mem_filterMap.mp h
  cases call with
  | define e =>
    rw [declares?] at hc
    split at hc
    · cases hc
      assumption
    · cases hc
  | startSubroutine => cases hc

end TableCall

open TableCall

/-! ## Steps and runs -/

namespace SymbolTable

theorem successes_append_singleton (table : SymbolTable) (calls : List TableCall) (call : TableCall) :
    table.successes (calls ++ [call]) =
      if (table.performAll calls).succeeds call then table.successes calls ++ [call] else table.successes calls := by
  induction calls generalizing table with
  | nil => rfl
  | cons first calls ih =>
    have after : table.performAll (first :: calls) = (table.perform first).performAll calls := rfl
    rw [List.cons_append, successes, successes, ih, after]
    split <;> split <;> rfl

/-- A table is the one of its history when it is made of the declarations that succeeded, of no kind more than there are
indices. -/
structure Records (table : SymbolTable) (log : List TableCall) : Prop where
  table_eq : table = tableOf (declared log true) (declared log false)
  counts : ∀ ofClass kind, Declaration.countOf kind (declared log ofClass) ≤ 65535

theorem declarationsOf_declared (log : List TableCall) (kind : VariableKind) :
    declarationsOf (declared log true) (declared log false) kind = declared log kind.isOfClass := by
  cases kind <;> rfl

variable {table : SymbolTable} {log : List TableCall}

/-- A declaration is refused exactly when its kind has no index left. -/
theorem Records.define_eq (h : table.Records log) (d : Declaration) :
    table.define d.name d.type d.kind =
      if Declaration.countOf d.kind (declared log d.kind.isOfClass) = 65535 then
        .error (.tooMany (.variablesOf d.kind) d.name none)
      else .ok (tableOf (declared (log ++ [.define d]) true) (declared (log ++ [.define d]) false)) := by
  have le := h.counts d.kind.isOfClass d.kind
  rw [h.table_eq]
  split
  · next full =>
    rw [← declarationsOf_declared] at full
    exact define_tableOf_full _ _ d full
  · next room =>
    rw [define_tableOf _ _ d (by rw [declarationsOf_declared]; omega), declared_append_define, declared_append_define]
    cases d.kind.isOfClass <;> rfl

/-- A call keeps the table that of its history, with the call in it if it succeeded. -/
theorem Records.perform (h : table.Records log) (call : TableCall) :
    (table.perform call).Records (if table.succeeds call then log ++ [call] else log) := by
  cases call with
  | define d =>
    have defined := h.define_eq d
    have le := h.counts d.kind.isOfClass d.kind
    by_cases full : Declaration.countOf d.kind (declared log d.kind.isOfClass) = 65535
    · rw [if_pos full] at defined
      simp only [SymbolTable.perform, succeeds, defined]
      exact h
    · rw [if_neg full] at defined
      simp only [SymbolTable.perform, succeeds, defined]
      refine ⟨rfl, fun ofClass kind => ?_⟩
      have others := h.counts ofClass kind
      simp only [Except.isOk, Except.toBool, if_true]
      rw [declared_append_define]
      split
      · next own =>
        rw [Declaration.countOf_append, Declaration.countOf_singleton]
        split
        · next hk =>
          subst hk own
          omega
        · exact others
      · exact others
  | startSubroutine =>
    simp only [SymbolTable.perform, succeeds, if_true]
    refine ⟨?_, fun ofClass kind => ?_⟩
    · rw [h.table_eq, startSubroutine_tableOf, declared_append_startSubroutine, declared_append_startSubroutine]
      rfl
    · rw [declared_append_startSubroutine]
      split
      · exact h.counts true kind
      · exact Nat.zero_le _

/-- After any calls a fresh table is that of its history. -/
theorem records_performAll (calls : List TableCall) :
    (SymbolTable.empty.performAll calls).Records (SymbolTable.empty.successes calls) := by
  induction calls using List.reverseRecOn with
  | nil => exact ⟨rfl, fun ofClass kind => by cases ofClass <;> exact Nat.zero_le _⟩
  | append_singleton calls call ih =>
    rw [successes_append_singleton, performAll, List.foldl_append]
    exact ih.perform call

end SymbolTable

/-! ## Last declarations -/

/-- A variable is what the last declaration of a name made it: it has its type and its kind, and its index is the number of
declarations of the kind before. -/
def IsLast (ds : List Declaration) (name : String) (v : Variable) : Prop :=
  ∃ earlier d later, ds = earlier ++ d :: later ∧ d.name = name ∧ (∀ e ∈ later, e.name ≠ name) ∧
    v.name = name ∧ v.type = d.type ∧ v.kind = d.kind ∧ v.index.toNat = Declaration.countOf d.kind earlier

section

variable {ds : List Declaration} {name : String} {v w : Variable}

theorem IsLast.append_of_ne {d : Declaration} (h : IsLast ds name v) (hd : d.name ≠ name) :
    IsLast (ds ++ [d]) name v := by
  obtain ⟨earlier, e, later, rfl, he, hl, made⟩ := h
  refine ⟨earlier, e, later ++ [d], by simp, he, fun x hx => ?_, made⟩
  rcases List.mem_append.mp hx with hx | hx
  · exact hl x hx
  · rw [List.mem_singleton.mp hx]
    exact hd

/-- The last declaration of all is the last one of its name. -/
theorem isLast_append_self {d : Declaration} (hc : Declaration.countOf d.kind ds ≤ 65535) :
    IsLast (ds ++ [d]) d.name ⟨d.name, d.type, d.kind, UInt16.ofNat (Declaration.countOf d.kind ds)⟩ := by
  refine ⟨ds, d, [], rfl, rfl, nofun, rfl, rfl, rfl, ?_⟩
  rw [UInt16.toNat_ofNat']
  omega

/-- The last variable of a name is what its last declaration made it. -/
theorem isLast_of_lastNamed? (hc : ∀ kind, Declaration.countOf kind ds ≤ 65535)
    (h : lastNamed? (Declaration.made ds) name = some v) : IsLast ds name v := by
  induction ds using List.reverseRecOn with
  | nil => cases h
  | append_singleton ds d ih =>
    have before : ∀ kind, Declaration.countOf kind ds ≤ 65535 := by
      intro kind
      have := hc kind
      rw [Declaration.countOf_append] at this
      omega
    rw [Declaration.made_append_singleton, lastNamed?_append_singleton] at h
    split at h
    · next hn =>
      cases h
      subst hn
      exact isLast_append_self (before d.kind)
    · next hn => exact (ih before h).append_of_ne hn

/-- A declaration is found by its kind and by the number of declarations of the kind before it. -/
theorem split_eq_of_countOf_eq {earlier earlier' later later' : List Declaration} {d d' : Declaration}
    (h : earlier ++ d :: later = earlier' ++ d' :: later') (hk : d.kind = d'.kind)
    (hc : Declaration.countOf d.kind earlier = Declaration.countOf d'.kind earlier') :
    earlier = earlier' ∧ d = d' ∧ later = later' := by
  rcases List.append_eq_append_iff.mp h with ⟨between, rfl, hd⟩ | ⟨between, rfl, hd⟩
  · cases between with
    | nil =>
      cases hd
      exact ⟨(List.append_nil _).symm, rfl, rfl⟩
    | cons e between =>
      cases hd
      rw [← List.singleton_append, ← hk] at hc
      simp only [Declaration.countOf_append, Declaration.countOf_singleton, if_pos] at hc
      omega
  · cases between with
    | nil =>
      cases hd
      exact ⟨List.append_nil _, rfl, rfl⟩
    | cons e between =>
      cases hd
      rw [← List.singleton_append, hk] at hc
      simp only [Declaration.countOf_append, Declaration.countOf_singleton, if_pos] at hc
      omega

/-- Two last variables of one kind with one index are the same. -/
theorem IsLast.eq {name' : String} (h : IsLast ds name v) (h' : IsLast ds name' w) (hk : v.kind = w.kind)
    (hi : v.index = w.index) : v = w := by
  obtain ⟨earlier, d, later, hds, hd, -, vn, vt, vk, vi⟩ := h
  obtain ⟨earlier', d', later', hds', hd', -, wn, wt, wk, wi⟩ := h'
  have kinds : d.kind = d'.kind := by rw [← vk, hk, wk]
  have counts : Declaration.countOf d.kind earlier = Declaration.countOf d'.kind earlier' := by rw [← vi, hi, wi]
  obtain ⟨-, rfl, -⟩ := split_eq_of_countOf_eq (hds.symm.trans hds') kinds counts
  have names : v.name = w.name := by rw [vn, wn, ← hd, ← hd']
  have types : v.type = w.type := by rw [vt, wt]
  cases v
  cases w
  simp only at names types hk hi
  rw [names, types, hk, hi]

/-- A scope holds the last variables of the names. -/
theorem lastNamed?_of_mem_scopeOf {vs : List Variable} (h : v ∈ scopeOf vs) : lastNamed? vs v.name = some v := by
  obtain ⟨name, -, hl⟩ := List.mem_filterMap.mp h
  rw [name_of_lastNamed? hl]
  exact hl

/-- A scope lists each name once, where it was first. -/
theorem scopeOf_names (vs : List Variable) : (scopeOf vs).map (·.name) = (vs.map (·.name)).eraseDups := by
  have all : ∀ name ∈ (vs.map (·.name)).eraseDups, (lastNamed? vs name).map (·.name) = some name := by
    intro name hn
    obtain ⟨v, hv⟩ := Option.isSome_iff_exists.mp (lastNamed?_isSome.mpr (List.mem_eraseDups.mp hn))
    rw [hv, Option.map_some, name_of_lastNamed? hv]
  rw [scopeOf, List.map_filterMap, List.filterMap_congr all, List.filterMap_some]

end

/-! ## Main statement -/

namespace SymbolTable

/-- What a table answers after calls of which those in `log` succeeded. -/
structure Tells (table : SymbolTable) (log : List TableCall) : Prop where
  /-- A kind is counted by its declarations in the scope, and there are never more than indices. -/
  count : ∀ kind, (table.count kind).toNat = Declaration.countOf kind (declared log kind.isOfClass) ∧
    Declaration.countOf kind (declared log kind.isOfClass) ≤ 65535
  /-- A name stands for its last declaration in the subroutine, failing that for its last one in the class. -/
  lookup : ∀ name,
    match table.lookup? name with
    | some v =>
      IsLast (declared log false) name v ∨
        name ∉ (declared log false).map (·.name) ∧ IsLast (declared log true) name v
    | none => name ∉ (declared log false).map (·.name) ∧ name ∉ (declared log true).map (·.name)
  /-- A name without a variable is undefined whatever is asked of it. -/
  resolve : ∀ name,
    match table.lookup? name with
    | some v =>
      table.resolve name = .ok v ∧ table.kindOf name = .ok v.kind ∧ table.typeOf name = .ok v.type ∧
        table.indexOf name = .ok v.index
    | none =>
      table.resolve name = .error (.undefined name none) ∧ table.kindOf name = .error (.undefined name none) ∧
        table.typeOf name = .error (.undefined name none) ∧ table.indexOf name = .error (.undefined name none)
  /-- The scope of the class lists each of its names once, where it was declared first, as it was declared last. -/
  ofClass : table.ofClass.map (·.name) = ((declared log true).map (·.name)).eraseDups ∧
    ∀ v ∈ table.ofClass, IsLast (declared log true) v.name v
  /-- So does the scope of the subroutine. -/
  ofSubroutine : table.ofSubroutine.map (·.name) = ((declared log false).map (·.name)).eraseDups ∧
    ∀ v ∈ table.ofSubroutine, IsLast (declared log false) v.name v
  /-- No two variables of one kind share an index. -/
  index_unique : ∀ v ∈ table.ofClass ++ table.ofSubroutine, ∀ w ∈ table.ofClass ++ table.ofSubroutine,
    v.kind = w.kind → v.index = w.index → v = w
  /-- A scope holds the names declared in it. -/
  isDefinedInScope : ∀ name kind, table.isDefinedInScope name kind = true ↔
    name ∈ (declared log kind.isOfClass).map (·.name)
  /-- A declaration fails exactly when its kind has no index left, and then it changes nothing. -/
  define : ∀ d : Declaration,
    if (table.count d.kind).toNat = 65535 then
      table.define d.name d.type d.kind = .error (.tooMany (.variablesOf d.kind) d.name none) ∧
        table.perform (.define d) = table
    else ∃ next, table.define d.name d.type d.kind = .ok next ∧ table.perform (.define d) = next

namespace Records

variable {table : SymbolTable} {log : List TableCall} {v w : Variable}

theorem count_eq (h : table.Records log) (kind : VariableKind) :
    (table.count kind).toNat = Declaration.countOf kind (declared log kind.isOfClass) := by
  have le := h.counts kind.isOfClass kind
  rw [h.table_eq, count_tableOf, declarationsOf_declared, UInt16.toNat_ofNat']
  omega

/-- The last variable of a name in one of the scopes is what its last declaration made it. -/
theorem isLast (h : table.Records log) {ofClass : Bool} {name : String}
    (hl : lastNamed? (Declaration.made (declared log ofClass)) name = some v) :
    IsLast (declared log ofClass) name v :=
  isLast_of_lastNamed? (h.counts ofClass) hl

theorem notMem_of_lastNamed? {ofClass : Bool} {name : String}
    (hl : lastNamed? (Declaration.made (declared log ofClass)) name = none) :
    name ∉ (declared log ofClass).map (·.name) := by
  intro hm
  rw [← Declaration.made_names, ← lastNamed?_isSome, hl] at hm
  cases hm

theorem isLast_of_mem_ofClass (h : table.Records log) (hv : v ∈ table.ofClass) :
    IsLast (declared log true) v.name v := by
  rw [h.table_eq] at hv
  exact h.isLast (lastNamed?_of_mem_scopeOf hv)

theorem isLast_of_mem_ofSubroutine (h : table.Records log) (hv : v ∈ table.ofSubroutine) :
    IsLast (declared log false) v.name v := by
  rw [h.table_eq] at hv
  exact h.isLast (lastNamed?_of_mem_scopeOf hv)

/-- A variable belongs to the scope of its kind. -/
theorem isLast_of_mem (h : table.Records log) (hv : v ∈ table.ofClass ++ table.ofSubroutine) :
    IsLast (declared log v.kind.isOfClass) v.name v := by
  have own : ∀ ofClass, IsLast (declared log ofClass) v.name v → IsLast (declared log v.kind.isOfClass) v.name v := by
    intro ofClass last
    have last' := last
    obtain ⟨earlier, d, later, hds, -, -, -, -, hk, -⟩ := last'
    have hd : d ∈ declared log ofClass := by simp [hds]
    rw [hk, isOfClass_of_mem_declared hd]
    exact last
  rcases List.mem_append.mp hv with hv | hv
  · exact own true (h.isLast_of_mem_ofClass hv)
  · exact own false (h.isLast_of_mem_ofSubroutine hv)

/-- A table that is made of its history answers from it. -/
theorem tells (h : table.Records log) : table.Tells log where
  count kind := ⟨h.count_eq kind, h.counts kind.isOfClass kind⟩
  lookup name := by
    have found : table.lookup? name = _ := (congrArg (·.lookup? name) h.table_eq).trans (lookup?_tableOf _ _ name)
    rw [found]
    rcases hs : lastNamed? (Declaration.made (declared log false)) name with _ | v
    · rcases hc : lastNamed? (Declaration.made (declared log true)) name with _ | v
      · exact ⟨notMem_of_lastNamed? hs, notMem_of_lastNamed? hc⟩
      · exact .inr ⟨notMem_of_lastNamed? hs, h.isLast hc⟩
    · exact .inl (h.isLast hs)
  resolve name := by
    simp only [SymbolTable.resolve, kindOf, typeOf, indexOf]
    cases table.lookup? name with
    | none => exact ⟨rfl, rfl, rfl, rfl⟩
    | some v => exact ⟨rfl, rfl, rfl, rfl⟩
  ofClass := by
    refine ⟨?_, fun v hv => h.isLast_of_mem_ofClass hv⟩
    rw [h.table_eq, ← Declaration.made_names]
    exact scopeOf_names _
  ofSubroutine := by
    refine ⟨?_, fun v hv => h.isLast_of_mem_ofSubroutine hv⟩
    rw [h.table_eq, ← Declaration.made_names]
    exact scopeOf_names _
  index_unique v hv w hw hk hi := by
    have last := h.isLast_of_mem hv
    rw [hk] at last
    exact last.eq (h.isLast_of_mem hw) hk hi
  isDefinedInScope name kind := by
    rw [h.table_eq, isDefinedInScope_tableOf, declarationsOf_declared]
  define d := by
    have defined := h.define_eq d
    rw [h.count_eq]
    split
    · next full =>
      rw [if_pos full] at defined
      exact ⟨defined, by rw [SymbolTable.perform, defined]⟩
    · next room =>
      rw [if_neg room] at defined
      exact ⟨_, defined, by rw [SymbolTable.perform, defined]⟩

end Records

/-- After any calls a fresh table answers from the calls that succeeded. -/
theorem table_tells_history (calls : List TableCall) :
    (SymbolTable.empty.performAll calls).Tells (SymbolTable.empty.successes calls) :=
  (records_performAll calls).tells

/-- A name that is declared again with another kind keeps its place, and its old index stays taken. -/
example :
    let table := SymbolTable.empty.performAll
      [.define ⟨.static, "int", "x"⟩, .define ⟨.static, "int", "y"⟩, .define ⟨.field, "char", "x"⟩]
    table.count .static = 2 ∧ table.ofClass = [⟨"x", "char", .field, 0⟩, ⟨"y", "int", .static, 1⟩] := by decide

end SymbolTable

end JackCompiler
