import JackCompiler.Proofs.Code.Jumps

/-!
# The words of the segments that code uses

A variable takes the next index of its kind, so its index is below the number of declarations of the kind, of whatever
name (`Declaration.index_lt_of_mem_made`). A name stands for a variable of the subroutine at hand or of the class,
whose kinds do not overlap, so the code of a subroutine stays below the number of its own locals and arguments and of
the statics and fields of its class (`ClassDeclaration.Valid.admits`). Main statement: it is so in all code that is
compiled (`compiled_accesses_inside`).
-/

namespace JackCompiler

open Vm

/-- How many words of its segments a function may use. -/
structure Room where
  locals : Nat
  arguments : Nat
  statics : Nat
  fields : Nat

namespace Room

variable (room : Room)

/-- Whether a place of a segment is there to be used. -/
def Holds : Segment → Nat → Prop
  | .constant, _ => True
  | .«local», n => n < room.locals
  | .argument, n => n < room.arguments
  | .static, n => n < room.statics
  | .this, n => n < room.fields
  | .pointer, n => n = 0 ∨ n = 1
  | .that, n => n = 0
  | .temp, n => n = 0

/-- Whether an instruction only uses places that are there, and does not assign to a constant. -/
def Admits : Instruction → Prop
  | .push segment n => room.Holds segment n.toNat
  | .pop segment n => segment ≠ .constant ∧ room.Holds segment n.toNat
  | _ => True

end Room

/-! ## Indices -/

namespace Declaration

/-- The index of a variable is the number of declarations of its kind before it. -/
theorem index_lt_of_mem_madeAfter {earlier ds : List Declaration} {v : Variable} (h : v ∈ madeAfter earlier ds)
    (hc : ∀ kind, countOf kind (earlier ++ ds) ≤ 65535) : v.index.toNat < countOf v.kind (earlier ++ ds) := by
  induction ds generalizing earlier with
  | nil => cases h
  | cons d ds ih =>
    rw [madeAfter, List.mem_cons] at h
    rcases h with rfl | h
    · have hle := hc d.kind
      change (UInt16.ofNat (countOf d.kind earlier)).toNat < countOf d.kind _
      rw [← List.singleton_append, countOf_append, countOf_append, countOf_singleton, if_pos rfl] at hle ⊢
      rw [UInt16.toNat_ofNat']
      omega
    · rw [List.append_cons] at hc ⊢
      exact ih h hc

/-- The index of a variable is below the number of declarations of its kind. -/
theorem index_lt_of_mem_made {ds : List Declaration} {v : Variable} (h : v ∈ made ds)
    (hc : ∀ kind, countOf kind ds ≤ 65535) : v.index.toNat < countOf v.kind ds :=
  index_lt_of_mem_madeAfter h hc

theorem countOf_eq_zero {kind : VariableKind} {ds : List Declaration} (h : ∀ d ∈ ds, d.kind ≠ kind) :
    countOf kind ds = 0 :=
  List.countP_eq_zero.mpr fun d hd => by simpa using h d hd

end Declaration

theorem mem_of_lastNamed? {vs : List Variable} {name : String} {v : Variable} (h : lastNamed? vs name = some v) :
    v ∈ vs :=
  List.mem_reverse.mp (List.mem_of_find?_eq_some h)

/-- What a name stands for has an index below the number of declarations of its kind in its scope. -/
theorem Context.index_lt {className : String} {cs ss : List Declaration} {name : String} {v : Variable}
    (hcs : ∀ kind, Declaration.countOf kind cs ≤ 65535) (hss : ∀ kind, Declaration.countOf kind ss ≤ 65535)
    (h : (Context.ofDeclarations className cs ss).find? name = some v) :
    v.index.toNat < Declaration.countOf v.kind ss ∨ v.index.toNat < Declaration.countOf v.kind cs := by
  rcases Option.or_eq_some_iff.mp h with h | ⟨-, h⟩
  · exact .inl (Declaration.index_lt_of_mem_made (mem_of_lastNamed? h) hss)
  · exact .inr (Declaration.index_lt_of_mem_made (mem_of_lastNamed? h) hcs)

/-! ## The kinds of the two scopes -/

theorem NamesOfType.kind_of_mem_declarations {kind : VariableKind} {d : NamesOfType} {e : Declaration}
    (h : e ∈ d.declarations kind) : e.kind = kind := by
  obtain ⟨name, -, rfl⟩ := List.mem_map.mp h
  rfl

/-- The class declares statics and fields. -/
theorem ClassDeclaration.isOfClass_of_mem_scope {c : ClassDeclaration} {d : Declaration} (h : d ∈ c.scope) :
    d.kind.isOfClass = true := by
  obtain ⟨e, -, hd⟩ := List.mem_flatMap.mp h
  rw [NamesOfType.kind_of_mem_declarations hd]
  cases e.kind <;> rfl

/-- A subroutine declares arguments and locals. -/
theorem Subroutine.isOfClass_of_mem_scope {className : String} {s : Subroutine} {d : Declaration}
    (h : d ∈ s.scope className) : d.kind.isOfClass = false := by
  rw [scope, List.mem_append, List.mem_append] at h
  rcases h with (h | h) | h
  · rw [implicit] at h
    split at h
    · obtain rfl := List.mem_singleton.mp h
      rfl
    · cases h
    · cases h
  · obtain ⟨p, -, rfl⟩ := List.mem_map.mp h
    rfl
  · obtain ⟨e, -, hd⟩ := List.mem_flatMap.mp h
    rw [NamesOfType.kind_of_mem_declarations hd]
    rfl

/-- The arguments of a subroutine are its parameters, and the object of a method. -/
theorem Subroutine.countOf_argument (className : String) (s : Subroutine) :
    Declaration.countOf .argument (s.scope className) = s.parameters.length + if s.kind = .method then 1 else 0 := by
  have hi : Declaration.countOf .argument (s.implicit className) = if s.kind = .method then 1 else 0 := by
    rw [implicit]
    cases s.kind <;> rfl
  have hp : Declaration.countOf .argument (s.parameters.map Parameter.declaration) = s.parameters.length := by
    simp [Declaration.countOf, Parameter.declaration, List.countP_map, Function.comp_def]
  have hl : Declaration.countOf .argument (s.locals.flatMap (NamesOfType.declarations .«local»)) = 0 := by
    refine Declaration.countOf_eq_zero fun d hd => ?_
    obtain ⟨e, -, hd⟩ := List.mem_flatMap.mp hd
    simp [NamesOfType.kind_of_mem_declarations hd]
  rw [scope, Declaration.countOf_append, Declaration.countOf_append, hi, hp, hl]
  omega

/-! ## Functions -/

section

variable {strict : Bool} {c : ClassDeclaration} {s : Subroutine}

/-- The words that the function of a subroutine may use. -/
def ClassDeclaration.room (c : ClassDeclaration) (s : Subroutine) : Room where
  locals := Declaration.countOf .«local» (s.scope c.name)
  arguments := Declaration.countOf .argument (s.scope c.name)
  statics := Declaration.countOf .static c.scope
  fields := Declaration.countOf .field c.scope

/-- The place of a variable that a name stands for is there. -/
theorem ClassDeclaration.Valid.holds (hc : c.Valid strict) (hs : s.Valid strict c) {name : String} {v : Variable}
    (h : (c.context s).find? name = some v) : (c.room s).Holds (Rules.segment v.kind) v.index.toNat := by
  have ofClass : ∀ {kind : VariableKind}, kind.isOfClass = true → Declaration.countOf kind (s.scope c.name) = 0 := by
    refine fun hk => Declaration.countOf_eq_zero fun d hd hkind => ?_
    simp [← hkind, Subroutine.isOfClass_of_mem_scope hd] at hk
  have ofSubroutine : ∀ {kind : VariableKind}, kind.isOfClass = false → Declaration.countOf kind c.scope = 0 := by
    refine fun hk => Declaration.countOf_eq_zero fun d hd hkind => ?_
    simp [← hkind, ClassDeclaration.isOfClass_of_mem_scope hd] at hk
  have hlt := Context.index_lt hc.scope.counts hs.scope.counts h
  cases hk : v.kind with
  | static | field =>
    rw [hk, ofClass rfl] at hlt
    exact hlt.resolve_left (Nat.not_lt_zero _)
  | argument | «local» =>
    rw [hk, ofSubroutine rfl] at hlt
    exact hlt.resolve_right (Nat.not_lt_zero _)

/-- A statement of a subroutine only uses words that are there. -/
theorem ClassDeclaration.Valid.admits_of_fromStatement (hc : c.Valid strict) (hs : s.Valid strict c)
    {ks : List TokenKind} {i : Instruction} (h : FromStatement (c.context s) ks i) : (c.room s).Admits i := by
  cases h with
  | expression h =>
    cases h with
    | read h => exact hc.holds hs h
    | object => exact .inl rfl
    | aim => exact ⟨nofun, .inr rfl⟩
    | element => rfl
    | _ => exact trivial
  | @write name v h => exact ⟨by cases v.kind <;> simp [Rules.segment], hc.holds hs h⟩
  | keep => exact ⟨nofun, rfl⟩
  | fetch => rfl
  | assign => exact ⟨nofun, rfl⟩
  | _ => exact trivial

/-- Setting the object of a subroutine only uses words that are there. -/
theorem admits_prologue (c : ClassDeclaration) (s : Subroutine) :
    ∀ i ∈ Rules.prologue (Declaration.countOf .field c.scope) s.kind, (c.room s).Admits i := by
  have object : (c.room s).Admits (.pop .pointer 0) := ⟨nofun, .inl rfl⟩
  cases hk : s.kind with
  | constructor =>
    simp only [Rules.prologue, List.forall_mem_cons, List.not_mem_nil, false_implies, implies_true, and_true]
    exact ⟨trivial, trivial, object⟩
  | function => exact List.forall_mem_nil _
  | method =>
    refine List.forall_mem_cons.mpr ⟨?_, List.forall_mem_singleton.mpr object⟩
    have arguments : (c.room s).arguments = s.parameters.length + 1 := by
      rw [ClassDeclaration.room, s.countOf_argument, if_pos hk]
    change (0 : UInt16).toNat < (c.room s).arguments
    rw [arguments]
    exact Nat.succ_pos _

/-- The function of a subroutine only uses words that are there. -/
theorem ClassDeclaration.Valid.admits (hc : c.Valid strict) (hs : s ∈ c.subroutines) :
    ∀ i ∈ c.subroutineCode s, (c.room s).Admits i := by
  rw [subroutineCode_eq]
  refine List.forall_mem_cons.mpr ⟨trivial, List.forall_mem_append.mpr ⟨admits_prologue c s, fun i hi => ?_⟩⟩
  exact hc.admits_of_fromStatement (hc.subroutines s hs) (bodyCode_fromStatement c hs i hi)

end

/-- The number of fields that a constructor pushes is the number of fields. -/
theorem ClassDeclaration.Valid.toNat_fields {strict : Bool} {c : ClassDeclaration} (hc : c.Valid strict) :
    (UInt16.ofNat (Declaration.countOf .field c.scope)).toNat = Declaration.countOf .field c.scope :=
  UInt16.toNat_ofNat_of_lt' (Nat.lt_succ_of_le (hc.scope.counts .field))

/-- Every push and pop that is compiled stays inside its segment: below the number of locals that the head of its own
function has, below the number of parameters of its subroutine and the object of a method, and below the numbers of
statics and fields that the class declares, names declared twice counted twice. A constructor asks for a word for each
field. -/
theorem compiled_accesses_inside {strict record : Bool} {tokens : List Token} {r : CompiledClass}
    (h : (compile strict record tokens).result = .ok r) :
    (functionsOf r.code).flatten = r.code ∧ Derivable tokens ∧
      ∀ c : ClassDeclaration, c.kinds = tokens.map (·.kind) →
        List.Forall₂
          (fun s f => ∃ locals : UInt16,
            f.head? = some (.function (c.name ++ "." ++ s.name) locals) ∧
            (∀ i ∈ f, Room.Admits
              { locals := locals.toNat
                arguments := s.parameters.length + if s.kind = .method then 1 else 0
                statics := Declaration.countOf .static c.scope
                fields := Declaration.countOf .field c.scope } i) ∧
            (s.kind = .constructor → ∃ fields : UInt16, fields.toNat = Declaration.countOf .field c.scope ∧
              f.tail.take 3 = [.push .constant fields, .call "Memory.alloc" 1, .pop .pointer 0]))
          c.subroutines (functionsOf r.code) := by
  obtain ⟨c, hk, -⟩ := compile_eq_ok_iff.mp h
  refine ⟨flatten_functionsOf r.code, ⟨c, hk⟩, fun c hk => ?_⟩
  obtain ⟨hv, rfl⟩ := (compile_kinds_eq_ok_iff hk).mp h
  refine (forall₂_functionsOf_iff c).mpr fun s hs => ?_
  have locals : (UInt16.ofNat (s.locals.flatMap NamesOfType.names).length).toNat = (c.room s).locals := by
    rw [← s.countOf_local c.name]
    exact UInt16.toNat_ofNat_of_lt' (Nat.lt_succ_of_le ((hv.subroutines s hs).scope.counts .«local»))
  refine ⟨_, by rw [subroutineCode_eq]; rfl, ?_, fun hkind => ?_⟩
  · rw [locals, ← s.countOf_argument c.name]
    exact hv.admits hs
  · exact ⟨UInt16.ofNat (Declaration.countOf .field c.scope), hv.toNat_fields, by rw [subroutineCode_eq, hkind]; rfl⟩

/-- In the method of the table the name `row` stands for the first of two locals, not for the last of three arguments;
in the constructor `count` stands for the second of two statics. -/
theorem sampleTable_accesses_inside :
    (compile false false (unplaced sampleTable.kinds)).result = .ok sampleTable.compiled ∧
      (∀ i ∈ sampleTable.subroutineCode sampleConstructor, Room.Admits ⟨0, 1, 2, 1⟩ i) ∧
      (∀ i ∈ sampleTable.subroutineCode sampleSearch, Room.Admits ⟨2, 3, 2, 1⟩ i) := by
  obtain ⟨-, -, inside⟩ := compiled_accesses_inside compile_sampleTable
  have each := (forall₂_functionsOf_iff sampleTable).mp (inside sampleTable (map_kind_unplaced _).symm)
  obtain ⟨n, hn, first, -⟩ := each sampleConstructor (List.mem_cons_self ..)
  obtain ⟨n', hn', second, -⟩ := each sampleSearch (List.mem_cons_of_mem _ (List.mem_singleton.mpr rfl))
  obtain rfl : 0 = n := by simpa [ClassDeclaration.subroutineCode, sampleConstructor] using hn
  obtain rfl : 2 = n' := by simpa [ClassDeclaration.subroutineCode, sampleSearch, NamesOfType.names] using hn'
  exact ⟨compile_sampleTable, first, second⟩

end JackCompiler
