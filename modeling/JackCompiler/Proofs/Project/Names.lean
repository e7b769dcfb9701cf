import JackCompiler.Proofs.Generation.Acceptance
import JackCompiler.Proofs.Project.Build
import JackCompiler.Proofs.Scanning.RoundTrip

/-!
# The names of outputs

Three kinds of files meet in the directory of outputs: the code of a unit is named for its source, its listing for its
class, and the code of all units for the root. The sources of one directory differ in their names, so no code file is
written over another (`Siblings.not_meet`). A listing is written over another file only when that has the name of its
class, too (`pairwise_planOutputs`).
-/

namespace JackCompiler

open FileTree

/-! ## What is planned for a unit -/

/-- The units that were compiled, each with what it was compiled to. -/
def compiledUnits (units : List SourceUnit) : List (SourceUnit × Compiled) :=
  units.filterMap fun unit => unit.compiled?.map (unit, ·)

/-- The text of a unit's code. -/
def Compiled.text (compiled : Compiled) : String :=
  Vm.render compiled.compiledClass.code

/-- The file name of a unit's listing. -/
def Compiled.listingName (compiled : Compiled) : String :=
  compiled.compiledClass.name ++ "T.xml"

/-- The path of a unit's code file. -/
def Config.codePath (config : Config) (unit : SourceUnit) : Path :=
  outputPath unit.source config.output? config.outputExtension

/-- The code file of one unit. -/
def codePlan (config : Config) (unit : SourceUnit × Compiled) : Planned :=
  .write (config.codePath unit.1) unit.2.text unit.1.source.text

/-- The listing of one unit, if there is one. -/
def listingPlan? (config : Config) (unit : SourceUnit × Compiled) : Option Planned :=
  unit.2.listing?.map fun text =>
    .write (listingPath (config.codePath unit.1) unit.2.compiledClass.name) text unit.1.source.text

/-- The code file of all units. -/
def combinedPlan (config : Config) (root : Path) (units : List SourceUnit) : Planned :=
  .write (combinedPath root config.output? config.outputExtension)
    (String.join ((compiledUnits units).map fun unit => unit.2.text))
    (combinedPath root config.output? config.outputExtension).text

/-- The files of one unit, apart from the combined one. -/
def plansFor (config : Config) (isCombined : Bool) (unit : SourceUnit × Compiled) : List Planned :=
  (if isCombined then [] else [codePlan config unit]) ++ (listingPlan? config unit).toList

section

variable {config : Config} {options : UnitOptions} {root : Path} {tree : FileTree} {sources : List Path}
  {units : List SourceUnit} {isCombined isDirectory : Bool} {unit : SourceUnit} {compiled : Compiled}

theorem mem_compiledUnits :
    (unit, compiled) ∈ compiledUnits units ↔ unit ∈ units ∧ unit.compiled? = some compiled := by
  simp [compiledUnits]

theorem isCompiled_of_compiled? (h : unit.compiled? = some compiled) : unit.isCompiled = true := by
  rw [SourceUnit.compiled?] at h
  rw [SourceUnit.isCompiled]
  cases hresult : unit.result with
  | ok _ => rfl
  | error _ =>
    rw [hresult] at h
    cases h

theorem map_snd_compiledUnits (units : List SourceUnit) :
    (compiledUnits units).map Prod.snd = units.filterMap SourceUnit.compiled? := by
  rw [compiledUnits, List.map_filterMap]
  refine List.filterMap_congr fun unit _ => ?_
  rw [Option.map_map]
  exact Option.map_id'

theorem planUnit_eq (config : Config) (isCombined : Bool) (unit : SourceUnit) :
    planUnit config isCombined unit = (unit.compiled?.map (unit, ·)).toList.flatMap (plansFor config isCombined) := by
  rw [planUnit]
  cases unit.compiled? with
  | none => rfl
  | some compiled =>
    rw [Option.map_some, Option.toList_some, List.flatMap_singleton, plansFor, listingPlan?]
    dsimp only
    cases compiled.listing? <;> rfl

theorem flatMap_planUnit (config : Config) (isCombined : Bool) (units : List SourceUnit) :
    units.flatMap (planUnit config isCombined) = (compiledUnits units).flatMap (plansFor config isCombined) := by
  rw [compiledUnits, List.filterMap_eq_flatMap_toList, List.flatMap_assoc]
  exact List.flatMap_congr fun unit _ => planUnit_eq config isCombined unit

/-- What is planned for a run. -/
theorem planOutputs_eq (config : Config) (root : Path) (isDirectory : Bool) (units : List SourceUnit) :
    planOutputs config root isDirectory units =
      if config.combine && isDirectory then
        if units.all SourceUnit.isCompiled then
          combinedPlan config root units :: (compiledUnits units).flatMap (plansFor config true)
        else .skip (combinedPath root config.output? config.outputExtension) ::
          (compiledUnits units).flatMap (plansFor config false)
      else (compiledUnits units).flatMap (plansFor config false) := by
  rw [planOutputs, flatMap_planUnit, flatMap_planUnit, combinedPlan, combine, ← map_snd_compiledUnits, List.map_map,
    List.map_map]
  rfl

/-! ## What units are compiled to -/

theorem compileUnitText_eq_ok_iff {text : String} :
    compileUnitText options text = .ok compiled ↔
      ∃ tokens, scan text = .ok tokens ∧
        (compile options.strict options.trace tokens).result = .ok compiled.compiledClass ∧
        compiled.listing? = (if options.tokens then some (listing tokens) else none) ∧
        compiled.trace? = (compile options.strict options.trace tokens).trace? := by
  obtain ⟨compiledClass, listing?, trace?⟩ := compiled
  rw [compileUnitText]
  cases scan text with
  | error e => simp
  | ok tokens =>
    dsimp only
    cases hresult : (compile options.strict options.trace tokens).result with
    | error e => simp [Except.map, hresult]
    | ok r =>
      constructor
      · intro h
        cases h
        exact ⟨tokens, rfl, hresult, rfl, rfl⟩
      · rintro ⟨_, same, hr, rfl, rfl⟩
        cases same
        rw [hresult] at hr
        cases hr
        rfl

/-- A compiled unit has the class of its tokens, and their listing if one is wanted. -/
theorem exists_tokens_of_mem_unitsOf (hu : unit ∈ unitsOf options tree sources) (hc : unit.compiled? = some compiled) :
    ∃ tokens, scan unit.text = .ok tokens ∧
      (compile options.strict options.trace tokens).result = .ok compiled.compiledClass ∧
      compiled.listing? = if options.tokens then some (listing tokens) else none := by
  obtain ⟨source, -, rfl⟩ := List.mem_map.mp hu
  rw [compileSource] at hc ⊢
  split at hc
  · next text _ =>
    have result : compileUnitText options text = .ok compiled := by
      cases h : compileUnitText options text <;> simp_all [SourceUnit.compiled?, Except.toOption]
    obtain ⟨tokens, hscan, hresult, hlisting, -⟩ := compileUnitText_eq_ok_iff.mp result
    exact ⟨tokens, hscan, hresult, hlisting⟩
  · cases hc

/-- Without listings there is none. -/
theorem listing?_eq_none (ht : options.tokens = false) (hu : unit ∈ unitsOf options tree sources)
    (hc : unit.compiled? = some compiled) : compiled.listing? = none := by
  obtain ⟨tokens, -, -, hlisting⟩ := exists_tokens_of_mem_unitsOf hu hc
  rw [hlisting, ht, if_neg Bool.false_ne_true]

/-- The name of a class is an identifier. -/
theorem slash_notMem_className {tokens : List Token} {strict trace : Bool} {text : String} {r : CompiledClass}
    (hscan : scan text = .ok tokens) (hr : (compile strict trace tokens).result = .ok r) : '/' ∉ r.name.toList := by
  obtain ⟨c, hkinds, -, rfl⟩ := compile_eq_ok_iff.mp hr
  have hname : TokenKind.identifier c.name ∈ tokens.map (·.kind) := by
    rw [← hkinds, ClassDeclaration.kinds]
    exact List.mem_cons_of_mem _ List.mem_cons_self
  exact (forall_wellFormed_of_scan hscan _ hname).notMem (by decide) (by decide)

/-- The name of a listing is a file name. -/
theorem isFileName_listingName (hu : unit ∈ unitsOf options tree sources) (hc : unit.compiled? = some compiled) :
    IsFileName compiled.listingName.toList := by
  obtain ⟨tokens, hscan, hresult, -⟩ := exists_tokens_of_mem_unitsOf hu hc
  have slash := slash_notMem_className hscan hresult
  have name : compiled.listingName.toList = compiled.compiledClass.name.toList ++ ['T', '.', 'x', 'm', 'l'] :=
    String.toList_append
  have long : 5 ≤ compiled.listingName.toList.length := by
    rw [name, List.length_append]
    exact Nat.le_add_left 5 _
  refine ⟨⟨?_, ?_, ?_⟩, ?_⟩
  · exact List.ne_nil_of_length_pos (by omega)
  · rw [name, List.mem_append, not_or]
    exact ⟨slash, by decide⟩
  · intro h
    rw [h] at long
    exact absurd long (by decide)
  · intro h
    rw [h] at long
    exact absurd long (by decide)

end

/-! ## The names of what is planned -/

/-- A plan whose path ends in a name. -/
structure Planned.EndsIn (plan : Planned) (name : List Char) : Prop where
  isSegment : IsSegment name
  endsIn : ∀ path, plan.target? = some path → ∃ before, path.EndsIn before name

/-- A plan writes to a path with the file name of a unit's listing. -/
def Planned.IsNamesake (plan : Planned) (unit : SourceUnit × Compiled) : Prop :=
  ∃ path, plan.target? = some path ∧ path.fileName? = some unit.2.listingName

/-- The paths of the code files of a run. -/
def codePaths (config : Config) (root : Path) (isDirectory : Bool) (units : List SourceUnit) : List Path :=
  if config.combine && isDirectory && units.all SourceUnit.isCompiled then
    [combinedPath root config.output? config.outputExtension]
  else (compiledUnits units).map fun unit => config.codePath unit.1

/-- A plan for a code file of a run. -/
def IsCode (config : Config) (root : Path) (isDirectory : Bool) (units : List SourceUnit) (plan : Planned) : Prop :=
  ∃ path ∈ codePaths config root isDirectory units, plan.target? = some path

/-- Two files of a run of which one can be written over the other: the listings of two classes with one name, or a listing
and a code file that has its name. -/
inductive Clash (config : Config) (root : Path) (isDirectory : Bool) (units : List SourceUnit) :
    Planned → Planned → Prop where
  | listings {unit unit' : SourceUnit × Compiled} {plan other : Planned}
      (order : [unit, unit'].Sublist (compiledUnits units)) (hp : listingPlan? config unit = some plan)
      (ho : listingPlan? config unit' = some other)
      (same : unit.2.compiledClass.name = unit'.2.compiledClass.name) : Clash config root isDirectory units plan other
  | codeFirst {unit : SourceUnit × Compiled} {code plan : Planned} (hc : IsCode config root isDirectory units code)
      (hu : unit ∈ compiledUnits units) (hp : listingPlan? config unit = some plan) (same : code.IsNamesake unit) :
      Clash config root isDirectory units code plan
  | listingFirst {unit : SourceUnit × Compiled} {code plan : Planned} (hc : IsCode config root isDirectory units code)
      (hu : unit ∈ compiledUnits units) (hp : listingPlan? config unit = some plan) (same : code.IsNamesake unit) :
      Clash config root isDirectory units plan code

/-- What is known of the units of a run. -/
structure AreUnits (units : List SourceUnit) : Prop where
  named : ∀ unit ∈ units, ∃ before name, unit.source.EndsIn before name ∧ IsFileName name
  siblings : units.Pairwise fun unit other => Siblings unit.source other.source
  isFileName_listing : ∀ unit ∈ compiledUnits units, IsFileName unit.2.listingName.toList

section

variable {config : Config} {options : UnitOptions} {root : Path} {tree before : FileTree} {sources : List Path}
  {units : List SourceUnit} {isCombined isDirectory : Bool} {unit unit' : SourceUnit × Compiled}
  {plan other code : Planned} {name name' : List Char}

theorem AreSources.areUnits (h : AreSources before sources) (options : UnitOptions) :
    AreUnits (unitsOf options before sources) where
  named unit hu := by
    obtain ⟨source, hsource, rfl⟩ := List.mem_map.mp hu
    rw [compileSource_source]
    exact h.named source hsource
  siblings := by
    rw [unitsOf, List.pairwise_map]
    simpa only [compileSource_source] using h.siblings
  isFileName_listing unit hu :=
    isFileName_listingName (mem_compiledUnits.mp hu).1 (mem_compiledUnits.mp hu).2

/-- Files in one place have one name. -/
theorem Meet.name_eq (h : Meet tree plan other) (hw : tree.WellFormed) (hp : plan.EndsIn name)
    (ho : other.EndsIn name') : IsFileName name ∧ name = name' := by
  obtain ⟨path, path', place, hpath, hpath', hf, hl, hl'⟩ := h
  obtain ⟨_, ends⟩ := hp.endsIn path hpath
  obtain ⟨_, ends'⟩ := ho.endsIn path' hpath'
  obtain ⟨isFileName, last⟩ := hw.name_of_isFile ends hp.isSegment hl hf
  obtain ⟨-, last'⟩ := hw.name_of_isFile ends' ho.isSegment hl' hf
  rw [last] at last'
  exact ⟨isFileName, String.ofList_injective (Option.some.inj last')⟩

theorem codePlan_endsIn {source : List Char} {lead : List Char} (hs : unit.1.source.EndsIn lead source)
    (hn : IsFileName source) (he : '/' ∉ config.outputExtension.toList) :
    (codePlan config unit).EndsIn (replacedName source config.outputExtension) where
  isSegment := isSegment_replacedName hn he
  endsIn path hpath := by
    obtain rfl := Option.some.inj hpath
    exact ⟨_, hs.outputPath_eq hn config.output?⟩

theorem exists_combinedPlan_endsIn (root : Path) (units : List SourceUnit) (he : '/' ∉ config.outputExtension.toList) :
    ∃ stem, stem ≠ [] ∧ (combinedPlan config root units).EndsIn (stem ++ '.' :: config.outputExtension.toList) := by
  obtain ⟨lead, stem, hs, slash, ends⟩ := root.exists_combinedPath_endsIn config.output? he
  refine ⟨stem, hs, ⟨by simp, ?_, ?_⟩, ?_⟩
  · rw [List.mem_append, not_or, List.mem_cons, not_or]
    exact ⟨slash, by decide, he⟩
  · intro h
    rcases List.append_eq_singleton_iff.mp h with ⟨nil, -⟩ | ⟨-, nil⟩
    · exact hs nil
    · cases nil
  · intro path hpath
    obtain rfl := Option.some.inj hpath
    exact ⟨lead, ends⟩

theorem listingPlan_endsIn (h : AreUnits units) (hu : unit ∈ compiledUnits units)
    (hp : listingPlan? config unit = some plan) : plan.EndsIn unit.2.listingName.toList where
  isSegment := (h.isFileName_listing unit hu).toIsSegment
  endsIn path hpath := by
    obtain ⟨text, -, rfl⟩ := Option.map_eq_some_iff.mp hp
    obtain rfl := Option.some.inj hpath
    exact Path.exists_endsIn_withFileName _ (h.isFileName_listing unit hu).slash

theorem isCode_combinedPlan (combining : (config.combine && isDirectory && units.all SourceUnit.isCompiled) = true) :
    IsCode config root isDirectory units (combinedPlan config root units) := by
  rw [IsCode, codePaths, if_pos combining]
  exact ⟨_, List.mem_singleton_self _, rfl⟩

theorem isCode_codePlan (separate : (config.combine && isDirectory && units.all SourceUnit.isCompiled) = false)
    (hu : unit ∈ compiledUnits units) : IsCode config root isDirectory units (codePlan config unit) := by
  rw [IsCode, codePaths, separate, if_neg Bool.false_ne_true]
  exact ⟨_, List.mem_map_of_mem hu, rfl⟩

/-- Every code file of a run has a name. -/
theorem IsCode.exists_endsIn (hc : IsCode config root isDirectory units code) (h : AreUnits units)
    (he : '/' ∉ config.outputExtension.toList) : ∃ name, code.EndsIn name := by
  obtain ⟨path, hpath, htarget⟩ := hc
  have ends {name : List Char} {plan : Planned} (ht : plan.target? = some path) (hp : plan.EndsIn name) :
      ∃ name, code.EndsIn name := ⟨name, hp.isSegment, fun other hother => hp.endsIn other (by rwa [ht, ← htarget])⟩
  rw [codePaths] at hpath
  split at hpath
  · obtain rfl := List.mem_singleton.mp hpath
    obtain ⟨stem, -, combined⟩ := exists_combinedPlan_endsIn root units he
    exact ends rfl combined
  · obtain ⟨unit, hu, rfl⟩ := List.mem_map.mp hpath
    obtain ⟨_, _, source, isFileName⟩ := h.named _ (mem_compiledUnits.mp hu).1
    have named : (codePlan config unit).EndsIn _ := codePlan_endsIn source isFileName he
    exact ends rfl named

/-- A code file that is written to the place of a listing has its name. -/
theorem Meet.isNamesake (hs : Meet tree code plan) (hw : tree.WellFormed) (h : AreUnits units)
    (he : '/' ∉ config.outputExtension.toList) (hc : IsCode config root isDirectory units code)
    (hu : unit ∈ compiledUnits units) (hp : listingPlan? config unit = some plan) : code.IsNamesake unit := by
  obtain ⟨name, ends⟩ := hc.exists_endsIn h he
  obtain ⟨isFileName, rfl⟩ := hs.name_eq hw ends (listingPlan_endsIn h hu hp)
  obtain ⟨path, _, _, hpath, -⟩ := hs
  obtain ⟨_, ends⟩ := ends.endsIn path hpath
  refine ⟨path, hpath, ?_⟩
  rw [ends.fileName?_eq isFileName, String.ofList_toList]

/-- A code file and a listing that share a place clash, whichever is written first. -/
theorem Meet.clash (hs : Meet tree code plan) (hw : tree.WellFormed) (h : AreUnits units)
    (he : '/' ∉ config.outputExtension.toList) (hc : IsCode config root isDirectory units code)
    (hu : unit ∈ compiledUnits units) (hp : listingPlan? config unit = some plan) :
    Clash config root isDirectory units code plan ∧ Clash config root isDirectory units plan code :=
  have same := hs.isNamesake hw h he hc hu hp
  ⟨.codeFirst hc hu hp same, .listingFirst hc hu hp same⟩

/-- The code of different sources of a directory is written to different places. -/
theorem Siblings.locate?_ne {source other : Path} {place : Location} (h : Siblings source other) (hw : tree.WellFormed)
    (he : '/' ∉ config.outputExtension.toList) (hf : tree.isFile place)
    (hl : tree.locate? (outputPath source config.output? config.outputExtension) = some place) :
    tree.locate? (outputPath other config.output? config.outputExtension) ≠ some place := by
  intro hl'
  obtain ⟨lead, stem, stem', suffix, splits, splits', different⟩ := h
  obtain ⟨isFileName, last⟩ := hw.name_of_isFile (splits.endsIn.outputPath_eq splits.isFileName config.output?)
    (isSegment_replacedName splits.isFileName he) hl hf
  obtain ⟨-, last'⟩ := hw.name_of_isFile (splits'.endsIn.outputPath_eq splits'.isFileName config.output?)
    (isSegment_replacedName splits'.isFileName he) hl' hf
  rw [last] at last'
  have same := String.ofList_injective (Option.some.inj last')
  exact different (eq_of_replacedName splits.stem_ne_nil splits.suffix_dot splits'.stem_ne_nil same isFileName.ne_dots)

theorem Siblings.not_meet (h : Siblings unit.1.source unit'.1.source) (hw : tree.WellFormed)
    (he : '/' ∉ config.outputExtension.toList) : ¬Meet tree (codePlan config unit) (codePlan config unit') := by
  rintro ⟨path, path', place, hpath, hpath', hf, hl, hl'⟩
  obtain rfl := Option.some.inj hpath
  obtain rfl := Option.some.inj hpath'
  exact h.locate?_ne hw he hf hl hl'

theorem mem_plansFor (h : plan ∈ plansFor config isCombined unit) :
    isCombined = false ∧ plan = codePlan config unit ∨ listingPlan? config unit = some plan := by
  rw [plansFor, List.mem_append, Option.mem_toList] at h
  refine h.imp_left fun h => ?_
  cases isCombined with
  | false => exact ⟨rfl, List.mem_singleton.mp h⟩
  | true => cases h

/-- Two files of different units that share a place are a listing and a namesake. -/
theorem clash_of_meet (hs : Meet tree plan other) (hw : tree.WellFormed) (h : AreUnits units)
    (he : '/' ∉ config.outputExtension.toList) (order : [unit, unit'].Sublist (compiledUnits units))
    (isCode : isCombined = false → ∀ unit ∈ compiledUnits units,
      IsCode config root isDirectory units (codePlan config unit))
    (siblings : Siblings unit.1.source unit'.1.source) (hp : plan ∈ plansFor config isCombined unit)
    (ho : other ∈ plansFor config isCombined unit') : Clash config root isDirectory units plan other := by
  have hu : unit ∈ compiledUnits units := order.subset List.mem_cons_self
  have hu' : unit' ∈ compiledUnits units := order.subset (List.mem_cons_of_mem _ List.mem_cons_self)
  -- two code files, a code file and a listing in either order, two listings
  rcases mem_plansFor hp with ⟨separate, rfl⟩ | hlisting <;> rcases mem_plansFor ho with ⟨separate, rfl⟩ | hlisting'
  · exact absurd hs (siblings.not_meet hw he)
  · exact (hs.clash hw h he (isCode separate unit hu) hu' hlisting').1
  · exact (hs.symm.clash hw h he (isCode separate unit' hu') hu hlisting).2
  · obtain ⟨-, same⟩ := hs.name_eq hw (listingPlan_endsIn h hu hlisting) (listingPlan_endsIn h hu' hlisting')
    refine .listings order hlisting hlisting' (String.toList_injective ?_)
    rw [Compiled.listingName, Compiled.listingName, String.toList_append, String.toList_append] at same
    exact List.append_cancel_right same

/-- The files of all units share places only in a clash. -/
theorem pairwise_plansFor (hw : tree.WellFormed) (h : AreUnits units) (he : '/' ∉ config.outputExtension.toList)
    (isCode : isCombined = false → ∀ unit ∈ compiledUnits units,
      IsCode config root isDirectory units (codePlan config unit)) :
    ((compiledUnits units).flatMap (plansFor config isCombined)).Pairwise fun plan other =>
      Meet tree plan other → Clash config root isDirectory units plan other := by
  rw [List.pairwise_flatMap]
  constructor
  · intro unit hu
    rw [plansFor, List.pairwise_append]
    refine ⟨?_, ?_, ?_⟩
    · split <;> simp
    · cases listingPlan? config unit <;> simp
    · intro code hcode plan hplan hs
      split at hcode
      · cases hcode
      · next separate =>
        obtain rfl := List.mem_singleton.mp hcode
        rw [Option.mem_toList] at hplan
        rw [Bool.not_eq_true] at separate
        exact (hs.clash hw h he (isCode separate unit hu) hu hplan).1
  · have siblings : (compiledUnits units).Pairwise fun unit unit' => Siblings unit.1.source unit'.1.source := by
      refine List.Pairwise.filterMap _ (fun unit unit' hsiblings pair hpair pair' hpair' => ?_) h.siblings
      obtain ⟨_, -, rfl⟩ := Option.map_eq_some_iff.mp hpair
      obtain ⟨_, -, rfl⟩ := Option.map_eq_some_iff.mp hpair'
      exact hsiblings
    rw [List.pairwise_iff_forall_sublist] at siblings ⊢
    intro unit unit' order plan hplan other hother hs
    exact clash_of_meet hs hw h he order isCode (siblings order) hplan hother

/-- Two files of a run share a place only in a clash. -/
theorem pairwise_planOutputs (hw : tree.WellFormed) (h : AreUnits units) (he : '/' ∉ config.outputExtension.toList)
    (root : Path) (isDirectory : Bool) :
    (planOutputs config root isDirectory units).Pairwise fun plan other =>
      Meet tree plan other → Clash config root isDirectory units plan other := by
  have separately (separate : (config.combine && isDirectory && units.all SourceUnit.isCompiled) = false) :
      ((compiledUnits units).flatMap (plansFor config false)).Pairwise fun plan other =>
        Meet tree plan other → Clash config root isDirectory units plan other :=
    pairwise_plansFor hw h he fun _ _ hu => isCode_codePlan separate hu
  rw [planOutputs_eq]
  split
  · next combining =>
    split
    · next all =>
      refine List.pairwise_cons.mpr ⟨fun plan hplan hs => ?_, pairwise_plansFor hw h he nofun⟩
      obtain ⟨unit, hu, hplan⟩ := List.mem_flatMap.mp hplan
      rcases mem_plansFor hplan with ⟨absurd, -⟩ | hlisting
      · cases absurd
      · exact (hs.clash hw h he (isCode_combinedPlan (by rw [combining, all]; rfl)) hu hlisting).1
    · next failed =>
      refine List.pairwise_cons.mpr ⟨fun plan _ hs => ?_, separately ?_⟩
      · obtain ⟨_, _, _, skipped, -⟩ := hs
        cases skipped
      · rw [Bool.not_eq_true] at failed
        rw [failed, Bool.and_false]
  · next separate =>
    rw [Bool.not_eq_true] at separate
    refine separately ?_
    rw [separate, Bool.false_and]

/-- What is written is a code file or a listing. All units are combined only if all were compiled. -/
theorem mem_planOutputs (hp : plan ∈ planOutputs config root isDirectory units) {path : Path}
    (ht : plan.target? = some path) :
    config.combine = true ∧ units.all SourceUnit.isCompiled = true ∧ plan = combinedPlan config root units ∨
      ∃ unit ∈ compiledUnits units, plan = codePlan config unit ∨ listingPlan? config unit = some plan := by
  have ofUnits (isCombined : Bool) (hp : plan ∈ (compiledUnits units).flatMap (plansFor config isCombined)) :
      ∃ unit ∈ compiledUnits units, plan = codePlan config unit ∨ listingPlan? config unit = some plan := by
    obtain ⟨unit, hu, hplan⟩ := List.mem_flatMap.mp hp
    exact ⟨unit, hu, (mem_plansFor hplan).imp_left And.right⟩
  rw [planOutputs_eq] at hp
  split at hp
  · next combining =>
    split at hp
    · next all =>
      rcases List.mem_cons.mp hp with rfl | hp
      · exact .inl ⟨(Bool.and_eq_true_iff.mp combining).1, all, rfl⟩
      · exact .inr (ofUnits true hp)
    · rcases List.mem_cons.mp hp with rfl | hp
      · cases ht
      · exact .inr (ofUnits false hp)
  · exact .inr (ofUnits false hp)

end

/-! ## What a build comes to -/

/-- A build that came to outputs: what its units are, and that everything that was planned for them was performed. -/
structure Built (config : Config) (options : UnitOptions) (root : Path) (before : FileTree) (units : List SourceUnit)
    (outputs : List Output) (after : FileTree) : Prop where
  sources : sourcesOf root config.sourceExtension (before.look root) = .ok (units.map (·.source))
  units_eq : units = unitsOf options before (units.map (·.source))
  areUnits : AreUnits units
  length_eq : (planOutputs config root (before.look root).isDirectory units).length = outputs.length
  performed : Performed before ((planOutputs config root (before.look root).isDirectory units).zip outputs) after
  wellFormed : after.WellFormed
  /-- The paths of sources lead where they led. -/
  locate?_eq : ∀ unit ∈ units, after.locate? unit.source = before.locate? unit.source

section

variable {config : Config} {options : UnitOptions} {root : Path} {before after : FileTree} {units : List SourceUnit}
  {outputs : List Output}

theorem FileTree.WellFormed.built {jobs : Nat} (hw : before.WellFormed)
    (h : buildOn config options jobs root before = (.ok (units, outputs), after)) :
    Built config options root before units outputs after := by
  obtain ⟨sources, hs, rfl, hrun⟩ := buildOn_eq_ok_iff.mp h
  obtain ⟨length_eq, performed⟩ := hw.performed hrun
  have areSources := hw.areSources hs
  refine ⟨?_, ?_, areSources.areUnits options, length_eq, performed, performed.wellFormed hw, fun unit hu => ?_⟩
  · rw [map_source_unitsOf, hs]
  · rw [map_source_unitsOf]
  · obtain ⟨source, hsource, rfl⟩ := List.mem_map.mp hu
    rw [compileSource_source]
    exact areSources.locate?_eq after performed.grows source hsource

/-- Outputs of plans that do not meet lead to different places. -/
theorem Built.apart (h : Built config options root before units outputs after)
    (hp : (planOutputs config root (before.look root).isDirectory units).Pairwise fun plan other =>
      ¬Meet after plan other) :
    Apart after outputs := by
  have apart := h.performed.apart (by rwa [List.map_fst_zip (Nat.le_of_eq h.length_eq)])
  rwa [List.map_snd_zip (Nat.le_of_eq h.length_eq.symm)] at apart

end

end JackCompiler
