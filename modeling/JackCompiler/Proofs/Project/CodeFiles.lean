import JackCompiler.Proofs.Project.Names
import Mathlib.Data.List.Pairwise

/-!
# What a run without listings writes

Without listings a run writes code files only: one for each unit that was compiled, or one for all of them. Different units
have different paths, but for one pair of names whose stems are dots (`Siblings.outputPath_ne`), and no text is written
over another. All other files stay as they are. Main statement: `build_writes_code`.
-/

namespace JackCompiler

open FileTree

/-- Two sources named with one dot and with two dots before an extension. An empty extension in its place leaves both times
the name of the parent. -/
def DotStems (source other : Path) : Prop :=
  ∃ suffix, source.fileName? = some (".." ++ suffix) ∧ other.fileName? = some ("..." ++ suffix)

/-- One output for each compiled unit, in order: its code at its path. -/
def TellsCode (config : Config) (units : List SourceUnit) (after : FileTree) (outputs : List Output) : Prop :=
  List.Forall₂ (fun unit output => output.Tells after (config.codePath unit.1) unit.2.text unit.1.source.text)
    (compiledUnits units) outputs

/-- What a run without listings comes to. -/
structure WritesCode (config : Config) (options : UnitOptions) (root : Path) (before : FileTree)
    (units : List SourceUnit) (outputs : List Output) (after : FileTree) : Prop where
  /-- The units are those of the sources, in their order, compiled from what the tree held. -/
  sources : sourcesOf root config.sourceExtension (before.look root) = .ok (units.map (·.source)) ∧
    units = unitsOf options before (units.map (·.source))
  /-- All units in one file. -/
  combined : config.combine = true → (before.look root).isDirectory = true → (∀ unit ∈ units, unit.isCompiled = true) →
    ∃ output, outputs = [output] ∧
      output.Tells after (combinedPath root config.output? config.outputExtension)
        (String.join ((compiledUnits units).map fun unit => unit.2.text))
        (combinedPath root config.output? config.outputExtension).text
  /-- One file for each compiled unit, as some failed. -/
  skipped : config.combine = true → (before.look root).isDirectory = true →
    (∃ unit ∈ units, unit.isCompiled = false) →
    ∃ own, outputs = .skipped (combinedPath root config.output? config.outputExtension) :: own ∧
      TellsCode config units after own
  /-- One file for each compiled unit, as that is wanted. -/
  perUnit : ¬(config.combine = true ∧ (before.look root).isDirectory = true) → TellsCode config units after outputs
  /-- Different units have different paths. -/
  paths : units.Pairwise fun unit other => config.codePath unit ≠ config.codePath other ∨
    config.outputExtension = "" ∧ (DotStems unit.source other.source ∨ DotStems other.source unit.source)
  /-- The written paths are different. -/
  nodup : (writtenPaths outputs).Nodup
  /-- A file is as it was, or a written path leads to it. -/
  unchanged : ∀ place, after.bytes? place = before.bytes? place ∨
    ∃ path ∈ writtenPaths outputs, after.locate? path = some place
  /-- Nothing is written to the path of a unit that failed. -/
  failed : ∀ unit ∈ units, unit.isCompiled = false → ∀ place, after.locate? (config.codePath unit) = some place →
    after.bytes? place = before.bytes? place

section

variable {config : Config} {options : UnitOptions} {root : Path} {before after tree : FileTree}
  {units : List SourceUnit} {outputs : List Output} {source other : Path}

/-- Different sources of a directory have different paths for their code, but for one pair of names. -/
theorem Siblings.outputPath_ne (h : Siblings source other) (dir? : Option Path) (extension : String) :
    outputPath source dir? extension ≠ outputPath other dir? extension ∨
      extension = "" ∧ (DotStems source other ∨ DotStems other source) := by
  obtain ⟨lead, stem, stem', suffix, splits, splits', different⟩ := h
  rw [or_iff_not_imp_left, not_not]
  intro same
  have names : replacedName (stem ++ '.' :: suffix) extension = replacedName (stem' ++ '.' :: suffix) extension := by
    have chars := congrArg Path.chars same
    rw [(splits.endsIn.outputPath_eq splits.isFileName dir?).chars_eq,
      (splits'.endsIn.outputPath_eq splits'.isFileName dir?).chars_eq] at chars
    exact List.append_cancel_left chars
  -- any other name determines the stem it comes from
  have parent : replacedName (stem ++ '.' :: suffix) extension = ['.', '.'] := by
    by_contra hne
    exact different (eq_of_replacedName splits.stem_ne_nil splits.suffix_dot splits'.stem_ne_nil names hne)
  rcases stem_of_replacedName splits.stem_ne_nil splits.suffix_dot parent with rfl | ⟨rfl, empty⟩ <;>
    rcases stem_of_replacedName splits'.stem_ne_nil splits'.suffix_dot (names ▸ parent) with rfl | ⟨rfl, empty'⟩
  · exact absurd rfl different
  · exact ⟨empty', .inl ⟨_, splits.fileName?_eq, splits'.fileName?_eq⟩⟩
  · exact ⟨empty, .inr ⟨_, splits'.fileName?_eq, splits.fileName?_eq⟩⟩
  · exact absurd rfl different

/-- Files without listings do not share places. -/
theorem AreUnits.not_meet (h : AreUnits units) (hw : tree.WellFormed) (he : '/' ∉ config.outputExtension.toList)
    (none : ∀ unit ∈ compiledUnits units, unit.2.listing? = none) (root : Path) (isDirectory : Bool) :
    (planOutputs config root isDirectory units).Pairwise fun plan other => ¬Meet tree plan other := by
  have absent {unit : SourceUnit × Compiled} {plan : Planned} (hu : unit ∈ compiledUnits units)
      (hp : listingPlan? config unit = some plan) : False := by
    rw [listingPlan?, none unit hu] at hp
    cases hp
  refine (pairwise_planOutputs hw h he root isDirectory).imp fun clash hs => ?_
  cases clash hs with
  | listings order hp _ _ => exact absent (order.subset List.mem_cons_self) hp
  | codeFirst _ hu hp _ => exact absent hu hp
  | listingFirst _ hu hp _ => exact absent hu hp

/-- What is planned without listings. -/
theorem flatMap_plansFor (none : ∀ unit ∈ compiledUnits units, unit.2.listing? = none) (isCombined : Bool) :
    (compiledUnits units).flatMap (plansFor config isCombined) =
      if isCombined then [] else (compiledUnits units).map (codePlan config) := by
  have plans : (compiledUnits units).flatMap (plansFor config isCombined) =
      (compiledUnits units).flatMap fun unit => if isCombined then [] else [codePlan config unit] := by
    refine List.flatMap_congr fun unit hu => ?_
    rw [plansFor, listingPlan?, none unit hu, Option.map_none, Option.toList_none, List.append_nil]
  rw [plans]
  cases isCombined with
  | false => exact List.map_eq_flatMap.symm
  | true => simp

/-- The outputs of a run without listings, by what is to be combined. -/
theorem tellsCode_of_tells {isDirectory : Bool} (none : ∀ unit ∈ compiledUnits units, unit.2.listing? = none)
    (h : List.Forall₂ (Planned.Tells after) (planOutputs config root isDirectory units) outputs) :
    if config.combine && isDirectory then
      if units.all SourceUnit.isCompiled then
        ∃ output, outputs = [output] ∧ (combinedPlan config root units).Tells after output
      else ∃ own, outputs = .skipped (combinedPath root config.output? config.outputExtension) :: own ∧
        TellsCode config units after own
    else TellsCode config units after outputs := by
  rw [planOutputs_eq, flatMap_plansFor none, flatMap_plansFor none, if_neg Bool.false_ne_true, if_pos rfl] at h
  split
  · next combining =>
    rw [if_pos combining] at h
    split
    · next all =>
      rw [if_pos all] at h
      obtain ⟨output, _, tells, rest, rfl⟩ := List.forall₂_cons_left_iff.mp h
      cases rest
      exact ⟨output, rfl, tells⟩
    · next failed =>
      rw [if_neg failed] at h
      obtain ⟨_, own, rfl, rest, rfl⟩ := List.forall₂_cons_left_iff.mp h
      exact ⟨own, rfl, List.forall₂_map_left_iff.mp rest⟩
  · next separate =>
    rw [if_neg separate] at h
    exact List.forall₂_map_left_iff.mp h

/-- Nothing is written to the path of a unit that failed. -/
theorem Built.bytes?_eq_of_failed {unit : SourceUnit} (h : Built config options root before units outputs after)
    (he : '/' ∉ config.outputExtension.toList)
    (none : ∀ unit ∈ compiledUnits units, unit.2.listing? = none) (hu : unit ∈ units)
    (failed : unit.isCompiled = false) {place : Location} (hl : after.locate? (config.codePath unit) = some place) :
    after.bytes? place = before.bytes? place := by
  rcases h.performed.bytes?_eq_or place with same | ⟨path, text, label, hmem, hl', hbytes⟩
  · exact same
  exfalso
  have hf : after.isFile place := by rw [isFile, hbytes]; rfl
  rcases mem_planOutputs (List.of_mem_zip hmem).1 rfl with ⟨-, all, -⟩ | ⟨other, hother, hcode | hlisting⟩
  · rw [List.all_eq_true.mp all unit hu] at failed
    cases failed
  · obtain ⟨hmem', hcompiled⟩ := mem_compiledUnits.mp hother
    have different : other.1 ≠ unit := by
      rintro rfl
      rw [isCompiled_of_compiled? hcompiled] at failed
      cases failed
    have symmetric : Std.Symm fun unit other : SourceUnit => Siblings unit.source other.source :=
      ⟨fun _ _ => Siblings.symm⟩
    have siblings : Siblings other.1.source unit.source := h.areUnits.siblings.forall hmem' hu different
    cases hcode
    exact siblings.locate?_ne h.wellFormed he hf hl' hl
  · rw [listingPlan?, none other hother] at hlisting
    cases hlisting

/-- A run without listings writes the code of its units and nothing else. -/
theorem build_writes_code {jobs : Nat} (hw : before.WellFormed) (he : '/' ∉ config.outputExtension.toList)
    (ht : options.tokens = false)
    (h : buildOn config options jobs root before = (.ok (units, outputs), after)) :
    WritesCode config options root before units outputs after := by
  have built := hw.built h
  have none : ∀ unit ∈ compiledUnits units, unit.2.listing? = none := fun unit hu => by
    obtain ⟨hmem, hc⟩ := mem_compiledUnits.mp hu
    exact listing?_eq_none ht (built.units_eq ▸ hmem) hc
  have apart := built.apart (built.areUnits.not_meet built.wellFormed he none root _)
  have tells := tellsCode_of_tells none (built.performed.tells built.length_eq apart)
  constructor
  case sources => exact ⟨built.sources, built.units_eq⟩
  case combined =>
    intro combine directory all
    rw [if_pos (by rw [combine, directory]; rfl), if_pos (List.all_eq_true.mpr all)] at tells
    exact tells
  case skipped =>
    rintro combine directory ⟨unit, hu, failed⟩
    rw [if_pos (by rw [combine, directory]; rfl), if_neg] at tells
    · exact tells
    · intro all
      rw [List.all_eq_true.mp all unit hu] at failed
      cases failed
  case perUnit =>
    intro separate
    rwa [if_neg (by rwa [Bool.and_eq_true])] at tells
  case paths =>
    exact built.areUnits.siblings.imp fun siblings => siblings.outputPath_ne config.output? config.outputExtension
  case nodup => exact apart.nodup_writtenPaths
  case unchanged =>
    intro place
    refine (built.performed.bytes?_eq_or place).imp_right ?_
    rintro ⟨path, _, _, hmem, hl, -⟩
    exact ⟨path, mem_writtenPaths.mpr (List.of_mem_zip hmem).2, hl⟩
  case failed =>
    intro unit hu failed place hl
    exact built.bytes?_eq_of_failed he none hu failed hl

end

/-! ## Some runs -/

/-- A directory of three sources, the second of which is empty, beside the one that the program works in. -/
def partlyGood : FileTree where
  directories := [["p"], ["w"]]
  files := [(["p", "A.jack"], "class A \x7b function void f() \x7b return; \x7d \x7d".toUTF8),
    (["p", "B.jack"], "".toUTF8), (["p", "C.jack"], "class C \x7b \x7d".toUTF8)]
  working := ["w"]

theorem partlyGood_wellFormed : partlyGood.WellFormed :=
  wellFormed_of_listed (by decide +kernel) (by decide +kernel) (by decide +kernel) (by decide +kernel) (by decide +kernel)

theorem partlyGood_sources :
    sourcesOf ⟨"../p"⟩ "jack" (partlyGood.look ⟨"../p"⟩) =
      .ok (["A.jack", "B.jack", "C.jack"].map fun name => (Path.mk "../p").join ⟨name⟩) := by
  have found : partlyGood.look ⟨"../p"⟩ = .directory [⟨"A.jack", true⟩, ⟨"B.jack", true⟩, ⟨"C.jack", true⟩] := by
    decide +kernel
  exact sourcesOf_directory found (by decide +kernel) (by decide +kernel) (by decide)

/-- A run that is to combine units of which one fails. The sources stand above the working directory, and the outputs go to
a directory at the top that is made for them. -/
theorem build_writes_code_partlyGood :
    ∃ units outputs after,
      buildOn { combine := true, output? := some ⟨"/out"⟩ } {} 2 ⟨"../p"⟩ partlyGood = (.ok (units, outputs), after) ∧
      WritesCode { combine := true, output? := some ⟨"/out"⟩ } {} ⟨"../p"⟩ partlyGood units outputs after ∧
      outputs = [.skipped ⟨"/out/p.vm"⟩, .written ⟨"/out/A.vm"⟩, .written ⟨"/out/C.vm"⟩] ∧
      after.read? ⟨"../out/A.vm"⟩ = some "function A.f 0\npush constant 0\nreturn\n".toUTF8 := by
  have run : buildOn { combine := true, output? := some ⟨"/out"⟩ } {} 2 ⟨"../p"⟩ partlyGood = (.ok (_, _), _) :=
    buildOn_eq_ok_iff.mpr ⟨_, partlyGood_sources, rfl, rfl⟩
  exact ⟨_, _, _, run, build_writes_code partlyGood_wellFormed (by decide) rfl run, by decide +kernel, by decide +kernel⟩

/-- A directory with the name of a class in it, and a source that is empty. -/
def namedLikeRoot : FileTree where
  directories := [["Main"]]
  files := [(["Main", "Bad.jack"], "".toUTF8), (["Main", "Main.jack"], "class Main \x7b \x7d".toUTF8)]

theorem namedLikeRoot_sources :
    sourcesOf ⟨"Main"⟩ "jack" (namedLikeRoot.look ⟨"Main"⟩) =
      .ok (["Bad.jack", "Main.jack"].map fun name => (Path.mk "Main").join ⟨name⟩) := by
  have found : namedLikeRoot.look ⟨"Main"⟩ = .directory [⟨"Bad.jack", true⟩, ⟨"Main.jack", true⟩] := by decide +kernel
  exact sourcesOf_directory found (by decide +kernel) (by decide +kernel) (by decide)

/-- A directory of two sources whose stems are dots. -/
def dotNamed : FileTree where
  directories := [["d"]]
  files := [(["d", "...jack"], "class A \x7b \x7d".toUTF8), (["d", "..jack"], "class B \x7b \x7d".toUTF8)]

theorem dotNamed_sources :
    sourcesOf ⟨"d"⟩ "jack" (dotNamed.look ⟨"d"⟩) =
      .ok (["...jack", "..jack"].map fun name => (Path.mk "d").join ⟨name⟩) := by
  have found : dotNamed.look ⟨"d"⟩ = .directory [⟨"...jack", true⟩, ⟨"..jack", true⟩] := by decide +kernel
  exact sourcesOf_directory found (by decide +kernel) (by decide +kernel) (by decide)

/-- The path of the combined file is skipped, yet a unit of that name is written to it; and two units that were compiled
have one path for their code. -/
theorem code_paths_meet :
    (∃ units outputs after, buildOn { combine := true } {} 1 ⟨"Main"⟩ namedLikeRoot = (.ok (units, outputs), after) ∧
      .skipped ⟨"Main/Main.vm"⟩ ∈ outputs ∧ namedLikeRoot.read? ⟨"Main/Main.vm"⟩ = none ∧
      (after.read? ⟨"Main/Main.vm"⟩).isSome) ∧
    ∃ units outputs after, buildOn { outputExtension := "" } {} 1 ⟨"d"⟩ dotNamed = (.ok (units, outputs), after) ∧
      (compiledUnits units).map (fun unit => Config.codePath { outputExtension := "" } unit.1) = [⟨"d/.."⟩, ⟨"d/.."⟩] := by
  constructor
  · refine ⟨_, _, _, buildOn_eq_ok_iff.mpr ⟨_, namedLikeRoot_sources, rfl, rfl⟩, ?_, ?_, ?_⟩ <;> decide +kernel
  · refine ⟨_, _, _, buildOn_eq_ok_iff.mpr ⟨_, dotNamed_sources, rfl, rfl⟩, ?_⟩
    decide +kernel

end JackCompiler
