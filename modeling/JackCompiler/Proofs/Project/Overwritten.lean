import JackCompiler.Proofs.Project.Names

/-!
# When a run writes over its sources

Outputs and sources can stand in one directory, and nothing but their names keeps them apart. A code file is written over a
source only when the last part of its extension is that of the source, or when it has none and the source is named like a
stem; a listing only over a source with the extension `xml` (`Overwrites`). Main statement: a source that none of this
applies to (`Spared`) stays as it is, and the source that changes is one that a written path leads to
(`source_changes_only_by_name`). An extension for code that is the one for sources loses them (`source_overwritten`).
-/

namespace JackCompiler

open FileTree

/-- What stands behind the last dot of an extension, or all of it. -/
def lastExtension (extension : String) : String :=
  String.ofList (FileName.lastPart extension.toList)

/-- The outputs of a run that can be written over a source, by their names. -/
inductive Overwrites (config : Config) (options : UnitOptions) (root : Path) (units : List SourceUnit) (source : Path) :
    Path → Prop where
  | code {unit : SourceUnit} (hu : unit ∈ units) (name : (config.codePath unit).fileName? = source.fileName?)
      (extension : config.outputExtension ≠ "" → source.extension? = some (lastExtension config.outputExtension))
      (stem : config.outputExtension = "" → source.fileName? = unit.source.stem?) :
      Overwrites config options root units source (config.codePath unit)
  | combined (combine : config.combine = true)
      (name : (combinedPath root config.output? config.outputExtension).fileName? = source.fileName?)
      (extension : source.extension? = some (lastExtension config.outputExtension)) :
      Overwrites config options root units source (combinedPath root config.output? config.outputExtension)
  | listing {unit : SourceUnit × Compiled} (tokens : options.tokens = true) (hu : unit ∈ compiledUnits units)
      (name : source.fileName? = some unit.2.listingName) (extension : source.extension? = some "xml") :
      Overwrites config options root units source (listingPath (config.codePath unit.1) unit.2.compiledClass.name)

/-- A source whose name no output of a run can have. -/
structure Spared (config : Config) (options : UnitOptions) (units : List SourceUnit) (source : Path) : Prop where
  extension : config.outputExtension ≠ "" ∨ config.combine = true →
    source.extension? ≠ some (lastExtension config.outputExtension)
  stem : config.outputExtension = "" → ∀ unit ∈ units, source.fileName? ≠ unit.source.stem?
  listing : options.tokens = true → source.extension? ≠ some "xml"

section

variable {config : Config} {options : UnitOptions} {root : Path} {before after : FileTree} {units : List SourceUnit}
  {outputs : List Output} {unit : SourceUnit} {source path : Path}

/-- A source whose name no output can have is not written over. -/
theorem Spared.not_overwrites (h : Spared config options units source) :
    ¬Overwrites config options root units source path := by
  intro overwrites
  cases overwrites with
  | code hu _ extension stem =>
    by_cases empty : config.outputExtension = ""
    · exact h.stem empty _ hu (stem empty)
    · exact h.extension (.inl empty) (extension empty)
  | combined combine _ extension => exact h.extension (.inr combine) extension
  | listing tokens _ _ extension => exact h.listing tokens extension

/-- In a directory the extensions of a configuration keep outputs and sources apart. -/
theorem spared_of_extensions {sources : List Path} (hw : before.WellFormed)
    (hd : (before.look root).isDirectory = true)
    (hs : sourcesOf root config.sourceExtension (before.look root) = .ok sources) (nonempty : config.outputExtension ≠ "")
    (code : lastExtension config.outputExtension ≠ config.sourceExtension)
    (listing : options.tokens = true → config.sourceExtension ≠ "xml") (hsource : source ∈ sources) :
    Spared config options units source := by
  have extension := hw.extension?_of_mem hd hs hsource
  refine ⟨fun _ same => ?_, fun empty => absurd empty nonempty, fun tokens same => ?_⟩
  · rw [extension] at same
    exact code (Option.some.inj same).symm
  · rw [extension] at same
    exact listing tokens (Option.some.inj same)

/-- What is planned and has the file name of a source can be written over it. -/
theorem Built.overwrites_of_named {name lead : List Char} {plan : Planned} {isDirectory : Bool}
    (h : Built config options root before units outputs after) (he : '/' ∉ config.outputExtension.toList)
    (hsource : source.EndsIn lead name) (hn : IsFileName name)
    (hp : plan ∈ planOutputs config root isDirectory units) (ht : plan.target? = some path)
    (same : ∀ name', plan.EndsIn name' → name' = name) :
    Overwrites config options root units source path := by
  rcases mem_planOutputs hp ht with ⟨combine, -, rfl⟩ | ⟨unit, hu, rfl | hlisting⟩
  · obtain rfl := Option.some.inj ht
    obtain ⟨stem, hs, ends⟩ := exists_combinedPlan_endsIn root units he
    obtain rfl := same _ ends
    obtain ⟨_, ends⟩ := ends.endsIn _ rfl
    refine .combined combine ?_ (hsource.extension?_eq_lastPart hn hs)
    rw [ends.fileName?_eq hn, hsource.fileName?_eq hn]
  · obtain rfl := Option.some.inj ht
    obtain ⟨hmem, -⟩ := mem_compiledUnits.mp hu
    obtain ⟨_, unitName, ends, isFileName⟩ := h.areUnits.named _ hmem
    obtain rfl := same _ (codePlan_endsIn ends isFileName he)
    have replaced := replacedName_eq hn.ne_dots
    have stem := FileName.stem_ne_nil isFileName.ne_nil
    refine .code hmem ?_ (fun nonempty => ?_) (fun empty => ?_)
    · have written : (config.codePath unit.1).EndsIn _ _ := ends.outputPath_eq isFileName config.output?
      rw [written.fileName?_eq hn, hsource.fileName?_eq hn]
    · rw [Path.dotted, if_neg nonempty] at replaced
      rw [replaced] at hsource hn
      exact hsource.extension?_eq_lastPart hn stem
    · rw [Path.dotted, if_pos empty, List.append_nil] at replaced
      rw [hsource.fileName?_eq hn, replaced, ends.stem?_eq isFileName]
  · obtain ⟨hmem, hcompiled⟩ := mem_compiledUnits.mp hu
    have tokens : options.tokens = true := by
      by_contra off
      rw [Bool.not_eq_true] at off
      rw [listingPlan?, listing?_eq_none off (h.units_eq ▸ hmem) hcompiled] at hlisting
      cases hlisting
    obtain rfl := same _ (listingPlan_endsIn h.areUnits hu hlisting)
    obtain ⟨text, -, rfl⟩ := Option.map_eq_some_iff.mp hlisting
    obtain rfl := Option.some.inj ht
    refine .listing tokens hu ?_ ?_
    · rw [hsource.fileName?_eq hn, String.ofList_toList]
    -- the stem of a listing ends in a T, so it is never empty
    · have split : unit.2.listingName.toList = (unit.2.compiledClass.name.toList ++ ['T']) ++ '.' :: ['x', 'm', 'l'] := by
        simp [Compiled.listingName]
      rw [split] at hsource hn
      exact hsource.extension?_eq_lastPart hn (by simp)

/-- A source changes only when a path is written that leads to it, and that is a path with its name: never when its name
spares it. -/
theorem source_changes_only_by_name {jobs : Nat} (hw : before.WellFormed) (he : '/' ∉ config.outputExtension.toList)
    (h : buildOn config options jobs root before = (.ok (units, outputs), after)) (hu : unit ∈ units) :
    (after.read? unit.source = before.read? unit.source ∨
      ∃ path ∈ writtenPaths outputs, after.locate? path = after.locate? unit.source) ∧
    (∀ path ∈ writtenPaths outputs, after.locate? path = after.locate? unit.source →
      Overwrites config options root units unit.source path) ∧
    (Spared config options units unit.source →
      unit.source ∉ writtenPaths outputs ∧ after.read? unit.source = before.read? unit.source) := by
  have built := hw.built h
  obtain ⟨lead, name, ends, isFileName⟩ := built.areUnits.named unit hu
  have overwrites : ∀ path ∈ writtenPaths outputs, after.locate? path = after.locate? unit.source →
      Overwrites config options root units unit.source path := by
    intro path hpath same
    rw [mem_writtenPaths, ← List.map_snd_zip (Nat.le_of_eq built.length_eq.symm)] at hpath
    obtain ⟨place, hl, hf⟩ := built.performed.isFile_of_written hpath
    obtain ⟨⟨plan, _⟩, hmem, rfl⟩ := List.mem_map.mp hpath
    obtain ⟨text, label, rfl⟩ := built.performed.eq_write_of_mem hmem
    refine built.overwrites_of_named he ends isFileName (List.of_mem_zip hmem).1 rfl fun name' named => ?_
    obtain ⟨_, ends'⟩ := named.endsIn path rfl
    -- both paths lead to one place, and its last name is that of each
    obtain ⟨-, last'⟩ := built.wellFormed.name_of_isFile ends' named.isSegment hl hf
    have last := getLast?_of_locate? ends isFileName (same.symm.trans hl)
    exact String.ofList_injective (Option.some.inj (last'.symm.trans last))
  have stays : after.read? unit.source = before.read? unit.source ∨
      ∃ path ∈ writtenPaths outputs, after.locate? path = after.locate? unit.source := by
    rw [read?, read?, built.locate?_eq unit hu]
    cases hl : before.locate? unit.source with
    | none => exact .inl rfl
    | some place =>
      refine (built.performed.bytes?_eq_or place).imp id ?_
      rintro ⟨path, _, _, hmem, hpath, -⟩
      exact ⟨path, mem_writtenPaths.mpr (List.of_mem_zip hmem).2, hpath⟩
  refine ⟨stays, overwrites, fun spared => ⟨fun hpath => ?_, stays.resolve_right ?_⟩⟩
  · exact spared.not_overwrites (overwrites _ hpath rfl)
  · rintro ⟨path, hpath, same⟩
    exact spared.not_overwrites (overwrites path hpath same)

end

/-! ## One source in a directory -/

/-- A directory of one source. -/
def oneSource : FileTree where
  directories := [["d"]]
  files := [(["d", "Main.jack"], "class Main \x7b \x7d".toUTF8)]

theorem oneSource_wellFormed : oneSource.WellFormed :=
  wellFormed_of_listed (by decide +kernel) (by decide +kernel) (by decide +kernel) (by decide +kernel) isDirectory_nil

theorem oneSource_sources (root : Path) (found : oneSource.look root = .directory [⟨"Main.jack", true⟩]) :
    sourcesOf root "jack" (oneSource.look root) = .ok (["Main.jack"].map fun name => root.join ⟨name⟩) :=
  sourcesOf_directory found (by decide +kernel) (by decide +kernel) (by decide)

/-- The usual settings keep a source, with listings, too. -/
theorem source_changes_only_by_name_oneSource :
    ∃ units outputs after, buildOn {} { tokens := true } 1 ⟨"/d"⟩ oneSource = (.ok (units, outputs), after) ∧
      units.map (·.source) = [⟨"/d/Main.jack"⟩] ∧ writtenPaths outputs = [⟨"/d/Main.vm"⟩, ⟨"/d/MainT.xml"⟩] ∧
      ∀ unit ∈ units, unit.source ∉ writtenPaths outputs ∧ after.read? unit.source = oneSource.read? unit.source := by
  have sources := oneSource_sources ⟨"/d"⟩ (by decide +kernel)
  have run : buildOn {} { tokens := true } 1 ⟨"/d"⟩ oneSource = (.ok (_, _), _) :=
    buildOn_eq_ok_iff.mpr ⟨_, sources, rfl, rfl⟩
  refine ⟨_, _, _, run, by decide +kernel, by decide +kernel, fun unit hu => ?_⟩
  refine (source_changes_only_by_name oneSource_wellFormed (by decide) run hu).2.2 ?_
  obtain ⟨source, hsource, rfl⟩ := List.mem_map.mp hu
  rw [compileSource_source]
  exact spared_of_extensions oneSource_wellFormed (by decide +kernel) sources (by decide) (by decide +kernel) (by decide)
    hsource

/-- With the extension of sources for code, the code of a source is written over it. -/
theorem source_overwritten :
    ∃ config units outputs after, Config.read "jack.yaml" "output_ext: jack\n" = .ok config ∧
      buildOn config {} 1 ⟨"d"⟩ oneSource = (.ok (units, outputs), after) ∧
      units.map (·.source) = [⟨"d/Main.jack"⟩] ∧ outputs = [.written ⟨"d/Main.jack"⟩] ∧
      after.read? ⟨"d/Main.jack"⟩ ≠ oneSource.read? ⟨"d/Main.jack"⟩ := by
  have read : Config.read "jack.yaml" "output_ext: jack\n" = .ok { outputExtension := "jack" } := by
    have settings : (Config.read "jack.yaml" "output_ext: jack\n").toOption = some { outputExtension := "jack" } := by
      decide +kernel
    cases h : Config.read "jack.yaml" "output_ext: jack\n" <;> rw [h] at settings <;> cases settings
    rfl
  have found : oneSource.look ⟨"d"⟩ = .directory [⟨"Main.jack", true⟩] := by decide +kernel
  refine ⟨_, _, _, _, read, buildOn_eq_ok_iff.mpr ⟨_, oneSource_sources _ found, rfl, rfl⟩, ?_, ?_, ?_⟩ <;> decide +kernel

end JackCompiler
