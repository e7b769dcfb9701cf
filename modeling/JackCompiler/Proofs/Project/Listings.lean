import JackCompiler.Proofs.Project.Names

/-!
# What a run writes over its own outputs

With listings, an output is written over another only in a clash: two classes have one name, or a code file has the name
of a listing. An output that no later one meets holds its text at the end. So all outputs of a run stay when the names of
its classes keep them apart (`NamesApart`). Main statement: `outputs_meet_in_clashes`. Two sources that declare classes of
one name lose a listing (`listing_of_same_class_lost`).
-/

namespace JackCompiler

open FileTree

/-- The classes of a run have different names, and no code file has the name of a listing. -/
structure NamesApart (config : Config) (root : Path) (isDirectory : Bool) (units : List SourceUnit) : Prop where
  classes : (compiledUnits units).Pairwise fun unit other =>
    unit.2.compiledClass.name ≠ other.2.compiledClass.name
  codes : ∀ path ∈ codePaths config root isDirectory units, ∀ unit ∈ compiledUnits units,
    path.fileName? ≠ some unit.2.listingName

section

variable {config : Config} {options : UnitOptions} {root : Path} {before after : FileTree} {isDirectory : Bool}
  {units : List SourceUnit} {outputs : List Output} {plan other : Planned} {unit : SourceUnit × Compiled}

theorem NamesApart.not_isNamesake (h : NamesApart config root isDirectory units)
    (hc : IsCode config root isDirectory units plan) (hu : unit ∈ compiledUnits units) : ¬plan.IsNamesake unit := by
  rintro ⟨path, hpath, name⟩
  obtain ⟨code, hcode, hpath'⟩ := hc
  obtain rfl := Option.some.inj (hpath.symm.trans hpath')
  exact h.codes _ hcode unit hu name

/-- Names that are kept apart do not clash. -/
theorem NamesApart.not_clash (h : NamesApart config root isDirectory units) :
    ¬Clash config root isDirectory units plan other := by
  intro clash
  cases clash with
  | listings order _ _ same => exact List.pairwise_iff_forall_sublist.mp h.classes order same
  | codeFirst hc hu _ same => exact h.not_isNamesake hc hu same
  | listingFirst hc hu _ same => exact h.not_isNamesake hc hu same

/-- Two outputs of a run are written to one place only in a clash, and an output whose place no later one is written to
holds its text at the end. When no names clash, the written paths are different, and all of them hold their texts. -/
theorem outputs_meet_in_clashes {jobs : Nat} (hw : before.WellFormed) (he : '/' ∉ config.outputExtension.toList)
    (h : buildOn config options jobs root before = (.ok (units, outputs), after)) :
    let planned := planOutputs config root (before.look root).isDirectory units
    planned.length = outputs.length ∧
      ((planned.zip outputs).Pairwise fun file later => ∀ path path', file.2 = .written path →
        later.2 = .written path' → after.locate? path = after.locate? path' →
          Clash config root (before.look root).isDirectory units file.1 later.1) ∧
      (∀ earlier later path text label,
        planned.zip outputs = earlier ++ (.write path text label, .written path) :: later →
        (∀ other, .written other ∈ later.map Prod.snd → after.locate? other ≠ after.locate? path) →
          after.read? path = some text.toUTF8) ∧
      (NamesApart config root (before.look root).isDirectory units →
        (writtenPaths outputs).Nodup ∧ List.Forall₂ (Planned.Tells after) planned outputs) := by
  intro planned
  have built := hw.built h
  have clashes := pairwise_planOutputs built.wellFormed built.areUnits he root (before.look root).isDirectory
  refine ⟨built.length_eq, ?_, ?_, ?_⟩
  · exact built.performed.pairwise_of_meet (by rwa [List.map_fst_zip (Nat.le_of_eq built.length_eq)])
  · intro earlier later path text label split alone
    have performed := built.performed
    rw [show (planOutputs config root _ units).zip outputs = _ from split] at performed
    exact performed.read?_eq alone
  · intro names
    have apart : Apart after outputs := by
      refine built.apart (clashes.imp fun clash => ?_)
      exact fun meet => names.not_clash (clash meet)
    exact ⟨apart.nodup_writtenPaths, built.performed.tells built.length_eq apart⟩

end

/-! ## Two sources in a directory -/

/-- A directory of two sources. -/
def pairOf (first second : String) : FileTree where
  directories := [["d"]]
  files := [(["d", "A.jack"], first.toUTF8), (["d", "B.jack"], second.toUTF8)]

theorem pairOf_wellFormed (first second : String) : (pairOf first second).WellFormed := by
  have places : (∀ place ∈ [["d"], ["d", "A.jack"], ["d", "B.jack"]], (∀ name ∈ place, IsFileName name.toList) ∧
      FileTree.isDirectory { directories := [["d"]] } place.dropLast) ∧
      (∀ place ∈ [["d", "A.jack"], ["d", "B.jack"]], FileTree.isDirectory { directories := [["d"]] } place = false) ∧
      [["d", "A.jack"], ["d", "B.jack"]].Nodup := by decide +kernel
  exact wellFormed_of_listed (fun place hplace => (places.1 place hplace).1) (fun place hplace => (places.1 place hplace).2)
    places.2.1 places.2.2 isDirectory_nil

theorem pairOf_sources (first second : String) :
    sourcesOf ⟨"d"⟩ "jack" ((pairOf first second).look ⟨"d"⟩) =
      .ok (["A.jack", "B.jack"].map fun name => (Path.mk "d").join ⟨name⟩) := by
  have found : (pairOf first second).look ⟨"d"⟩ = .directory [⟨"A.jack", true⟩, ⟨"B.jack", true⟩] := rfl
  exact sourcesOf_directory found (by decide +kernel) (by decide +kernel) (by decide)

/-- Two classes of different names. -/
def differentClasses : FileTree :=
  pairOf "class A \x7b \x7d" "class B \x7b \x7d"

/-- Two classes of one name. -/
def sameClasses : FileTree :=
  pairOf "class Main \x7b field int x; \x7d" "class Main \x7b \x7d"

/-- All outputs stay when the classes have different names, in a directory at the top, too. -/
theorem outputs_meet_in_clashes_differentClasses :
    ∃ units outputs after,
      buildOn { output? := some ⟨"/out"⟩ } { tokens := true } 1 ⟨"d"⟩ differentClasses = (.ok (units, outputs), after) ∧
      outputs = [.written ⟨"/out/A.vm"⟩, .written ⟨"/out/AT.xml"⟩, .written ⟨"/out/B.vm"⟩, .written ⟨"/out/BT.xml"⟩] ∧
      (writtenPaths outputs).Nodup ∧
      List.Forall₂ (Planned.Tells after) (planOutputs { output? := some ⟨"/out"⟩ } ⟨"d"⟩ true units) outputs := by
  have run : buildOn { output? := some ⟨"/out"⟩ } { tokens := true } 1 ⟨"d"⟩ differentClasses = (.ok (_, _), _) :=
    buildOn_eq_ok_iff.mpr ⟨_, pairOf_sources _ _, rfl, rfl⟩
  obtain ⟨-, -, -, kept⟩ := outputs_meet_in_clashes (pairOf_wellFormed _ _) (by decide) run
  refine ⟨_, _, _, run, by decide +kernel, kept ⟨?_, ?_⟩⟩
  · decide +kernel
  · decide +kernel

/-- The listing of a class is written over that of another with its name. -/
theorem listing_of_same_class_lost :
    ∃ units outputs after, buildOn {} { tokens := true } 1 ⟨"d"⟩ sameClasses = (.ok (units, outputs), after) ∧
      outputs = [.written ⟨"d/A.vm"⟩, .written ⟨"d/MainT.xml"⟩, .written ⟨"d/B.vm"⟩, .written ⟨"d/MainT.xml"⟩] ∧
      ¬(writtenPaths outputs).Nodup ∧
      ¬List.Forall₂ (Planned.Tells after) (planOutputs {} ⟨"d"⟩ true units) outputs := by
  refine ⟨_, _, _, buildOn_eq_ok_iff.mpr ⟨_, pairOf_sources _ _, rfl, rfl⟩, ?_, ?_, ?_⟩ <;> decide +kernel

end JackCompiler
