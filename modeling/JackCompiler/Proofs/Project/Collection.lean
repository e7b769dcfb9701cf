import JackCompiler.Proofs.Files.ByteOrder
import JackCompiler.Proofs.Project.Sources

/-!
# The sources in a directory

A file is a source when its name goes on, behind a last dot that something stands before, with the extension of sources
(`Entry.IsSource`). A directory that names no file twice has each of its sources collected once, in the order of the bytes
in the names; so the order of the listing does not matter. Main statement: `sources_are_collected`.
-/

namespace JackCompiler

/-! ## What is a source -/

/-- A name goes on with an extension behind its last dot, and something stands before that dot. -/
def HasSuffix (name suffix : List Char) : Prop :=
  ∃ stem, stem ≠ [] ∧ '.' ∉ suffix ∧ name = stem ++ '.' :: suffix

/-- A file with the extension of sources. -/
def Entry.IsSource (extension : String) (entry : Entry) : Prop :=
  entry.isFile ∧ HasSuffix entry.name.toList extension.toList

/-- The entries of a directory, in any order: every name can be one, and no two files share theirs. -/
structure IsListing (entries : List Entry) : Prop where
  isFileName : ∀ entry ∈ entries, IsFileName entry.name.toList
  apart : entries.Pairwise fun entry other => entry.isFile → other.isFile → entry.name ≠ other.name

section

variable {root : Path} {extension name : String} {entries entries' : List Entry}

/-- The extension of a name is what stands behind its last dot. -/
theorem extension?_eq_some_iff (hn : IsFileName name.toList) :
    (Path.mk name).extension? = some extension ↔ HasSuffix name.toList extension.toList := by
  have alone : (Path.mk name).EndsIn [] name.toList := ⟨rfl, .inl rfl⟩
  constructor
  · exact fun he => alone.exists_stem hn he
  · rintro ⟨stem, hs, hdot, hname⟩
    rw [alone.extension?_eq hn, hname, FileName.ofName_append hs hdot, Option.map_some, String.ofList_toList]

/-- The names that are collected are those of the sources. -/
theorem IsListing.mem_sourceNames (h : IsListing entries) :
    name ∈ sourceNames extension entries ↔ ∃ entry ∈ entries, entry.IsSource extension ∧ entry.name = name := by
  rw [JackCompiler.mem_sourceNames]
  refine exists_congr fun entry => and_congr_right fun hentry => ?_
  rw [Entry.IsSource, and_assoc, extension?_eq_some_iff (h.isFileName entry hentry)]

/-! ## The order of names -/

theorem namesInOrder_iff {a b : String} : namesInOrder a b = true ↔ ¬b < a := by
  rw [namesInOrder, Bool.not_eq_true', decide_eq_false_iff_not]

/-- Two names in both orders are the same. -/
theorem namesInOrder_antisymm {a b : String} (h : namesInOrder a b = true) (h' : namesInOrder b a = true) : a = b :=
  String.le_antisymm (namesInOrder_iff.mp h) (namesInOrder_iff.mp h')

theorem pairwise_namesInOrder (names : List String) :
    (names.mergeSort namesInOrder).Pairwise fun a b => namesInOrder a b = true := by
  refine List.pairwise_mergeSort (fun a b c hab hbc => ?_) (fun a b => ?_) names
  · rw [namesInOrder_iff] at hab hbc ⊢
    exact String.le_trans hab hbc
  · rw [Bool.or_eq_true, namesInOrder_iff, namesInOrder_iff]
    exact String.le_total a b

/-- The names that are collected increase in their bytes. -/
theorem IsListing.pairwise_bytes (h : IsListing entries) (extension : String) :
    (sourceNames extension entries).Pairwise fun a b => bytes a < bytes b := by
  refine (pairwise_namesInOrder _).imp₂ (fun a b ordered different => ?_) (nodup_sourceNames h.apart)
  refine bytes_lt_of_lt (Decidable.byContradiction fun notLess => different ?_)
  exact namesInOrder_antisymm ordered (namesInOrder_iff.mpr notLess)

/-- The names that are collected are the names of the sources in order. -/
theorem sourceNames_eq {names : List String}
    (hp : ((entries.filter fun entry => entry.isFile && (Path.mk entry.name).extension? = some extension).map
      (·.name)).Perm names) (ordered : names.Pairwise fun a b => namesInOrder a b = true) :
    sourceNames extension entries = names :=
  ((List.mergeSort_perm _ _).trans hp).eq_of_pairwise (fun _ _ _ _ => namesInOrder_antisymm) (pairwise_namesInOrder _)
    ordered

/-- The order of a listing does not matter. -/
theorem sourceNames_perm (h : entries.Perm entries') (extension : String) :
    sourceNames extension entries = sourceNames extension entries' :=
  sourceNames_eq (((h.filter _).map _).trans (List.mergeSort_perm _ _).symm) (pairwise_namesInOrder _)

/-! ## The sources -/

theorem sourcesOf_eq_error_iff :
    sourcesOf root extension (.directory entries) = .error (.noSources root.text extension) ↔
      sourceNames extension entries = [] := by
  cases hnames : sourceNames extension entries <;> simp [sourcesOf, hnames]

/-- The name of a file in a directory is the file name of the path that leads there. -/
theorem fileName?_join (hn : IsFileName name.toList) (root : Path) : (root.join ⟨name⟩).fileName? = some name := by
  rw [(root.endsIn_join hn.slash).fileName?_eq hn, String.ofList_toList]

/-- On every file system, collecting looks at the root once. A root that is a file is taken as it is. Of a directory the
sources are taken, each once and in the increasing order of the bytes in their names, whatever order they are listed in;
where there is none, that is the error. -/
theorem sources_are_collected (root : Path) (extension : String) :
    (∀ (m : Type → Type) [Monad m] [FileSystem m],
      (collectSources root extension : m _) = do return sourcesOf root extension (← FileSystem.look root)) ∧
    sourcesOf root extension .file = .ok [root] ∧
    ∀ entries, IsListing entries →
      ((∃ entry ∈ entries, entry.IsSource extension) →
        ∃ names : List String, sourcesOf root extension (.directory entries) = .ok (names.map fun name => root.join ⟨name⟩) ∧
          (∀ name, name ∈ names ↔ ∃ entry ∈ entries, entry.IsSource extension ∧ entry.name = name) ∧
          names.Pairwise (fun a b => bytes a < bytes b) ∧
          ∀ name ∈ names, (root.join ⟨name⟩).fileName? = some name) ∧
      (sourcesOf root extension (.directory entries) = .error (.noSources root.text extension) ↔
        ¬∃ entry ∈ entries, entry.IsSource extension) ∧
      ∀ entries', entries'.Perm entries →
        sourcesOf root extension (.directory entries') = sourcesOf root extension (.directory entries) := by
  refine ⟨fun _ => rfl, rfl, fun entries h => ⟨?_, ?_, fun entries' perm => ?_⟩⟩
  · rintro ⟨entry, hentry, isSource⟩
    have nonempty : sourceNames extension entries ≠ [] :=
      List.ne_nil_of_mem (h.mem_sourceNames.mpr ⟨entry, hentry, isSource, rfl⟩)
    refine ⟨sourceNames extension entries, sourcesOf_eq_ok_iff.mpr (.inr ⟨entries, rfl, nonempty, rfl⟩),
      fun name => h.mem_sourceNames, h.pairwise_bytes extension, fun name hname => ?_⟩
    obtain ⟨entry, hentry, -, rfl⟩ := h.mem_sourceNames.mp hname
    exact fileName?_join (h.isFileName entry hentry) root
  · rw [sourcesOf_eq_error_iff, List.eq_nil_iff_forall_not_mem]
    constructor
    · rintro none ⟨entry, hentry, isSource⟩
      exact none entry.name (h.mem_sourceNames.mpr ⟨entry, hentry, isSource, rfl⟩)
    · intro none name hname
      obtain ⟨entry, hentry, isSource, -⟩ := h.mem_sourceNames.mp hname
      exact none ⟨entry, hentry, isSource⟩
  · rw [sourcesOf, sourcesOf, sourceNames_perm perm]

end

/-- A directory with names that are no sources: without a stem, without a dot, with nothing behind it, of a directory. -/
def sampleEntries : List Entry :=
  [⟨"b.jack", true⟩, ⟨"ä.jack", true⟩, ⟨".jack", true⟩, ⟨"a.jack", true⟩, ⟨"jack", true⟩, ⟨"c.", true⟩, ⟨"d.jack", false⟩,
    ⟨"a.b.jack", true⟩, ⟨"..jack", true⟩]

theorem sampleEntries_isListing : IsListing sampleEntries := by
  refine ⟨?_, ?_⟩
  · decide +kernel
  · decide +kernel

/-- The sources of the sample are collected in order, also when it is listed backwards. A file with nothing behind its last
dot is the only one with the empty extension, and no file has an extension with a dot in it. -/
theorem sources_are_collected_samples :
    sourceNames "jack" sampleEntries = ["..jack", "a.b.jack", "a.jack", "b.jack", "ä.jack"] ∧
      (∃ names : List String, sourcesOf ⟨"src"⟩ "jack" (.directory sampleEntries.reverse) =
          .ok (names.map fun name => Path.join ⟨"src"⟩ ⟨name⟩) ∧ names.Pairwise fun a b => bytes a < bytes b) ∧
      sourceNames "" sampleEntries = ["c."] ∧
      sourcesOf ⟨"src"⟩ "b.jack" (.directory sampleEntries) = .error (.noSources "src" "b.jack") := by
  have sample (extension : String) := (sources_are_collected ⟨"src"⟩ extension).2.2 sampleEntries sampleEntries_isListing
  refine ⟨sourceNames_eq (by decide +kernel) (by decide +kernel), ?_,
    sourceNames_eq (by decide +kernel) (by decide +kernel), (sample "b.jack").2.1.mpr ?_⟩
  · have isSource : Entry.IsSource "jack" ⟨"b.jack", true⟩ := ⟨rfl, ['b'], by decide, by decide, by decide⟩
    obtain ⟨names, collected, -, increasing, -⟩ := (sample "jack").1 ⟨_, List.mem_cons_self, isSource⟩
    refine ⟨names, ?_, increasing⟩
    rw [(sample "jack").2.2 _ (List.reverse_perm _), collected]
  · rintro ⟨entry, -, -, stem, -, dot, -⟩
    exact dot (by decide)

end JackCompiler
