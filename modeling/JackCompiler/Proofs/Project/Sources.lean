import JackCompiler.Project.Sources
import JackCompiler.Proofs.Files.Trees

/-!
# The sources of a run

The sources of a run are one file, or files of one directory that share the extension of sources and differ in their stems
(`FileTree.WellFormed.areSources`). Whatever happens to a tree that loses no directory, their paths go on leading where they
lead.
-/

namespace JackCompiler

/-- A path that ends in a file name with a stem and an extension. -/
structure Path.Splits (path : Path) (before stem suffix : List Char) : Prop where
  endsIn : path.EndsIn before (stem ++ '.' :: suffix)
  isFileName : IsFileName (stem ++ '.' :: suffix)
  stem_ne_nil : stem ≠ []
  suffix_dot : '.' ∉ suffix

/-- Two files of one directory that share their extension and differ in their stems. -/
def Siblings (source other : Path) : Prop :=
  ∃ before stem stem' suffix,
    source.Splits before stem suffix ∧ other.Splits before stem' suffix ∧ stem ≠ stem'

/-- What is known of the sources that are found in a tree. -/
structure AreSources (tree : FileTree) (sources : List Path) : Prop where
  named : ∀ source ∈ sources, ∃ before name, source.EndsIn before name ∧ IsFileName name
  siblings : sources.Pairwise Siblings
  locate?_eq : ∀ after, tree.Grows after → ∀ source ∈ sources, after.locate? source = tree.locate? source

section

variable {tree : FileTree} {root : Path} {extension name : String} {entries : List Entry} {found : Found}
  {sources : List Path}

theorem Siblings.symm {source other : Path} (h : Siblings source other) : Siblings other source := by
  obtain ⟨before, stem, stem', suffix, splits, splits', different⟩ := h
  exact ⟨before, stem', stem, suffix, splits', splits, different.symm⟩

theorem collectSources_run (root : Path) (extension : String) (tree : FileTree) :
    (collectSources root extension : StateM FileTree (Except FileError (List Path))).run tree =
      (sourcesOf root extension (tree.look root), tree) := rfl

theorem sourcesOf_eq_ok_iff :
    sourcesOf root extension found = .ok sources ↔
      found = .file ∧ sources = [root] ∨
        ∃ entries, found = .directory entries ∧ sourceNames extension entries ≠ [] ∧
          sources = (sourceNames extension entries).map fun name => root.join ⟨name⟩ := by
  cases found with
  | file => simp [sourcesOf, eq_comm]
  | nothing => simp [sourcesOf]
  | directory entries =>
    cases hnames : sourceNames extension entries <;> simp [sourcesOf, hnames, eq_comm]

theorem mem_sourceNames :
    name ∈ sourceNames extension entries ↔
      ∃ entry ∈ entries, entry.isFile ∧ (Path.mk entry.name).extension? = some extension ∧ entry.name = name := by
  simp [sourceNames, and_assoc]

/-- The sources of a directory that lists them in order. -/
theorem sourcesOf_directory {names : List String} (hfound : found = .directory entries)
    (hnames : (entries.filter fun entry => entry.isFile && (Path.mk entry.name).extension? = some extension).map
      (·.name) = names) (order : names.Pairwise fun name other => namesInOrder name other) (nonempty : names ≠ []) :
    sourcesOf root extension found = .ok (names.map fun name => root.join ⟨name⟩) := by
  have sorted : sourceNames extension entries = names := by
    rw [sourceNames, hnames]
    exact List.mergeSort_of_pairwise order
  exact sourcesOf_eq_ok_iff.mpr (.inr ⟨entries, hfound, by rwa [sorted], by rw [sorted]⟩)

/-- Names that are listed once are sources once. -/
theorem nodup_sourceNames
    (h : entries.Pairwise fun entry other => entry.isFile → other.isFile → entry.name ≠ other.name) :
    (sourceNames extension entries).Nodup := by
  rw [sourceNames, (List.mergeSort_perm _ _).nodup_iff, List.Nodup, List.pairwise_map]
  refine (List.pairwise_filter.mpr (h.imp fun different isSource isSource' => ?_))
  rw [Bool.and_eq_true] at isSource isSource'
  exact different isSource.1 isSource'.1

/-- A name that a source can have has a stem. -/
theorem splits_join (hn : IsFileName name.toList) (he : (Path.mk name).extension? = some extension) (root : Path) :
    ∃ stem, (root.join ⟨name⟩).Splits root.slashed stem extension.toList ∧
      name.toList = stem ++ '.' :: extension.toList := by
  have alone : (Path.mk name).EndsIn [] name.toList := ⟨rfl, .inl rfl⟩
  obtain ⟨stem, hs, hdot, hname⟩ := alone.exists_stem hn he
  exact ⟨stem, ⟨hname ▸ root.endsIn_join hn.slash, hname ▸ hn, hs, hdot⟩, hname⟩

theorem Path.Splits.fileName?_eq {path : Path} {before stem suffix : List Char} (h : path.Splits before stem suffix) :
    path.fileName? = some (String.ofList (stem ++ ['.']) ++ String.ofList suffix) := by
  rw [h.endsIn.fileName?_eq h.isFileName, ← String.ofList_append, List.append_assoc]
  rfl

/-- The names of sources in a directory are file names with the extension of sources. -/
theorem FileTree.WellFormed.of_mem_sourceNames {place : Location} {path : Path} (h : tree.WellFormed)
    (hname : name ∈ sourceNames extension (tree.entries path place)) :
    IsFileName name.toList ∧ (Path.mk name).extension? = some extension := by
  obtain ⟨entry, hentry, isFile, hextension, rfl⟩ := mem_sourceNames.mp hname
  exact ⟨h.isFileName _ (.inr (FileTree.isFile_of_mem_entries hentry isFile)) _ (by simp), hextension⟩

/-- The sources in a well-formed tree are files of one directory, or one file. -/
theorem FileTree.WellFormed.areSources (h : tree.WellFormed)
    (hs : sourcesOf root extension (tree.look root) = .ok sources) : AreSources tree sources := by
  rcases sourcesOf_eq_ok_iff.mp hs with ⟨hfound, rfl⟩ | ⟨entries, hfound, -, rfl⟩
  · obtain ⟨place, hl, hf⟩ := FileTree.look_eq_file hfound
    refine ⟨?_, List.pairwise_singleton _ _, ?_⟩
    · intro source hsource
      rw [List.mem_singleton.mp hsource]
      exact h.exists_endsIn_of_isFile hl hf
    · intro after grows source hsource
      rw [List.mem_singleton.mp hsource, hl]
      exact grows.locate?_eq hl
  · obtain ⟨place, hl, hd, rfl⟩ := FileTree.look_eq_directory hfound
    refine ⟨?_, ?_, ?_⟩
    · rintro _ hsource
      obtain ⟨name, hname, rfl⟩ := List.mem_map.mp hsource
      have isFileName := (h.of_mem_sourceNames hname).1
      exact ⟨_, _, root.endsIn_join isFileName.slash, isFileName⟩
    · rw [List.pairwise_map]
      refine (List.Pairwise.and_mem.mp (nodup_sourceNames (h.pairwise_entries root place))).imp ?_
      rintro name name' ⟨hname, hname', different⟩
      obtain ⟨isFileName, hextension⟩ := h.of_mem_sourceNames hname
      obtain ⟨isFileName', hextension'⟩ := h.of_mem_sourceNames hname'
      obtain ⟨stem, hsplits, heq⟩ := splits_join isFileName hextension root
      obtain ⟨stem', hsplits', heq'⟩ := splits_join isFileName' hextension' root
      refine ⟨_, stem, stem', _, hsplits, hsplits', ?_⟩
      rintro rfl
      exact different (String.toList_injective (heq.trans heq'.symm))
    · rintro after grows _ hsource
      obtain ⟨name, hname, rfl⟩ := List.mem_map.mp hsource
      have isFileName := (h.of_mem_sourceNames hname).1
      rw [FileTree.locate?_join hl hd isFileName,
        FileTree.locate?_join (grows.locate?_eq hl) (grows.isDirectory place hd) isFileName]

/-- The sources in a directory have the extension of sources. -/
theorem FileTree.WellFormed.extension?_of_mem (h : tree.WellFormed) (hd : (tree.look root).isDirectory = true)
    (hs : sourcesOf root extension (tree.look root) = .ok sources) {source : Path} (hsource : source ∈ sources) :
    source.extension? = some extension := by
  rcases sourcesOf_eq_ok_iff.mp hs with ⟨hfound, -⟩ | ⟨entries, hfound, -, rfl⟩
  · rw [hfound] at hd
    cases hd
  · obtain ⟨place, -, -, rfl⟩ := FileTree.look_eq_directory hfound
    obtain ⟨name, hname, rfl⟩ := List.mem_map.mp hsource
    obtain ⟨isFileName, hextension⟩ := h.of_mem_sourceNames hname
    have alone : (Path.mk name).EndsIn [] name.toList := ⟨rfl, .inl rfl⟩
    rw [(root.endsIn_join isFileName.slash).extension?_eq isFileName, ← alone.extension?_eq isFileName, hextension]

end

end JackCompiler
