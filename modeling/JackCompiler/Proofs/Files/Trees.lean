import JackCompiler.Files.Tree
import JackCompiler.Proofs.Files.Paths

/-!
# What operations do to a file tree

In a well-formed tree everything stands in a directory, nothing stands at a place twice, every name can be one, and the
program works in a directory (`FileTree.WellFormed`). Each operation keeps a tree well formed, and directories are never
lost, so a path that leads somewhere goes on leading there (`FileTree.Grows.locate?_eq`). Writing a file changes the bytes
at the place of its path and nowhere else, or nothing at all (`FileTree.WellFormed.writeFile_outcome`).
-/

namespace JackCompiler

namespace FileTree

/-- Whether a directory or a file stands at a place. -/
def Holds (tree : FileTree) (place : Location) : Prop :=
  tree.isDirectory place ∨ tree.isFile place

/-- A tree as the directories of a machine are one. -/
structure WellFormed (tree : FileTree) : Prop where
  isFileName : ∀ place, tree.Holds place → ∀ name ∈ place, IsFileName name.toList
  parent : ∀ place, tree.Holds place → tree.isDirectory place.dropLast
  /-- No place holds a directory and a file. -/
  apart : ∀ place, tree.isFile place → tree.isDirectory place = false
  nodup : (tree.files.map Prod.fst).Nodup
  working : tree.isDirectory tree.working

/-- A tree has all directories of another, and the program works in the same one. -/
structure Grows (before after : FileTree) : Prop where
  isDirectory : ∀ place, before.isDirectory place → after.isDirectory place
  working : after.working = before.working

/-- Two trees have the same files. -/
def SameFiles (before after : FileTree) : Prop :=
  ∀ place, after.bytes? place = before.bytes? place

theorem Grows.refl (tree : FileTree) : Grows tree tree :=
  ⟨fun _ h => h, rfl⟩

theorem Grows.trans {tree tree' tree'' : FileTree} (h : Grows tree tree') (h' : Grows tree' tree'') : Grows tree tree'' :=
  ⟨fun place hplace => h'.isDirectory place (h.isDirectory place hplace), h'.working.trans h.working⟩

theorem SameFiles.refl (tree : FileTree) : SameFiles tree tree := fun _ => rfl

section

variable {tree after : FileTree} {here place other : Location} {name : String} {names : List String} {bytes : ByteArray}

/-! ## Directories and files -/

@[simp] theorem isDirectory_nil : tree.isDirectory [] = true := rfl

theorem isDirectory_addDirectory :
    (tree.addDirectory place).isDirectory other ↔ tree.isDirectory other ∨ other = place := by
  simp [isDirectory, addDirectory, or_assoc]

theorem holds_addDirectory : (tree.addDirectory place).Holds other ↔ tree.Holds other ∨ other = place := by
  rw [Holds, isDirectory_addDirectory, or_right_comm]
  rfl

theorem isFile_iff_mem : tree.isFile place ↔ place ∈ tree.files.map Prod.fst := by
  rw [isFile, bytes?, List.lookup_isSome_iff, List.mem_map]
  refine exists_congr fun file => and_congr_right fun _ => ?_
  rw [beq_iff_eq, eq_comm]

theorem isFile_eq_false_iff : tree.isFile place = false ↔ tree.bytes? place = none := by
  rw [isFile, Option.isSome_eq_false_iff, Option.isNone_iff_eq_none]

/-- Looking up a place after the bytes at one place were replaced. -/
theorem lookup_replace (files : List (Location × ByteArray)) :
    (files.map fun file => if file.1 = place then (place, bytes) else file).lookup other =
      if other = place then (files.lookup other).map fun _ => bytes else files.lookup other := by
  induction files with
  | nil => simp
  | cons file files ih =>
    obtain ⟨key, value⟩ := file
    rw [List.map_cons]
    by_cases hkey : key = place
    · subst hkey
      rw [if_pos rfl, List.lookup_cons, List.lookup_cons, ih]
      by_cases hother : other = key
      · simp [hother]
      · simp [hother, beq_false_of_ne hother]
    · rw [if_neg hkey, List.lookup_cons, List.lookup_cons, ih]
      by_cases hother : other = key
      · simp [hother, hkey]
      · simp [beq_false_of_ne hother]

@[simp] theorem isDirectory_setBytes : (tree.setBytes place bytes).isDirectory other = tree.isDirectory other := by
  unfold setBytes
  split <;> rfl

@[simp] theorem working_setBytes : (tree.setBytes place bytes).working = tree.working := by
  unfold setBytes
  split <;> rfl

theorem grows_setBytes : Grows tree (tree.setBytes place bytes) where
  isDirectory other hother := by rwa [isDirectory_setBytes]
  working := working_setBytes

/-- Bytes are put at one place. -/
theorem bytes?_setBytes :
    (tree.setBytes place bytes).bytes? other = if other = place then some bytes else tree.bytes? other := by
  by_cases old : tree.isFile place = true
  · rw [setBytes, if_pos old, bytes?, lookup_replace]
    split
    · next same =>
      rw [same]
      obtain ⟨value, hvalue⟩ := Option.isSome_iff_exists.mp old
      rw [bytes?] at hvalue
      rw [hvalue]
      rfl
    · rfl
  · rw [Bool.not_eq_true, isFile_eq_false_iff, bytes?] at old
    rw [setBytes, isFile, bytes?, bytes?, old, Option.isSome_none, if_neg Bool.false_ne_true, List.lookup_append]
    split
    · next same =>
      rw [same, old]
      simp
    · next different => simp [List.lookup_cons, beq_false_of_ne different, bytes?]

theorem isFile_setBytes : (tree.setBytes place bytes).isFile other ↔ tree.isFile other ∨ other = place := by
  rw [isFile, bytes?_setBytes]
  split
  · next h => simp [h]
  · next h => simp [h, isFile]

theorem holds_setBytes : (tree.setBytes place bytes).Holds other ↔ tree.Holds other ∨ other = place := by
  rw [Holds, isDirectory_setBytes, isFile_setBytes, ← or_assoc]
  rfl

theorem map_fst_setBytes :
    (tree.setBytes place bytes).files.map Prod.fst =
      if tree.isFile place then tree.files.map Prod.fst else tree.files.map Prod.fst ++ [place] := by
  unfold setBytes
  split
  · rw [List.map_map]
    refine List.map_congr_left fun file _ => ?_
    rw [Function.comp_apply]
    split
    · next h => exact h.symm
    · rfl
  · simp

/-- Putting a file into a directory keeps a tree well formed. -/
theorem WellFormed.setBytes (h : tree.WellFormed) (hd : tree.isDirectory place = false)
    (hp : tree.isDirectory place.dropLast) (hn : ∀ name ∈ place, IsFileName name.toList) :
    (tree.setBytes place bytes).WellFormed where
  isFileName other hother := by
    rcases holds_setBytes.mp hother with old | rfl
    · exact h.isFileName other old
    · exact hn
  parent other hother := by
    rw [isDirectory_setBytes]
    rcases holds_setBytes.mp hother with old | rfl
    · exact h.parent other old
    · exact hp
  apart other hother := by
    rw [isDirectory_setBytes]
    rcases isFile_setBytes.mp hother with old | rfl
    · exact h.apart other old
    · exact hd
  nodup := by
    rw [map_fst_setBytes]
    split
    · exact h.nodup
    · next new =>
      rw [isFile_iff_mem] at new
      rw [List.nodup_append]
      refine ⟨h.nodup, by simp, ?_⟩
      rintro other hother _ hplace rfl
      exact new (List.mem_singleton.mp hplace ▸ hother)
  working := by
    rw [isDirectory_setBytes, working_setBytes]
    exact h.working

/-- Making a directory in another keeps a tree well formed. -/
theorem WellFormed.addDirectory (h : tree.WellFormed) (hf : tree.isFile place = false)
    (hp : tree.isDirectory place.dropLast) (hn : ∀ name ∈ place, IsFileName name.toList) :
    (tree.addDirectory place).WellFormed where
  isFileName other hother := by
    rcases holds_addDirectory.mp hother with old | rfl
    · exact h.isFileName other old
    · exact hn
  parent other hother := by
    rw [isDirectory_addDirectory]
    rcases holds_addDirectory.mp hother with old | rfl
    · exact .inl (h.parent other old)
    · exact .inl hp
  apart other hother := by
    rw [Bool.eq_false_iff, ne_eq, isDirectory_addDirectory]
    rintro (old | rfl)
    · rw [h.apart other hother] at old
      cases old
    · rw [show tree.isFile other = true from hother] at hf
      cases hf
  nodup := h.nodup
  working := isDirectory_addDirectory.mpr (.inl h.working)

theorem holds_iff : tree.Holds place ↔ place = [] ∨ place ∈ tree.directories ++ tree.files.map Prod.fst := by
  rw [Holds, isFile_iff_mem, isDirectory, Bool.or_eq_true, decide_eq_true_eq, List.contains_iff_mem, List.mem_append,
    or_assoc]

/-- A tree is well formed when the listed places are in order. -/
theorem wellFormed_of_listed
    (names : ∀ place ∈ tree.directories ++ tree.files.map Prod.fst, ∀ name ∈ place, IsFileName name.toList)
    (parents : ∀ place ∈ tree.directories ++ tree.files.map Prod.fst, tree.isDirectory place.dropLast)
    (apart : ∀ place ∈ tree.files.map Prod.fst, tree.isDirectory place = false)
    (nodup : (tree.files.map Prod.fst).Nodup) (working : tree.isDirectory tree.working) : tree.WellFormed where
  isFileName place hplace := by
    rcases holds_iff.mp hplace with rfl | listed
    · exact fun _ hname => absurd hname List.not_mem_nil
    · exact names place listed
  parent place hplace := by
    rcases holds_iff.mp hplace with rfl | listed
    · rfl
    · exact parents place listed
  apart place hplace := apart place (isFile_iff_mem.mp hplace)
  nodup := nodup
  working := working

/-! ## Where paths lead -/

/-- The place that one name leads to from another place, whatever stands there. -/
def step? (here : Location) (name : String) : Option Location :=
  if isIdle name then some here
  else if name = ".." then some here.dropLast
  else if isName name then some (here ++ [name])
  else none

theorem follow_cons :
    tree.follow here (name :: names) =
      if tree.isDirectory here then (step? here name).bind fun next => tree.follow next names else none := by
  rw [follow, step?]
  by_cases hd : tree.isDirectory here = true
  · rw [hd]
    by_cases idle : isIdle name = true
    · simp [idle]
    by_cases up : name = ".."
    · subst up
      simp [idle]
    by_cases proper : isName name = true <;> simp [idle, up, proper]
  · simp [hd]

theorem follow_append (names others : List String) :
    tree.follow here (names ++ others) = (tree.follow here names).bind fun place => tree.follow place others := by
  induction names generalizing here with
  | nil => rfl
  | cons name names ih =>
    rw [List.cons_append, follow_cons, follow_cons]
    split
    · cases step? here name with
      | none => rfl
      | some next => exact ih
    · rfl

/-- A path goes on leading where it leads when directories are added. -/
theorem Grows.follow_eq (h : Grows tree after) (hf : tree.follow here names = some place) :
    after.follow here names = some place := by
  induction names generalizing here with
  | nil => exact hf
  | cons name names ih =>
    rw [follow_cons] at hf
    split at hf
    · next directory =>
      obtain ⟨next, hstep, hf⟩ := Option.bind_eq_some_iff.mp hf
      rw [follow_cons, if_pos (h.isDirectory here directory), hstep]
      exact ih hf
    · cases hf

theorem Grows.start_eq (h : Grows tree after) (path : Path) : after.start path = tree.start path := by
  rw [start, start, h.working]

theorem Grows.locate?_eq {path : Path} (h : Grows tree after) (hl : tree.locate? path = some place) :
    after.locate? path = some place := by
  rw [locate?] at hl ⊢
  split at hl
  · next usable =>
    rw [if_pos usable, h.start_eq path]
    exact h.follow_eq hl
  · cases hl

/-- A place in a directory that a file can be put at, or a directory. -/
def Open (tree : FileTree) (place : Location) : Prop :=
  tree.isDirectory place ∨ ∃ dir name, place = dir ++ [name] ∧ tree.isDirectory dir ∧ IsFileName name.toList

/-- A name leads from a directory to a directory or to a place in one. -/
theorem WellFormed.open_of_step? (h : tree.WellFormed) (hd : tree.isDirectory here) (hs : '/' ∉ name.toList)
    (hstep : step? here name = some place) : tree.Open place := by
  rw [step?] at hstep
  split at hstep
  · cases hstep
    exact .inl hd
  next idle =>
  split at hstep
  · cases hstep
    exact .inl (h.parent here (.inl hd))
  next up =>
  split at hstep
  · cases hstep
    rw [isIdle, Bool.or_eq_true, decide_eq_true_eq, decide_eq_true_eq, not_or] at idle
    exact .inr ⟨here, name, rfl, hd, isFileName_toList idle.1 idle.2 up hs⟩
  · cases hstep

/-- Names lead from a directory to a directory or to a place in one. -/
theorem WellFormed.open_of_follow (h : tree.WellFormed) (hh : tree.Open here) (hs : ∀ name ∈ names, '/' ∉ name.toList)
    (hf : tree.follow here names = some place) : tree.Open place := by
  induction names generalizing here with
  | nil =>
    cases hf
    exact hh
  | cons name names ih =>
    rw [List.forall_mem_cons] at hs
    rw [follow_cons] at hf
    split at hf
    · next directory =>
      obtain ⟨next, hstep, hf⟩ := Option.bind_eq_some_iff.mp hf
      exact ih (h.open_of_step? directory hs.1 hstep) hs.2 hf
    · cases hf

theorem slash_notMem_names (path : Path) : ∀ name ∈ path.names, '/' ∉ name.toList := by
  intro name hname
  obtain ⟨cs, hcs, rfl⟩ := List.mem_map.mp hname
  rw [String.toList_ofList]
  exact Path.slash_notMem_of_mem_splitSlashes hcs

/-- A path leads on from a directory. -/
theorem WellFormed.isDirectory_start (h : tree.WellFormed) (path : Path) : tree.isDirectory (tree.start path) := by
  rw [start]
  split
  · rfl
  · exact h.working

/-- A path leads to a directory or to a place in one. -/
theorem WellFormed.open_of_locate? {path : Path} (h : tree.WellFormed) (hl : tree.locate? path = some place) :
    tree.Open place := by
  rw [locate?] at hl
  split at hl
  · exact h.open_of_follow (.inl (h.isDirectory_start path)) (slash_notMem_names path) hl
  · cases hl

/-! ## Making directories -/

/-- Directories were made, and files are as they were. -/
structure Prepared (before after : FileTree) : Prop where
  wellFormed : after.WellFormed
  grows : Grows before after
  sameFiles : SameFiles before after

theorem WellFormed.prepared (h : tree.WellFormed) : Prepared tree tree :=
  ⟨h, .refl tree, .refl tree⟩

theorem Prepared.trans {tree' : FileTree} (h : Prepared tree tree') (h' : Prepared tree' after) : Prepared tree after :=
  ⟨h'.wellFormed, h.grows.trans h'.grows, fun place => (h'.sameFiles place).trans (h.sameFiles place)⟩

/-- The names that lead to a name in a directory. -/
theorem WellFormed.isFileName_concat (h : tree.WellFormed) (hd : tree.isDirectory here) (hn : IsFileName name.toList) :
    ∀ other ∈ here ++ [name], IsFileName other.toList := by
  intro other hother
  rcases List.mem_append.mp hother with old | new
  · exact h.isFileName here (.inl hd) other old
  · rw [List.mem_singleton.mp new]
    exact hn

theorem WellFormed.prepared_addDirectory (h : tree.WellFormed) (hd : tree.isDirectory here)
    (hf : tree.isFile (here ++ [name]) = false) (hn : IsFileName name.toList) :
    Prepared tree (tree.addDirectory (here ++ [name])) where
  wellFormed := h.addDirectory hf (by rwa [List.dropLast_concat]) (h.isFileName_concat hd hn)
  grows := ⟨fun _ hother => isDirectory_addDirectory.mpr (.inl hother), rfl⟩
  sameFiles _ := rfl

/-- Making directories, as far as that goes. -/
theorem WellFormed.prepared_makeFrom (h : tree.WellFormed) (hd : tree.isDirectory here)
    (hs : ∀ name ∈ names, '/' ∉ name.toList) : Prepared tree (tree.makeFrom here names).1 := by
  fun_induction tree.makeFrom here names with
  | case1 => exact h.prepared
  | case2 tree here name names idle ih => exact ih h hd (List.forall_mem_cons.mp hs).2
  | case3 tree here names idle ih => exact ih h (h.parent here (.inl hd)) (List.forall_mem_cons.mp hs).2
  | case4 tree here name names idle up place there ih => exact ih h there (List.forall_mem_cons.mp hs).2
  | case5 => exact h.prepared
  | case6 tree here name names idle up place _ free ih =>
    rw [List.forall_mem_cons] at hs
    rw [Bool.or_eq_true, not_or, Bool.not_eq_true] at free
    rw [isIdle, Bool.or_eq_true, decide_eq_true_eq, decide_eq_true_eq, not_or] at idle
    have made := h.prepared_addDirectory hd free.1 (isFileName_toList idle.1 idle.2 up hs.1)
    exact made.trans (ih made.wellFormed (isDirectory_addDirectory.mpr (.inr rfl)) hs.2)

theorem WellFormed.prepared_makeDirectory (h : tree.WellFormed) (path : Path) :
    Prepared tree (tree.makeDirectory path).1 := by
  rw [makeDirectory]
  split
  · exact h.prepared_makeFrom (h.isDirectory_start path) (slash_notMem_names path)
  · exact h.prepared

/-! ## Writing -/

/-- A text was written to a place that a path leads to, and all other files are as they were. -/
structure Wrote (before : FileTree) (path : Path) (text : String) (place : Location) (after : FileTree) : Prop where
  wellFormed : after.WellFormed
  grows : Grows before after
  locate?_eq : after.locate? path = some place
  bytes?_eq : ∀ other, after.bytes? other = if other = place then some text.toUTF8 else before.bytes? other

/-- A file is put in its directory, or nothing changes. -/
theorem WellFormed.write_cases (h : tree.WellFormed) (path : Path) (text : String) :
    tree.write path text.toUTF8 = (tree, false) ∨
      ∃ place after, tree.write path text.toUTF8 = (after, true) ∧ Wrote tree path text place after := by
  rw [write]
  split
  · exact .inl rfl
  next place hl =>
  split
  · exact .inl rfl
  next notDirectory =>
  rw [Bool.not_eq_true] at notDirectory
  right
  refine ⟨place, _, rfl, ?_, ?_, ?_, fun other => bytes?_setBytes⟩
  · rcases h.open_of_locate? hl with directory | ⟨dir, name, rfl, hd, hn⟩
    · rw [notDirectory] at directory
      cases directory
    · exact h.setBytes notDirectory (by rwa [List.dropLast_concat]) (h.isFileName_concat hd hn)
  · exact grows_setBytes
  · exact grows_setBytes.locate?_eq hl

/-- What writing a file can come to: nothing but directories was made, or the text stands at the place of the path. -/
def WriteOutcome (before : FileTree) (path : Path) (text : String) : Except FileError Unit × FileTree → Prop
  | (.ok (), after) => ∃ place, Wrote before path text place after
  | (.error _, after) => Prepared before after

/-- The file is put in its directory when that was made. -/
theorem Prepared.writeOutcome {path : Path} {text : String} {made : FileTree} (h : Prepared tree made) (worked : Bool)
    (cause : FileError) :
    WriteOutcome tree path text
      ((if worked = true then do
          let written ← FileSystem.write path text.toUTF8
          pure (if written = true then .ok () else .error (.unwritable path.text))
        else pure (.error cause) : StateM FileTree (Except FileError Unit)) made) := by
  cases worked with
  | false => exact h
  | true =>
    change WriteOutcome tree path text
      (if (made.write path text.toUTF8).2 = true then .ok () else .error (.unwritable path.text),
        (made.write path text.toUTF8).1)
    rcases h.wellFormed.write_cases path text with same | ⟨place, after, written, wrote⟩
    · rw [same]
      exact h
    · rw [written]
      refine ⟨place, wrote.wellFormed, h.grows.trans wrote.grows, wrote.locate?_eq, fun other => ?_⟩
      rw [wrote.bytes?_eq, h.sameFiles other]

/-- Writing a file, with the directories that lead to it, comes to one of these. -/
theorem WellFormed.writeFile_outcome (h : tree.WellFormed) (path : Path) (text : String) :
    WriteOutcome tree path text ((writeFile path text : StateM FileTree (Except FileError Unit)) tree) := by
  unfold writeFile
  generalize Option.filter _ path.parent? = dir?
  cases dir? with
  | none => exact h.prepared.writeOutcome true (.unwritable "")
  | some dir => exact (h.prepared_makeDirectory dir).writeOutcome _ _

/-! ## The last name of a path -/

theorem step?_of_isFileName (hn : IsFileName name.toList) :
    step? here name = if isName name then some (here ++ [name]) else none := by
  have idle : isIdle name = false := by
    rw [isIdle, Bool.or_eq_false_iff, decide_eq_false_iff_not, decide_eq_false_iff_not]
    refine ⟨?_, ?_⟩
    · rintro rfl
      exact hn.ne_nil rfl
    · rintro rfl
      exact hn.ne_dot rfl
  have up : name ≠ ".." := by
    rintro rfl
    exact hn.ne_dots rfl
  rw [step?, idle, if_neg Bool.false_ne_true, if_neg up]

section

variable {path dir : Path} {before chars : List Char}

/-- A path that ends in a name leads to its place through the directory before it. -/
theorem exists_dir_of_locate? (hp : path.EndsIn before chars) (hs : '/' ∉ chars) (hl : tree.locate? path = some place) :
    ∃ dir, tree.isDirectory dir ∧ step? dir (String.ofList chars) = some place := by
  obtain ⟨others, hnames⟩ := hp.exists_names_eq hs
  rw [locate?, hnames, follow_append] at hl
  split at hl
  · obtain ⟨dir, -, hl⟩ := Option.bind_eq_some_iff.mp hl
    rw [follow_cons] at hl
    split at hl
    · next directory =>
      obtain ⟨next, hstep, hl⟩ := Option.bind_eq_some_iff.mp hl
      cases hl
      exact ⟨dir, directory, hstep⟩
    · cases hl
  · cases hl

/-- The place of a path that ends in a file name ends in that name. -/
theorem getLast?_of_locate? (hp : path.EndsIn before chars) (hn : IsFileName chars) (hl : tree.locate? path = some place) :
    place.getLast? = some (String.ofList chars) := by
  obtain ⟨dir, -, hstep⟩ := exists_dir_of_locate? hp hn.slash hl
  rw [step?_of_isFileName (by rwa [String.toList_ofList])] at hstep
  split at hstep
  · cases hstep
    exact List.getLast?_concat
  · cases hstep

/-- A path that ends in the name of the parent leads to a directory. -/
theorem WellFormed.isDirectory_of_locate? (h : tree.WellFormed) (hp : path.EndsIn before ['.', '.'])
    (hl : tree.locate? path = some place) : tree.isDirectory place := by
  obtain ⟨dir, directory, hstep⟩ := exists_dir_of_locate? hp (by decide) hl
  rw [step?, if_neg (by decide), if_pos (by decide)] at hstep
  cases hstep
  exact h.parent dir (.inl directory)

theorem follow_singleton :
    tree.follow here [name] = if tree.isDirectory here then step? here name else none := by
  rw [follow_cons]
  split
  · rcases step? here name with _ | next <;> rfl
  · rfl

/-- A path that leads somewhere has a text. -/
theorem chars_ne_nil_of_locate? (hl : tree.locate? path = some place) : path.chars ≠ [] := by
  rw [locate?] at hl
  split at hl
  · next usable =>
    intro empty
    rw [isUsable, show path.text = "" from String.toList_injective empty] at usable
    simp at usable
  · cases hl

theorem follow_of_locate? (hl : tree.locate? path = some place) :
    tree.follow (tree.start path) path.names = some place := by
  rw [locate?] at hl
  split at hl
  · exact hl
  · cases hl

/-- What is joined to a directory leads on from where that does. -/
theorem start_join (hl : tree.locate? dir = some place) (hn : IsFileName name.toList) :
    tree.start (dir.join ⟨name⟩) = tree.start dir := by
  obtain ⟨c, cs, hchars⟩ := List.exists_cons_of_ne_nil (chars_ne_nil_of_locate? hl)
  have first : (dir.join ⟨name⟩).isAbsolute = dir.isAbsolute := by
    rw [Path.isAbsolute, Path.isAbsolute, (dir.endsIn_join hn.slash).chars_eq, Path.slashed, hchars]
    split <;> rfl
  rw [start, start, first]

/-- The names of what is joined to a directory lead through that directory. -/
theorem exists_names_join (hl : tree.locate? dir = some place) (hn : IsFileName name.toList) :
    ∃ others, (dir.join ⟨name⟩).names = others ++ [name] ∧ tree.follow (tree.start dir) others = some place := by
  have joined := (dir.endsIn_join hn.slash).chars_eq
  have follows := follow_of_locate? hl
  rw [Path.slashed] at joined
  split at joined
  · next trailing =>
    -- the directory ends in a slash: its empty last name gives way to the new one
    rw [Bool.or_eq_true, decide_eq_true_eq, decide_eq_true_eq, List.getLast?_eq_some_iff] at trailing
    obtain ⟨more, hmore⟩ := trailing.resolve_left (chars_ne_nil_of_locate? hl)
    refine ⟨(Path.splitSlashes more).map String.ofList, ?_, ?_⟩
    · rw [Path.names, joined, hmore, List.append_assoc, List.singleton_append, Path.splitSlashes_append,
        Path.splitSlashes_eq_singleton hn.slash, List.map_append, List.map_singleton, String.ofList_toList]
    · rw [Path.names, hmore, Path.splitSlashes_append, List.map_append, follow_append] at follows
      obtain ⟨there, hthere, follows⟩ := Option.bind_eq_some_iff.mp follows
      change tree.follow there [""] = some place at follows
      rw [follow_singleton] at follows
      split at follows
      · rwa [← Option.some.inj follows]
      · cases follows
  · refine ⟨dir.names, ?_, follows⟩
    rw [Path.names, joined, List.append_assoc, List.singleton_append, Path.splitSlashes_append,
      Path.splitSlashes_eq_singleton hn.slash, List.map_append, List.map_singleton, String.ofList_toList]
    rfl

/-- A name in a directory is found there. -/
theorem locate?_join (hl : tree.locate? dir = some place) (hd : tree.isDirectory place) (hn : IsFileName name.toList) :
    tree.locate? (dir.join ⟨name⟩) =
      if isUsable (dir.join ⟨name⟩) && isName name then some (place ++ [name]) else none := by
  obtain ⟨others, hnames, hothers⟩ := exists_names_join hl hn
  rw [locate?, start_join hl hn, hnames, follow_append, hothers, Option.bind_some, follow_singleton, if_pos hd,
    step?_of_isFileName hn]
  rcases isUsable (dir.join ⟨name⟩) with _ | _ <;> simp

end

/-! ## What stands at a path -/

/-- A file has a name. -/
theorem WellFormed.exists_endsIn_of_isFile {path : Path} (h : tree.WellFormed) (hl : tree.locate? path = some place)
    (hf : tree.isFile place) : ∃ before name, path.EndsIn before name ∧ IsFileName name := by
  have notDirectory : tree.isDirectory place ≠ true := by
    rw [h.apart place hf]
    exact Bool.false_ne_true
  obtain ⟨before, name, hp, hs⟩ := path.exists_endsIn
  obtain ⟨dir, hdir, hstep⟩ := exists_dir_of_locate? hp hs hl
  refine ⟨before, name, hp, ⟨?_, hs, ?_⟩, ?_⟩
  -- any other last name leads from a directory to a directory
  · rintro rfl
    cases hstep
    exact notDirectory hdir
  · rintro rfl
    cases hstep
    exact notDirectory hdir
  · rintro rfl
    exact notDirectory (h.isDirectory_of_locate? hp hl)

/-- A path to a file ends in the name of the file. -/
theorem WellFormed.name_of_isFile {path : Path} {before chars : List Char} (h : tree.WellFormed)
    (hp : path.EndsIn before chars) (hn : IsSegment chars) (hl : tree.locate? path = some place)
    (hf : tree.isFile place) : IsFileName chars ∧ place.getLast? = some (String.ofList chars) := by
  have isFileName : IsFileName chars := by
    refine ⟨hn, ?_⟩
    rintro rfl
    have directory := h.isDirectory_of_locate? hp hl
    rw [h.apart place hf] at directory
    cases directory
  exact ⟨isFileName, getLast?_of_locate? hp isFileName hl⟩

theorem look_eq_directory {path : Path} {entries : List Entry} (h : tree.look path = .directory entries) :
    ∃ place, tree.locate? path = some place ∧ tree.isDirectory place ∧ entries = tree.entries path place := by
  rw [look] at h
  split at h
  · cases h
  next place hl =>
  split at h
  · next directory =>
    cases h
    exact ⟨place, hl, directory, rfl⟩
  · split at h <;> cases h

theorem look_eq_file {path : Path} (h : tree.look path = .file) :
    ∃ place, tree.locate? path = some place ∧ tree.isFile place := by
  rw [look] at h
  split at h
  · cases h
  next place hl =>
  split at h
  · cases h
  · split at h
    · next file => exact ⟨place, hl, file⟩
    · cases h

/-- A place is an entry of the directory before its last name. -/
theorem entry_eq_some_iff {entry : Entry} {isFile : String → Bool} :
    (if other.dropLast = place then other.getLast?.map fun name => Entry.mk name (isFile name) else none) = some entry ↔
      other = place ++ [entry.name] ∧ entry.isFile = isFile entry.name := by
  rcases List.eq_nil_or_concat other with rfl | ⟨dir, last, rfl⟩
  · simp
  · obtain ⟨name, flag⟩ := entry
    rw [List.concat_eq_append, List.dropLast_concat, List.getLast?_concat, List.append_singleton_inj]
    by_cases hdir : dir = place
    · rw [if_pos hdir, Option.map_some, Option.some_inj, Entry.mk.injEq]
      constructor
      · rintro ⟨rfl, rfl⟩
        exact ⟨⟨hdir, rfl⟩, rfl⟩
      · rintro ⟨⟨-, rfl⟩, same⟩
        exact ⟨rfl, same.symm⟩
    · simp [hdir]

/-- The file entries of a directory are the files in it. -/
theorem isFile_of_mem_entries {path : Path} {entry : Entry} (h : entry ∈ tree.entries path place) (hf : entry.isFile = true) :
    tree.isFile (place ++ [entry.name]) := by
  rw [entries, List.mem_append, List.mem_filterMap, List.mem_filterMap] at h
  rcases h with ⟨_, -, h⟩ | ⟨file, hfile, h⟩
  · rw [entry_eq_some_iff, hf] at h
    cases h.2
  · rw [isFile_iff_mem, ← (entry_eq_some_iff.mp h).1]
    exact List.mem_map_of_mem hfile

/-- A directory lists each file once. -/
theorem WellFormed.pairwise_entries (h : tree.WellFormed) (path : Path) (place : Location) :
    (tree.entries path place).Pairwise fun entry other => entry.isFile → other.isFile → entry.name ≠ other.name := by
  rw [entries, List.pairwise_append]
  refine ⟨?_, ?_, ?_⟩
  · refine List.Pairwise.filterMap _ (fun _ _ _ entry hentry _ _ isFile => ?_) (List.pairwise_of_forall fun _ _ => trivial)
    rw [(entry_eq_some_iff.mp hentry).2] at isFile
    cases isFile
  · refine List.Pairwise.filterMap _ (fun file other different entry hentry _ hother _ _ same => different ?_)
      (List.pairwise_map.mp h.nodup)
    rw [(entry_eq_some_iff.mp hentry).1, (entry_eq_some_iff.mp hother).1, same]
  · intro entry hentry _ _ isFile
    obtain ⟨_, -, hentry⟩ := List.mem_filterMap.mp hentry
    rw [(entry_eq_some_iff.mp hentry).2] at isFile
    cases isFile

end

end FileTree

end JackCompiler
