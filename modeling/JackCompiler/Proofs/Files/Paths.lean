import JackCompiler.Project.Outputs

/-!
# The names of paths

A path that ends in a name is split before that name, whatever leads there (`Path.EndsIn.split?_eq`). What joins a name to
a directory, puts another extension or another name in place of one's own, ends in a name again (`Path.endsIn_join`,
`Path.EndsIn.withExtension_eq`, `Path.exists_endsIn_withFileName`). Names and extensions determine each other: the file names
with one extension keep apart when it is replaced (`eq_of_replacedName`).
-/

namespace JackCompiler

/-- A text splits at the last place of a character in it. -/
theorem exists_last_mem {c : Char} {text : List Char} (h : c ∈ text) :
    ∃ before after, text = before ++ c :: after ∧ c ∉ after := by
  obtain ⟨after, before, hreverse, hafter⟩ := List.eq_append_cons_of_mem (List.mem_reverse.mpr h)
  refine ⟨before.reverse, after.reverse, ?_, by rwa [List.mem_reverse]⟩
  rw [← text.reverse_reverse, hreverse]
  simp

/-! ## Names -/

/-- A name that can stand at the end of a path: not empty, without a slash, and not the single dot that paths pass over. -/
structure IsSegment (name : List Char) : Prop where
  ne_nil : name ≠ []
  slash : '/' ∉ name
  ne_dot : name ≠ ['.']

/-- A name that a file or a directory can have. -/
structure IsFileName (name : List Char) : Prop extends IsSegment name where
  ne_dots : name ≠ ['.', '.']

instance (name : List Char) : Decidable (IsFileName name) :=
  decidable_of_iff ((name ≠ [] ∧ '/' ∉ name ∧ name ≠ ['.']) ∧ name ≠ ['.', '.'])
    ⟨fun ⟨⟨ne_nil, slash, ne_dot⟩, ne_dots⟩ => ⟨⟨ne_nil, slash, ne_dot⟩, ne_dots⟩,
      fun h => ⟨⟨h.ne_nil, h.slash, h.ne_dot⟩, h.ne_dots⟩⟩

theorem isFileName_toList {name : String} (ne_empty : name ≠ "") (ne_dot : name ≠ ".") (ne_dots : name ≠ "..")
    (slash : '/' ∉ name.toList) : IsFileName name.toList where
  ne_nil h := ne_empty (String.toList_injective h)
  slash := slash
  ne_dot h := ne_dot (String.toList_injective h)
  ne_dots h := ne_dots (String.toList_injective h)

/-- The text before a name: none, or one that ends in a slash. -/
def LeadsIn (before : List Char) : Prop :=
  before = [] ∨ ∃ more, before = more ++ ['/']

/-- A path ends in a name, behind the text before it. -/
structure Path.EndsIn (path : Path) (before name : List Char) : Prop where
  chars_eq : path.chars = before ++ name
  leads : LeadsIn before

namespace Path

@[simp] theorem chars_mk_ofList (cs : List Char) : (Path.mk (String.ofList cs)).chars = cs :=
  String.toList_ofList

/-! ## The last name -/

section

variable {path : Path} {before name : List Char}

/-- The last name of a reversed text is what stands before the first slash. -/
theorem lastName_append (hn : IsSegment name) (hb : LeadsIn before) :
    lastName (before ++ name).reverse = some (before.reverse, name.reverse) := by
  have ne_nil : name.reverse ≠ [] := by simpa using hn.ne_nil
  have ne_dot : name.reverse ≠ ['.'] := by
    intro h
    exact hn.ne_dot (by simpa using congrArg List.reverse h)
  have noSlash : ∀ c ∈ name.reverse, decide (c ≠ '/') = true := by
    intro c hc
    rw [decide_eq_true_eq]
    rintro rfl
    exact hn.slash (List.mem_reverse.mp hc)
  have here : (name.reverse ++ before.reverse).takeWhile (· ≠ '/') = name.reverse := by
    rw [List.takeWhile_append_of_pos noSlash]
    rcases hb with rfl | ⟨more, rfl⟩ <;> simp
  rw [List.reverse_append]
  generalize name.reverse = reversed at *
  obtain ⟨c, cs, rfl⟩ := List.exists_cons_of_ne_nil ne_nil
  rw [List.cons_append] at here ⊢
  rw [lastName, here]
  simp [ne_dot]

/-- The head of a path stands before its last name. -/
theorem exists_eq_lead_append (hn : IsSegment name) (hb : LeadsIn before) :
    ∃ rest, before = lead (before ++ name) ++ rest ∧ LeadsIn rest := by
  rcases hb with rfl | ⟨more, rfl⟩
  · have lead_eq : lead name = [] := by
      unfold lead
      split
      · exact absurd List.mem_cons_self hn.slash
      · exact absurd rfl hn.ne_dot
      · exact absurd (List.mem_cons_of_mem _ List.mem_cons_self) hn.slash
      · rfl
    exact ⟨[], by rw [List.nil_append, lead_eq]; rfl, .inl rfl⟩
  · rw [List.append_assoc, List.singleton_append]
    cases more with
    | nil => exact ⟨[], rfl, .inl rfl⟩
    | cons c more =>
      have slashed : LeadsIn (c :: more ++ ['/']) := .inr ⟨_, rfl⟩
      rw [List.cons_append]
      unfold lead
      split
      · next h =>
        obtain ⟨rfl, -⟩ := List.cons.inj h
        exact ⟨more ++ ['/'], rfl, .inr ⟨more, rfl⟩⟩
      · next h => simp at h
      · next h =>
        obtain ⟨rfl, -⟩ := List.cons.inj h
        exact ⟨more ++ ['/'], rfl, .inr ⟨more, rfl⟩⟩
      · exact ⟨_, rfl, slashed⟩

/-- A path that ends in a name is split before it. -/
theorem EndsIn.split?_eq (h : path.EndsIn before name) (hn : IsSegment name) :
    path.split? = some ⟨before, name, []⟩ := by
  obtain ⟨rest, hbefore, hrest⟩ := exists_eq_lead_append hn h.leads
  rw [split?, h.chars_eq]
  dsimp only
  generalize hlead : lead (before ++ name) = head at *
  subst hbefore
  rw [List.append_assoc, List.drop_left, lastName_append hn hrest, ← List.append_assoc]
  simp [Nat.add_assoc]

/-- Every path ends in what stands behind its last slash. -/
theorem exists_endsIn (path : Path) : ∃ before name, path.EndsIn before name ∧ '/' ∉ name := by
  by_cases slash : '/' ∈ path.chars
  · obtain ⟨before, after, hchars, hafter⟩ := exists_last_mem slash
    refine ⟨before ++ ['/'], after, ⟨?_, .inr ⟨before, rfl⟩⟩, hafter⟩
    rw [hchars, List.append_assoc]
    rfl
  · exact ⟨[], path.chars, ⟨rfl, .inl rfl⟩, slash⟩

theorem EndsIn.fileSplit?_eq (h : path.EndsIn before name) (hn : IsFileName name) :
    path.fileSplit? = some ⟨before, name, []⟩ := by
  rw [fileSplit?, h.split?_eq hn.toIsSegment]
  simp [Option.filter, hn.ne_dots]

theorem EndsIn.fileName?_eq (h : path.EndsIn before name) (hn : IsFileName name) :
    path.fileName? = some (String.ofList name) := by
  rw [fileName?, h.fileSplit?_eq hn]
  rfl

theorem EndsIn.extension?_eq (h : path.EndsIn before name) (hn : IsFileName name) :
    path.extension? = (FileName.ofName name).extension?.map String.ofList := by
  rw [extension?, h.fileSplit?_eq hn]
  rfl

/-- The last name of a text is one. -/
theorem isSegment_of_lastName {cs before name : List Char} (h : lastName cs = some (before, name)) :
    IsSegment name.reverse := by
  fun_induction lastName cs with
  | case1 => cases h
  | case2 c cs _ _ ih => exact ih h
  | case3 c cs found hname =>
    obtain ⟨-, rfl⟩ := Prod.mk.inj (Option.some.inj h)
    rw [Bool.or_eq_true, not_or, decide_eq_true_eq, List.isEmpty_iff] at hname
    refine ⟨by simpa using hname.1, fun hs => ?_, fun hd => hname.2 ?_⟩
    · have := List.all_takeWhile (p := (· ≠ '/')) (l := c :: cs)
      simpa using List.all_eq_true.mp this _ (List.mem_reverse.mp hs)
    · simpa using congrArg List.reverse hd

/-- A file name is a name that a file can have. -/
theorem isFileName_of_fileName? {name : String} (h : path.fileName? = some name) : IsFileName name.toList := by
  simp only [fileName?, fileSplit?, split?, Option.map_eq_some_iff, Option.filter_eq_some_iff] at h
  obtain ⟨split, ⟨⟨⟨before, reversed⟩, hlast, rfl⟩, ne_dots⟩, rfl⟩ := h
  rw [String.toList_ofList]
  exact ⟨isSegment_of_lastName hlast, by simpa using ne_dots⟩

end

/-! ## Joining -/

/-- The text of a directory in front of the names in it. -/
def slashed (dir : Path) : List Char :=
  if dir.chars = [] || dir.chars.getLast? = some '/' then dir.chars else dir.chars ++ ['/']

theorem leadsIn_slashed (dir : Path) : LeadsIn dir.slashed := by
  unfold slashed
  split
  · next h =>
    rw [Bool.or_eq_true, decide_eq_true_eq, decide_eq_true_eq, List.getLast?_eq_some_iff] at h
    exact h
  · exact .inr ⟨_, rfl⟩

/-- What is joined to a directory ends in its name. -/
theorem endsIn_join (dir : Path) {name : String} (hn : '/' ∉ name.toList) :
    (dir.join ⟨name⟩).EndsIn dir.slashed name.toList := by
  have relative : isAbsolute ⟨name⟩ = false := by
    rw [isAbsolute, decide_eq_false_iff_not]
    intro h
    exact hn (List.mem_of_mem_head? h)
  refine ⟨?_, dir.leadsIn_slashed⟩
  rw [join, relative, slashed, if_neg Bool.false_ne_true]
  by_cases h : (decide (dir.chars = []) || decide (dir.chars.getLast? = some '/')) = true
  · rw [if_pos h, if_pos h]
    exact String.toList_append
  · rw [if_neg h, if_neg h]
    simp [chars]

end Path

/-! ## Extensions -/

namespace FileName

section

variable {name stem before extension : List Char}

theorem takeWhile_reverse (he : '.' ∉ extension) : extension.reverse.takeWhile (· ≠ '.') = extension.reverse := by
  rw [← List.append_nil extension.reverse, List.takeWhile_append_of_pos, List.takeWhile_nil]
  intro c hc
  rw [decide_eq_true_eq]
  rintro rfl
  exact he (List.mem_reverse.mp hc)

/-- Reading a name from its end stops at its last dot. -/
theorem takeWhile_reverse_append (he : '.' ∉ extension) :
    (before ++ '.' :: extension).reverse.takeWhile (· ≠ '.') = extension.reverse := by
  have stops : ('.' :: before.reverse).takeWhile (· ≠ '.') = [] := by simp
  rw [List.reverse_append, List.reverse_cons, List.append_assoc, List.singleton_append, List.takeWhile_append,
    takeWhile_reverse he, if_pos rfl, stops, List.append_nil]

/-- A name splits at its last dot when something stands before that. -/
theorem ofName_append (hs : stem ≠ []) (he : '.' ∉ extension) :
    ofName (stem ++ '.' :: extension) = ⟨stem, some extension⟩ := by
  obtain ⟨c, cs, hc⟩ := List.exists_cons_of_ne_nil (List.reverse_ne_nil_iff.mpr hs)
  have rest : (stem ++ '.' :: extension).reverse.drop extension.reverse.length = '.' :: c :: cs := by
    rw [List.reverse_append, List.reverse_cons, List.append_assoc, List.drop_left, hc]
    rfl
  rw [ofName, takeWhile_reverse_append he, rest]
  simp only [← hc, List.reverse_reverse]

/-- A name without such a dot is a stem as a whole. -/
theorem ofName_cases (name : List Char) :
    ofName name = ⟨name, none⟩ ∨
      ∃ stem extension, stem ≠ [] ∧ '.' ∉ extension ∧ name = stem ++ '.' :: extension ∧
        ofName name = ⟨stem, some extension⟩ := by
  by_cases dot : '.' ∈ name
  · obtain ⟨before, after, rfl, hafter⟩ := exists_last_mem dot
    by_cases first : before = []
    · left
      subst first
      have rest : ([] ++ '.' :: after).reverse.drop after.reverse.length = ['.'] := by
        rw [List.nil_append, List.reverse_cons, List.drop_left]
      rw [ofName, takeWhile_reverse_append hafter, rest]
    · exact .inr ⟨before, after, first, hafter, rfl, ofName_append first hafter⟩
  · left
    rw [ofName, takeWhile_reverse dot, List.drop_length]

/-- What stands behind the last dot of a text, or the whole text. -/
def lastPart (text : List Char) : List Char :=
  (text.reverse.takeWhile (· ≠ '.')).reverse

/-- A name that goes on behind a dot has the last part of that as its extension. -/
theorem ofName_extension? (hs : stem ≠ []) (text : List Char) :
    (ofName (stem ++ '.' :: text)).extension? = some (lastPart text) := by
  by_cases dot : '.' ∈ text
  · obtain ⟨before, after, rfl, hafter⟩ := exists_last_mem dot
    have split : stem ++ '.' :: (before ++ '.' :: after) = (stem ++ '.' :: before) ++ '.' :: after := by simp
    rw [split, ofName_append (by simp) hafter, lastPart, takeWhile_reverse_append hafter, List.reverse_reverse]
  · rw [ofName_append hs dot, lastPart, takeWhile_reverse dot, List.reverse_reverse]

theorem stem_ne_nil (h : name ≠ []) : (ofName name).stem ≠ [] := by
  rcases ofName_cases name with alone | ⟨stem, _, hs, -, -, parts⟩
  · rwa [alone]
  · rwa [parts]

end

end FileName

/-- The stem of the file name at the end of a path. -/
def Path.stem? (path : Path) : Option String :=
  path.fileSplit?.map fun split => String.ofList (FileName.ofName split.name).stem

/-- A file name with another extension. A stem of one dot is left with two, which are the name of the parent. -/
def replacedName (name : List Char) (extension : String) : List Char :=
  let parts := FileName.ofName name
  if parts.stem = ['.'] && parts.extension?.isSome then ['.', '.'] else parts.stem ++ Path.dotted extension

section

variable {path : Path} {before name name' stem suffix : List Char} {extension : String}

theorem replacedName_append (hs : stem ≠ []) (he : '.' ∉ suffix) :
    replacedName (stem ++ '.' :: suffix) extension =
      if stem = ['.'] then ['.', '.'] else stem ++ Path.dotted extension := by
  rw [replacedName, FileName.ofName_append hs he]
  simp

theorem replacedName_of_none (h : FileName.ofName name = ⟨name, none⟩) :
    replacedName name extension = name ++ Path.dotted extension := by
  rw [replacedName, h]
  simp

theorem replacedName_eq (h : replacedName name extension ≠ ['.', '.']) :
    replacedName name extension = (FileName.ofName name).stem ++ Path.dotted extension := by
  rw [replacedName] at h ⊢
  split at h
  · exact absurd rfl h
  · next stays => rw [if_neg stays]

theorem slash_notMem_dotted (he : '/' ∉ extension.toList) : '/' ∉ Path.dotted extension := by
  rw [Path.dotted]
  split
  · exact List.not_mem_nil
  · simpa using he

/-- A file name with another extension is a name again, maybe that of the parent. -/
theorem isSegment_replacedName (hn : IsFileName name) (he : '/' ∉ extension.toList) :
    IsSegment (replacedName name extension) := by
  have dotted := slash_notMem_dotted he
  rcases FileName.ofName_cases name with alone | ⟨stem, suffix, hs, hsuffix, rfl, -⟩
  · rw [replacedName_of_none alone]
    refine ⟨by simp [hn.ne_nil], by simp [hn.slash, dotted], fun h => ?_⟩
    rcases List.append_eq_singleton_iff.mp h with ⟨nil, -⟩ | ⟨dot, -⟩
    · exact hn.ne_nil nil
    · exact hn.ne_dot dot
  · rw [replacedName_append hs hsuffix]
    have slash : '/' ∉ stem := fun h => hn.slash (List.mem_append_left _ h)
    split
    · exact ⟨by simp, by decide, by simp⟩
    · next ne_dot =>
      refine ⟨by simp [hs], by simp [slash, dotted], fun h => ?_⟩
      rcases List.append_eq_singleton_iff.mp h with ⟨nil, -⟩ | ⟨dot, -⟩
      · exact hs nil
      · exact ne_dot dot

/-- Replacing the extension of two names that share it keeps them apart, unless it leads to the parent. -/
theorem eq_of_replacedName (hs : stem ≠ []) (he : '.' ∉ suffix) {stem' : List Char} (hs' : stem' ≠ [])
    (h : replacedName (stem ++ '.' :: suffix) extension = replacedName (stem' ++ '.' :: suffix) extension)
    (hne : replacedName (stem ++ '.' :: suffix) extension ≠ ['.', '.']) : stem = stem' := by
  rw [replacedName_append hs he] at h hne
  rw [replacedName_append hs' he] at h
  split at hne
  · exact absurd rfl hne
  next ne_dot =>
  rw [if_neg ne_dot] at h
  split at h
  · exact absurd h hne
  · exact List.append_cancel_right h

/-- Only the stems of one and of two dots lead to the parent. -/
theorem stem_of_replacedName (hs : stem ≠ []) (he : '.' ∉ suffix)
    (h : replacedName (stem ++ '.' :: suffix) extension = ['.', '.']) :
    stem = ['.'] ∨ stem = ['.', '.'] ∧ extension = "" := by
  rw [replacedName_append hs he] at h
  split at h
  · next dot => exact .inl dot
  next ne_dot =>
  right
  rcases List.append_eq_cons_iff.mp h with ⟨nil, -⟩ | ⟨more, rfl, hmore⟩
  · exact absurd nil hs
  rcases List.append_eq_singleton_iff.mp hmore.symm with ⟨rfl, -⟩ | ⟨rfl, bare⟩
  · exact absurd rfl ne_dot
  · refine ⟨rfl, ?_⟩
    rw [Path.dotted] at bare
    split at bare
    · next empty => exact empty
    · cases bare

namespace Path

theorem EndsIn.stem?_eq (h : path.EndsIn before name) (hn : IsFileName name) :
    path.stem? = some (String.ofList (FileName.ofName name).stem) := by
  rw [stem?, h.fileSplit?_eq hn]
  rfl

/-- The extension of a file name that goes on behind a dot. -/
theorem EndsIn.extension?_eq_lastPart {text : List Char} (h : path.EndsIn before (stem ++ '.' :: text))
    (hn : IsFileName (stem ++ '.' :: text)) (hs : stem ≠ []) :
    path.extension? = some (String.ofList (FileName.lastPart text)) := by
  rw [h.extension?_eq hn, FileName.ofName_extension? hs]
  rfl

/-- A file name with an extension goes on behind its stem. -/
theorem EndsIn.exists_stem (h : path.EndsIn before name) (hn : IsFileName name) (he : path.extension? = some extension) :
    ∃ stem, stem ≠ [] ∧ '.' ∉ extension.toList ∧ name = stem ++ '.' :: extension.toList := by
  rw [h.extension?_eq hn] at he
  rcases FileName.ofName_cases name with alone | ⟨stem, suffix, hs, hsuffix, hname, hparts⟩
  · rw [alone] at he
    cases he
  · rw [hparts] at he
    obtain rfl := Option.some.inj he
    rw [String.toList_ofList]
    exact ⟨stem, hs, hsuffix, hname⟩

/-- The path of a file with another extension. -/
theorem EndsIn.withExtension_eq (h : path.EndsIn before name) (hn : IsFileName name) :
    (path.withExtension extension).EndsIn before (replacedName name extension) := by
  refine ⟨?_, h.leads⟩
  rw [withExtension, h.fileSplit?_eq hn, replacedName]
  simp only [decide_true, Bool.and_true]
  split <;> rw [chars_mk_ofList]
  rw [List.append_assoc]

theorem outputPath_some {dir : Path} {file : String} (h : path.fileName? = some file) :
    outputPath path (some dir) extension = (dir.join ⟨file⟩).withExtension extension := by
  unfold outputPath
  rw [h]

/-- The code file of a source stands beside it or in the directory of outputs. -/
theorem EndsIn.outputPath_eq (h : path.EndsIn before name) (hn : IsFileName name) (dir? : Option Path) :
    (outputPath path dir? extension).EndsIn ((dir?.map slashed).getD before) (replacedName name extension) := by
  cases dir? with
  | none => exact h.withExtension_eq hn
  | some dir =>
    have slash : '/' ∉ (String.ofList name).toList := by
      rw [String.toList_ofList]
      exact hn.slash
    have joined := dir.endsIn_join slash
    rw [String.toList_ofList] at joined
    rw [outputPath_some (h.fileName?_eq hn)]
    exact joined.withExtension_eq hn

/-- The code file of all units is named for the root. -/
theorem exists_combinedPath_endsIn (root : Path) (dir? : Option Path) (he : '/' ∉ extension.toList) :
    ∃ before stem, stem ≠ [] ∧ '/' ∉ stem ∧
      (combinedPath root dir? extension).EndsIn before (stem ++ '.' :: extension.toList) := by
  have name : (root.fileName?.getD "out").toList ≠ [] ∧ '/' ∉ (root.fileName?.getD "out").toList := by
    cases hname : root.fileName? with
    | none => decide
    | some name => exact ⟨(isFileName_of_fileName? hname).ne_nil, (isFileName_of_fileName? hname).slash⟩
  have chars : (root.fileName?.getD "out" ++ "." ++ extension).toList =
      (root.fileName?.getD "out").toList ++ '.' :: extension.toList := by simp
  refine ⟨(dir?.getD root).slashed, _, name.1, name.2, ?_⟩
  rw [← chars]
  refine endsIn_join _ ?_
  rw [chars, List.mem_append, not_or, List.mem_cons, not_or]
  exact ⟨name.2, by decide, he⟩

/-- What is put beside a path stands in some directory. -/
theorem exists_endsIn_withFileName (path : Path) {name : String} (hn : '/' ∉ name.toList) :
    ∃ before, (path.withFileName name).EndsIn before name.toList :=
  ⟨_, endsIn_join _ hn⟩

/-! ## The names of a path one by one -/

theorem splitSlashes_ne_nil (cs : List Char) : splitSlashes cs ≠ [] := by
  fun_cases splitSlashes cs <;> simp_all

theorem splitSlashes_append (before after : List Char) :
    splitSlashes (before ++ '/' :: after) = splitSlashes before ++ splitSlashes after := by
  induction before with
  | nil => rfl
  | cons c cs ih =>
    obtain ⟨name, names, hcs⟩ := List.exists_cons_of_ne_nil (splitSlashes_ne_nil cs)
    rw [List.cons_append, splitSlashes, splitSlashes, ih, hcs]
    split <;> rfl

theorem splitSlashes_eq_singleton (h : '/' ∉ name) : splitSlashes name = [name] := by
  induction name with
  | nil => rfl
  | cons c cs ih =>
    rw [List.mem_cons, not_or] at h
    rw [splitSlashes, if_neg (Ne.symm h.1), ih h.2]

theorem slash_notMem_of_mem_splitSlashes {cs : List Char} (h : name ∈ splitSlashes cs) : '/' ∉ name := by
  induction cs generalizing name with
  | nil =>
    rw [List.mem_singleton.mp h]
    exact List.not_mem_nil
  | cons c cs ih =>
    obtain ⟨first, others, hcs⟩ := List.exists_cons_of_ne_nil (splitSlashes_ne_nil cs)
    rw [splitSlashes, hcs] at h
    rw [hcs, List.forall_mem_cons] at ih
    split at h
    · rw [List.mem_cons, List.mem_cons] at h
      rcases h with rfl | rfl | h
      · exact List.not_mem_nil
      · exact ih.1
      · exact ih.2 _ h
    · next ne_slash =>
      rcases List.mem_cons.mp h with rfl | h
      · rw [List.mem_cons, not_or]
        exact ⟨Ne.symm ne_slash, ih.1⟩
      · exact ih.2 _ h

/-- The names of a path that ends in a name end in it. -/
theorem EndsIn.exists_names_eq (h : path.EndsIn before name) (hn : '/' ∉ name) :
    ∃ others, path.names = others ++ [String.ofList name] := by
  rw [names, h.chars_eq]
  rcases h.leads with rfl | ⟨more, rfl⟩
  · exact ⟨[], by rw [List.nil_append, splitSlashes_eq_singleton hn]; rfl⟩
  · refine ⟨(splitSlashes more).map String.ofList, ?_⟩
    rw [List.append_assoc, List.singleton_append, splitSlashes_append, splitSlashes_eq_singleton hn, List.map_append]
    rfl

end Path

end

end JackCompiler
