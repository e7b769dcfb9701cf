import JackCompiler.Project.Outputs
import JackCompiler.Proofs.Files.Trees
import Mathlib.Data.List.Forall2

/-!
# Performing what was planned

Plans are performed one after the other, and each comes to one of three ends (`Became`): it is skipped, its text is written,
or that fails and at most directories are made. Over a whole run (`Performed`) a file changes only where a path leads that
is reported as written, and a text that was written stays unless a later one is written to the same place
(`Performed.read?_eq`).
-/

namespace JackCompiler

open FileTree

/-- What became of a plan that was performed in a tree. -/
inductive Became (before : FileTree) : Planned → Output → FileTree → Prop where
  | skipped (path : Path) : Became before (.skip path) (.skipped path) before
  | written {path : Path} {text : String} (label : String) {place : Location} {after : FileTree} :
      before.Wrote path text place after → Became before (.write path text label) (.written path) after
  | failed (path : Path) (text label : String) (cause : FileError) {after : FileTree} :
      before.Prepared after → Became before (.write path text label) (.failed label cause) after

/-- Plans that were performed one after the other, each with what became of it. -/
inductive Performed : FileTree → List (Planned × Output) → FileTree → Prop where
  | nil (tree : FileTree) : Performed tree [] tree
  | cons {before between after : FileTree} {plan : Planned} {output : Output} {files : List (Planned × Output)} :
      Became before plan output between → Performed between files after →
        Performed before ((plan, output) :: files) after

/-- The path that a plan writes to. -/
def Planned.target? : Planned → Option Path
  | .skip _ => none
  | .write path _ _ => some path

/-- Two plans write to one file of a tree. -/
def Meet (tree : FileTree) (plan other : Planned) : Prop :=
  ∃ path path' place, plan.target? = some path ∧ other.target? = some path' ∧ tree.isFile place ∧
    tree.locate? path = some place ∧ tree.locate? path' = some place

/-- The path of a file that was written. -/
def Output.writtenPath? : Output → Option Path
  | .written path => some path
  | .skipped _ | .failed .. => none

/-- The paths that are reported as written, in order. -/
def writtenPaths (outputs : List Output) : List Path :=
  outputs.filterMap Output.writtenPath?

/-- The written paths among outputs lead to different places. -/
def Apart (tree : FileTree) (outputs : List Output) : Prop :=
  outputs.Pairwise fun output other => ∀ path path', output = .written path → other = .written path' →
    tree.locate? path ≠ tree.locate? path'

/-- An output of a text: it was written to a path and stands there, or that failed. -/
def Output.Tells (tree : FileTree) (path : Path) (text label : String) : Output → Prop
  | .written path' => path' = path ∧ tree.read? path = some text.toUTF8
  | .failed label' _ => label' = label
  | .skipped _ => False

instance (tree : FileTree) (path : Path) (text label : String) (output : Output) :
    Decidable (output.Tells tree path text label) :=
  match output with
  | .written path' => inferInstanceAs (Decidable (path' = path ∧ tree.read? path = some text.toUTF8))
  | .failed label' _ => inferInstanceAs (Decidable (label' = label))
  | .skipped _ => inferInstanceAs (Decidable False)

/-- An output of a plan. -/
def Planned.Tells (tree : FileTree) : Planned → Output → Prop
  | .skip path, output => output = .skipped path
  | .write path text label, output => output.Tells tree path text label

instance (tree : FileTree) (plan : Planned) (output : Output) : Decidable (plan.Tells tree output) :=
  match plan with
  | .skip path => inferInstanceAs (Decidable (output = .skipped path))
  | .write path text label => inferInstanceAs (Decidable (output.Tells tree path text label))

@[simp] theorem Output.writtenPath?_eq_some_iff {output : Output} {path : Path} :
    output.writtenPath? = some path ↔ output = .written path := by
  cases output <;> simp [writtenPath?]

@[simp] theorem mem_writtenPaths {outputs : List Output} {path : Path} :
    path ∈ writtenPaths outputs ↔ .written path ∈ outputs := by
  simp [writtenPaths]

section

variable {before after : FileTree} {plan : Planned} {output : Output} {files earlier later : List (Planned × Output)}
  {path : Path} {text label : String} {place : Location}

/-! ## One plan -/

/-- Performing a plan comes to one of the three ends. -/
theorem FileTree.WellFormed.became (h : before.WellFormed)
    (hp : (plan.perform : StateM FileTree Output).run before = (output, after)) : Became before plan output after := by
  cases plan with
  | skip path =>
    cases hp
    exact .skipped path
  | write path text label =>
    have outcome : WriteOutcome before path text
        ((writeFile path text : StateM FileTree (Except FileError Unit)).run before) :=
      h.writeFile_outcome path text
    rw [Planned.perform, StateT.run_bind] at hp
    rcases hwrite : (writeFile path text : StateM FileTree (Except FileError Unit)).run before with ⟨_ | _, tree⟩
    · rw [hwrite] at hp outcome
      cases hp
      exact .failed _ _ _ _ outcome
    · rw [hwrite] at hp outcome
      cases hp
      obtain ⟨place, wrote⟩ := outcome
      exact .written _ wrote

theorem Became.wellFormed (hb : Became before plan output after) (h : before.WellFormed) : after.WellFormed := by
  cases hb with
  | skipped => exact h
  | written _ wrote => exact wrote.wellFormed
  | failed _ _ _ _ prepared => exact prepared.wellFormed

theorem Became.grows (hb : Became before plan output after) : before.Grows after := by
  cases hb with
  | skipped => exact .refl _
  | written _ wrote => exact wrote.grows
  | failed _ _ _ _ prepared => exact prepared.grows

/-! ## All plans of a run -/

/-- An action for each of several items is the one for the first, then those for the others. -/
theorem run_mapM_cons {α β : Type} (f : α → StateM FileTree β) (a : α) (as : List α) (tree : FileTree) :
    ((a :: as).mapM f).run tree =
      let (b, between) := (f a).run tree
      let (bs, last) := (as.mapM f).run between
      (b :: bs, last) := by
  rw [List.mapM_cons]
  rfl

/-- Performing plans gives one output for each. -/
theorem FileTree.WellFormed.performed (h : before.WellFormed) {plans : List Planned} {outputs : List Output}
    (hp : (plans.mapM Planned.perform : StateM FileTree (List Output)).run before = (outputs, after)) :
    plans.length = outputs.length ∧ Performed before (plans.zip outputs) after := by
  induction plans generalizing before outputs with
  | nil =>
    cases hp
    exact ⟨rfl, .nil _⟩
  | cons plan plans ih =>
    rw [run_mapM_cons] at hp
    rcases hstep : (plan.perform : StateM FileTree Output).run before with ⟨output, between⟩
    rw [hstep] at hp
    dsimp only at hp
    rcases hrest : (plans.mapM Planned.perform : StateM FileTree (List Output)).run between with ⟨others, last⟩
    rw [hrest] at hp
    cases hp
    have became := h.became hstep
    obtain ⟨length_eq, performed⟩ := ih (became.wellFormed h) hrest
    exact ⟨congrArg (· + 1) length_eq, .cons became performed⟩

theorem Performed.wellFormed (hp : Performed before files after) (h : before.WellFormed) : after.WellFormed := by
  induction hp with
  | nil => exact h
  | cons became _ ih => exact ih (became.wellFormed h)

theorem Performed.grows (hp : Performed before files after) : before.Grows after := by
  induction hp with
  | nil => exact .refl _
  | cons became _ ih => exact became.grows.trans ih

theorem Performed.split (hp : Performed before (earlier ++ later) after) :
    ∃ between, Performed before earlier between ∧ Performed between later after := by
  induction earlier generalizing before with
  | nil => exact ⟨before, .nil _, hp⟩
  | cons file earlier ih =>
    cases hp with
    | cons became rest =>
      obtain ⟨between, first, second⟩ := ih rest
      exact ⟨between, .cons became first, second⟩

/-- The bytes of a file are as they were, or a text that was written to its place. -/
theorem Performed.bytes?_eq_or (hp : Performed before files after) (place : Location) :
    after.bytes? place = before.bytes? place ∨
      ∃ path text label, (.write path text label, .written path) ∈ files ∧ after.locate? path = some place ∧
        after.bytes? place = some text.toUTF8 := by
  induction hp with
  | nil => exact .inl rfl
  | @cons before between after plan output files became rest ih =>
    rcases ih with same | ⟨path, text, label, hmem, hl, hbytes⟩
    -- only what none of the other plans changed is left to the first one
    · rw [same]
      cases became with
      | skipped => exact .inl rfl
      | failed _ _ _ _ prepared => exact .inl (prepared.sameFiles place)
      | written label wrote =>
        rw [wrote.bytes?_eq]
        split
        · next here =>
          subst here
          exact .inr ⟨_, _, label, List.mem_cons_self, rest.grows.locate?_eq wrote.locate?_eq, rfl⟩
        · exact .inl rfl
    · exact .inr ⟨path, text, label, List.mem_cons_of_mem _ hmem, hl, hbytes⟩

/-- A text that was written is there at the end, unless a later one is written to the same place. -/
theorem Performed.read?_eq (hp : Performed before (earlier ++ (.write path text label, .written path) :: later) after)
    (alone : ∀ other, .written other ∈ later.map Prod.snd → after.locate? other ≠ after.locate? path) :
    after.read? path = some text.toUTF8 := by
  obtain ⟨between, -, hp⟩ := hp.split
  cases hp with
  | cons became rest =>
    cases became with
    | @written _ _ _ place tree wrote =>
      have hl := rest.grows.locate?_eq wrote.locate?_eq
      rw [read?, hl, Option.bind_some]
      rcases rest.bytes?_eq_or place with same | ⟨other, _, _, hmem, hother, -⟩
      · rw [same, wrote.bytes?_eq, if_pos rfl]
      · exact absurd (hother.trans hl.symm) (alone other (List.mem_map_of_mem hmem))

/-- A path that is reported as written leads to a file. -/
theorem Performed.isFile_of_written (hp : Performed before files after) (hmem : .written path ∈ files.map Prod.snd) :
    ∃ place, after.locate? path = some place ∧ after.isFile place := by
  induction hp with
  | nil => cases hmem
  | @cons before between after plan output files became rest ih =>
    rw [List.map_cons, List.mem_cons] at hmem
    rcases hmem with rfl | hmem
    · cases became with
      | @written _ _ _ place _ wrote =>
        refine ⟨place, rest.grows.locate?_eq wrote.locate?_eq, ?_⟩
        rw [isFile]
        rcases rest.bytes?_eq_or place with same | ⟨_, _, _, -, -, hbytes⟩
        · rw [same, wrote.bytes?_eq, if_pos rfl]
          rfl
        · rw [hbytes]
          rfl
    · exact ih hmem

/-- A plan to skip is skipped, and a text is written or that fails. -/
theorem Performed.answers (hp : Performed before files after) (hmem : (plan, output) ∈ files) :
    (∃ path, plan = .skip path ∧ output = .skipped path) ∨
      ∃ path text label, plan = .write path text label ∧
        (output = .written path ∨ ∃ cause, output = .failed label cause) := by
  induction hp with
  | nil => cases hmem
  | cons became _ ih =>
    rcases List.mem_cons.mp hmem with same | hmem
    · cases same
      cases became with
      | skipped path => exact .inl ⟨path, rfl, rfl⟩
      | written label _ => exact .inr ⟨_, _, label, rfl, .inl rfl⟩
      | failed path text label cause _ => exact .inr ⟨path, text, label, rfl, .inr ⟨cause, rfl⟩⟩
    · exact ih hmem

/-- What was written was planned. -/
theorem Performed.eq_write_of_mem (hp : Performed before files after) (hmem : (plan, .written path) ∈ files) :
    ∃ text label, plan = .write path text label := by
  rcases hp.answers hmem with ⟨_, -, skipped⟩ | ⟨_, text, label, rfl, written | ⟨_, failed⟩⟩
  · cases skipped
  · cases written
    exact ⟨text, label, rfl⟩
  · cases failed

/-! ## Outputs that share places -/

theorem Meet.symm {other : Planned} (h : Meet after plan other) : Meet after other plan := by
  obtain ⟨path, path', place, hpath, hpath', hf, hl, hl'⟩ := h
  exact ⟨path', path, place, hpath', hpath, hf, hl', hl⟩

/-- What holds of plans that share a place holds of files that were written to one. -/
theorem Performed.pairwise_of_meet {R : Planned → Planned → Prop} (hp : Performed before files after)
    (h : (files.map Prod.fst).Pairwise fun plan other => Meet after plan other → R plan other) :
    files.Pairwise fun file other => ∀ path path', file.2 = .written path → other.2 = .written path' →
      after.locate? path = after.locate? path' → R file.1 other.1 := by
  rw [List.pairwise_map] at h
  refine (List.Pairwise.and_mem.mp h).imp ?_
  rintro ⟨plan, _⟩ ⟨other, _⟩ ⟨hmem, hmem', holds⟩ path path' rfl rfl same
  obtain ⟨_, _, rfl⟩ := hp.eq_write_of_mem hmem
  obtain ⟨_, _, rfl⟩ := hp.eq_write_of_mem hmem'
  obtain ⟨place, hl, hf⟩ := hp.isFile_of_written (List.mem_map_of_mem hmem)
  exact holds ⟨path, path', place, rfl, rfl, hf, hl, same.symm.trans hl⟩

theorem Performed.apart (hp : Performed before files after)
    (h : (files.map Prod.fst).Pairwise fun plan other => ¬Meet after plan other) : Apart after (files.map Prod.snd) := by
  rw [Apart, List.pairwise_map]
  exact hp.pairwise_of_meet h

/-- Paths that lead to different places are different. -/
theorem Apart.nodup_writtenPaths {outputs : List Output} (h : Apart after outputs) : (writtenPaths outputs).Nodup := by
  refine List.Pairwise.filterMap _ (fun output other apart path hpath path' hpath' => ?_) h
  rintro rfl
  exact apart path path (Output.writtenPath?_eq_some_iff.mp hpath) (Output.writtenPath?_eq_some_iff.mp hpath') rfl

/-- Texts that are written to different places all stay. -/
theorem Performed.read?_of_apart (hp : Performed before files after) (h : Apart after (files.map Prod.snd))
    (hmem : (.write path text label, .written path) ∈ files) : after.read? path = some text.toUTF8 := by
  obtain ⟨earlier, later, rfl⟩ := List.append_of_mem hmem
  refine hp.read?_eq fun other hother => ?_
  rw [Apart, List.map_append, List.pairwise_append, List.map_cons, List.pairwise_cons] at h
  exact (h.2.1.1 _ hother path other rfl rfl).symm

/-- Each plan has its output. -/
theorem Performed.tells {plans : List Planned} {outputs : List Output} (length_eq : plans.length = outputs.length)
    (hp : Performed before (plans.zip outputs) after) (h : Apart after outputs) :
    List.Forall₂ (Planned.Tells after) plans outputs := by
  rw [List.forall₂_iff_zip]
  refine ⟨length_eq, fun {plan output} hmem => ?_⟩
  rw [← List.map_snd_zip (Nat.le_of_eq length_eq.symm)] at h
  rcases hp.answers hmem with ⟨path, rfl, rfl⟩ | ⟨path, text, label, rfl, rfl | ⟨_, rfl⟩⟩
  · rfl
  · exact ⟨rfl, hp.read?_of_apart h hmem⟩
  · rfl

end

end JackCompiler
