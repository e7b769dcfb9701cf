import JackCompiler.CommandLine.Run
import JackCompiler.Proofs.Project.Performed
import JackCompiler.Proofs.Project.Sources
import JackCompiler.Proofs.Project.Workers

/-!
# Builds

A build finds the sources of a root, compiles them and writes the outputs: a run of the program without its reports
(`Run.compileInput_run`). On a file tree finding and compiling change nothing, every source is compiled from what the tree
holds at the beginning, whatever the number of workers, and what was planned is performed (`buildOn_eq_ok_iff`).
-/

namespace JackCompiler

/-- Why a build comes to nothing. -/
inductive BuildFault where
  /-- The sources cannot be collected. -/
  | sourceless (cause : FileError)
  /-- The sources cannot be shared among workers. -/
  | unshared (cause : SharingFault)

/-- Finds the sources of a root, compiles them, and writes the outputs. -/
def build {m : Type → Type} [Monad m] [FileSystem m] (config : Config) (options : UnitOptions) (jobs : Nat)
    (root : Path) : m (Except BuildFault (List SourceUnit × List Output)) := do
  match ← collectSources root config.sourceExtension with
  | .error cause => return .error (.sourceless cause)
  | .ok sources =>
    match ← compileFiles options jobs sources with
    | .error cause => return .error (.unshared cause)
    | .ok units =>
      let outputs ← writeOutputs config root units
      return .ok (units, outputs)

/-- A build on a file tree: what it comes to, and the tree afterwards. -/
def buildOn (config : Config) (options : UnitOptions) (jobs : Nat) (root : Path) (tree : FileTree) :
    Except BuildFault (List SourceUnit × List Output) × FileTree :=
  (build config options jobs root : StateM FileTree (Except BuildFault (List SourceUnit × List Output))).run tree

/-- The units that sources of a tree are compiled to. -/
def unitsOf (options : UnitOptions) (tree : FileTree) (sources : List Path) : List SourceUnit :=
  sources.map fun source => compileSource options source (tree.read? source)

theorem compileSource_source {options : UnitOptions} {source : Path} {bytes? : Option ByteArray} :
    (compileSource options source bytes?).source = source := by
  rw [compileSource]
  split <;> rfl

section

variable {config : Config} {options : UnitOptions} {root : Path} {before after : FileTree} {units : List SourceUnit}
  {outputs : List Output} {sources : List Path}

theorem lookup_map_pair {f : Path → Option ByteArray} {source : Path} (h : source ∈ sources) :
    (sources.map fun source => (source, f source)).lookup source = some (f source) := by
  induction sources with
  | nil => cases h
  | cons other sources ih =>
    rw [List.map_cons, List.lookup_cons]
    by_cases same : source = other
    · rw [same, beq_self_eq_true]
    · rw [beq_false_of_ne same]
      exact ih ((List.mem_cons.mp h).resolve_left same)

/-- Questions for several items leave a tree as it is when each does. -/
theorem run_mapM_of_question {α β : Type} {ask : α → StateM FileTree β} {answer : α → β} {tree : FileTree}
    (h : ∀ a, (ask a).run tree = (answer a, tree)) (as : List α) :
    (as.mapM ask).run tree = (as.map answer, tree) := by
  induction as with
  | nil => rfl
  | cons a as ih =>
    rw [run_mapM_cons, h a]
    dsimp only
    rw [ih]
    rfl

/-- Sources are compiled from what a tree holds, which stays as it is. -/
theorem compileFiles_run (options : UnitOptions) (jobs : Nat) (sources : List Path) (tree : FileTree) :
    (compileFiles options jobs sources : StateM FileTree (Except SharingFault (List SourceUnit))).run tree =
      (.ok (unitsOf options tree sources), tree) := by
  have units : (compileAll (fun source => ((sources.map fun source => (source, tree.read? source)).lookup source).join)
      options jobs sources).map Work.results = .ok (unitsOf options tree sources) := by
    rw [compileAll, results_mapShared]
    refine congrArg Except.ok (List.map_congr_left fun source hsource => ?_)
    rw [lookup_map_pair hsource, Option.join_some]
  have contents : (sources.mapM fun source => do return (source, ← FileSystem.read source) :
      StateM FileTree (List (Path × Option ByteArray))).run tree =
        (sources.map fun source => (source, tree.read? source), tree) := by
    refine run_mapM_of_question (fun source => ?_) sources
    rfl
  rw [compileFiles, StateT.run_bind, contents]
  exact congrArg (·, tree) units

theorem map_source_unitsOf (options : UnitOptions) (tree : FileTree) (sources : List Path) :
    (unitsOf options tree sources).map (·.source) = sources := by
  rw [unitsOf, List.map_map]
  exact (List.map_congr_left fun source _ => compileSource_source).trans (List.map_id sources)

theorem writeOutputs_run (config : Config) (root : Path) (units : List SourceUnit) (tree : FileTree) :
    (writeOutputs config root units : StateM FileTree (List Output)).run tree =
      ((planOutputs config root (tree.look root).isDirectory units).mapM Planned.perform :
        StateM FileTree (List Output)).run tree := rfl

/-- A build whose sources are found compiles them and performs what is planned. -/
theorem buildOn_of_sources (jobs : Nat) (hs : sourcesOf root config.sourceExtension (before.look root) = .ok sources) :
    buildOn config options jobs root before =
      let units := unitsOf options before sources
      let (outputs, after) := ((planOutputs config root (before.look root).isDirectory units).mapM Planned.perform :
        StateM FileTree (List Output)).run before
      (.ok (units, outputs), after) := by
  rw [buildOn, build, StateT.run_bind, collectSources_run, hs]
  change StateT.run (compileFiles options jobs sources >>= _) before = _
  rw [StateT.run_bind, compileFiles_run]
  rfl

/-- A build compiles the sources that are found and performs what is planned, when some are found. -/
theorem buildOn_eq_ok_iff {jobs : Nat} :
    buildOn config options jobs root before = (.ok (units, outputs), after) ↔
      ∃ sources, sourcesOf root config.sourceExtension (before.look root) = .ok sources ∧
        units = unitsOf options before sources ∧
        ((planOutputs config root (before.look root).isDirectory units).mapM Planned.perform :
          StateM FileTree (List Output)).run before = (outputs, after) := by
  constructor
  · intro h
    cases hs : sourcesOf root config.sourceExtension (before.look root) with
    | error e =>
      rw [buildOn, build, StateT.run_bind, collectSources_run, hs] at h
      cases h
    | ok sources =>
      rw [buildOn_of_sources jobs hs] at h
      cases h
      exact ⟨sources, rfl, rfl, rfl⟩
  · rintro ⟨sources, hs, rfl, hrun⟩
    rw [buildOn_of_sources jobs hs]
    dsimp only
    rw [hrun]

/-- The program builds its input and reports on that. -/
theorem Run.compileInput_run {readers : Readers} {input : String} {a : Arguments} {given : Config}
    (hload : (loadConfig readers a.config? : StateM FileTree (Except FileError Config)).run before = (.ok given, before))
    (hbuild : buildOn (overrideWith given a) (unitOptions (overrideWith given a) a) (overrideWith given a).workers ⟨input⟩
      before = (.ok (units, outputs), after)) :
    (compileInput readers input a : StateM FileTree RunResult).run before =
      (finished input (a.has .verbose)
        (banner ++ line "1. Collect Sources" ++ sourcesReport (units.map (·.source)) ++
          line ("2. Compile (" ++ toString (overrideWith given a).workers ++ " jobs)")) units outputs, after) := by
  obtain ⟨sources, hs, rfl, hrun⟩ := buildOn_eq_ok_iff.mp hbuild
  rw [compileInput, StateT.run_bind, hload]
  change StateT.run (collectSources ⟨input⟩ (overrideWith given a).sourceExtension >>= _) before = _
  rw [StateT.run_bind, collectSources_run, hs]
  change StateT.run (compileFiles _ _ sources >>= _) before = _
  rw [StateT.run_bind, compileFiles_run]
  change StateT.run (writeOutputs _ _ _ >>= _) before = _
  rw [StateT.run_bind, writeOutputs_run, hrun, map_source_unitsOf]
  rfl

end

end JackCompiler
