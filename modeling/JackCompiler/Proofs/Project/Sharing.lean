import JackCompiler.Proofs.Project.Build

/-!
# Sources that share workers

Workers take the sources in shares, one after another. Every source has its unit, in the order of sources, and that is the
one it is compiled to alone: neither the number of workers nor what other files hold makes a difference. Work can always be
shared: there is at least one worker, no share is empty, and no more workers are started than are wanted (`IsDone`). Main
statement: `shared_work_changes_nothing`.
-/

namespace JackCompiler

/-- What compiling sources with up to `jobs` workers comes to, whatever the files hold. -/
structure WorksShared (options : UnitOptions) (jobs : Nat) (sources : List Path) : Prop where
  /-- Each source has one unit, in the order of sources: the one it is compiled to alone. -/
  units : ∀ read, ∃ work, compileAll read options jobs sources = .ok work ∧
    work.results = sources.map fun source => compileSource options source (read source)
  /-- The workers that are started, their shares and what they come to. -/
  done : ∀ read work, compileAll read options jobs sources = .ok work →
    IsDone jobs (fun source => compileSource options source (read source)) sources work
  /-- Another number of workers comes to the same. -/
  anyNumber : ∀ read other, (compileAll read options other sources).map Work.results =
    (compileAll read options jobs sources).map Work.results
  /-- The unit of a source depends on the file of this source only. -/
  alone : ∀ read read' work work' (i : Nat), compileAll read options jobs sources = .ok work →
    compileAll read' options jobs sources = .ok work' →
      (∀ source, sources[i]? = some source → read source = read' source) → work.results[i]? = work'.results[i]?
  /-- On a file tree the files are those of the tree, which stays as it is. -/
  onTree : ∀ tree, (compileFiles options jobs sources : StateM FileTree (Except SharingFault (List SourceUnit))).run tree =
    (.ok (sources.map fun source => compileSource options source (tree.read? source)), tree)

/-- Sharing the sources among workers changes nothing about their units. -/
theorem shared_work_changes_nothing (options : UnitOptions) (jobs : Nat) (sources : List Path) :
    WorksShared options jobs sources := by
  have done (read : Path → Option ByteArray) (work : Work Path SourceUnit)
      (h : compileAll read options jobs sources = .ok work) :
      IsDone jobs (fun source => compileSource options source (read source)) sources work := by
    obtain ⟨work', work_eq, done⟩ := exists_mapShared_eq_ok jobs _ sources
    cases h.symm.trans work_eq
    exact done
  constructor
  case units =>
    intro read
    obtain ⟨work, work_eq, done⟩ := exists_mapShared_eq_ok jobs _ sources
    exact ⟨work, work_eq, done.results_eq⟩
  case done => exact done
  case anyNumber => exact fun read other => (results_mapShared other _ sources).trans (results_mapShared jobs _ sources).symm
  case alone =>
    intro read read' work work' i h h' same
    rw [(done read work h).results_eq, (done read' work' h').results_eq, List.getElem?_map, List.getElem?_map]
    cases hi : sources[i]? with
    | none => rfl
    | some source => rw [Option.map_some, Option.map_some, same source hi]
  case onTree => exact compileFiles_run options jobs sources

/-- Four workers are wanted for five sources; three are started, the last with one source. -/
example : (mapShared 4 (· + 1) [1, 2, 3, 4, 5]).toOption.map (fun work => work.workers.map (·.share)) =
    some [[1, 2], [3, 4], [5]] := by decide +kernel

end JackCompiler
