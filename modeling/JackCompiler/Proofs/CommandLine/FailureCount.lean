import JackCompiler.Proofs.CommandLine.ExitStatus

/-!
# What the last line of a report counts

The last line of a report with failures says how many units of all failed, but its first number counts failures. A unit
that was not compiled is one, and so is every output that was not written: a unit whose code and listing both failed counts
twice (`failure_line_exceeds`), and a combined file counts once, though all units share it. Main statement:
`Run.failure_line_counts`. Without listings, and unless a combined file failed, the number is that of the failed units.
-/

namespace JackCompiler

open Planned (AnsweredBy)

/-- The outputs of a run, apart by what they belong to: those that all units share, and those of each unit. -/
structure Grouped (config : Config) (root : Path) (isDirectory : Bool) (units : List SourceUnit)
    (outputs shared : List Output) (own : List (List Output)) : Prop where
  eq : outputs = shared ++ own.flatten
  ofAll : List.Forall₂ AnsweredBy (sharedPlans config root isDirectory units) shared
  ofEach : List.Forall₂
    (fun unit files => List.Forall₂ AnsweredBy (planUnit config (config.shares isDirectory units) unit) files) units own

/-- The number of units that were not compiled or have an output that failed. -/
def failedUnits (units : List SourceUnit) (shared : List Output) (own : List (List Output)) : Nat :=
  (units.zip own).countP fun unit => !unit.1.isCompiled || (shared ++ unit.2).any Run.isFailed

/-- The number of units with two outputs that failed. -/
def twiceFailed (own : List (List Output)) : Nat :=
  own.countP fun files => files.countP Run.isFailed = 2

/-- How a number of failures is made up. -/
structure CountsFailures (tokens : Bool) (units : List SourceUnit) (shared : List Output) (own : List (List Output))
    (failed : Nat) : Prop where
  /-- Every failed unit counts, and once more when both its files failed. -/
  separate : shared.any Run.isFailed = false → failed = failedUnits units shared own + twiceFailed own
  /-- Without listings every failed unit counts once. -/
  withoutListings : tokens = false → shared.any Run.isFailed = false → failed = failedUnits units shared own
  /-- A combined file fails for all units, but counts once; every listing that fails counts, too. -/
  combined : shared.any Run.isFailed = true →
    failedUnits units shared own = units.length ∧ failed = 1 + own.countP (·.any Run.isFailed)
  le : failed ≤ 2 * units.length

section

variable {α β γ : Type} {R : β → γ → Prop} {config : Config} {options : UnitOptions} {root : Path}
  {before after : FileTree} {units : List SourceUnit} {outputs shared : List Output} {own : List (List Output)}
  {isDirectory isCombined : Bool} {unit : SourceUnit}

/-! ## Grouping -/

/-- What is related to a list and another behind it is two lists, one behind the other. -/
theorem exists_append_of_forall₂ {bs bs' : List β} {cs : List γ} (h : List.Forall₂ R (bs ++ bs') cs) :
    ∃ first second, cs = first ++ second ∧ List.Forall₂ R bs first ∧ List.Forall₂ R bs' second := by
  have first := List.forall₂_take bs.length h
  have second := List.forall₂_drop bs.length h
  rw [List.take_left] at first
  rw [List.drop_left] at second
  exact ⟨_, _, (List.take_append_drop _ _).symm, first, second⟩

theorem exists_flatten_of_forall₂ {f : α → List β} {as : List α} {cs : List γ} (h : List.Forall₂ R (as.flatMap f) cs) :
    ∃ groups : List (List γ), cs = groups.flatten ∧ List.Forall₂ (fun a group => List.Forall₂ R (f a) group) as groups := by
  induction as generalizing cs with
  | nil =>
    obtain rfl := List.forall₂_nil_left_iff.mp h
    exact ⟨[], rfl, .nil⟩
  | cons a as ih =>
    rw [List.flatMap_cons] at h
    obtain ⟨group, rest, rfl, first, others⟩ := exists_append_of_forall₂ h
    obtain ⟨groups, rfl, grouped⟩ := ih others
    exact ⟨group :: groups, rfl, .cons first grouped⟩

/-- The outputs of a build can be grouped. -/
theorem Built.exists_grouped (h : Built config options root before units outputs after) :
    ∃ shared own, Grouped config root (before.look root).isDirectory units outputs shared own := by
  have answered := h.answered
  rw [planOutputs_eq_append] at answered
  obtain ⟨shared, rest, rfl, ofAll, answered⟩ := exists_append_of_forall₂ answered
  obtain ⟨own, rfl, ofEach⟩ := exists_flatten_of_forall₂ answered
  exact ⟨shared, own, rfl, ofAll, ofEach⟩

/-! ## Counting -/

/-- A unit has at most one code file and at most one listing. -/
theorem length_planUnit_le (config : Config) (isCombined : Bool) (unit : SourceUnit) :
    (planUnit config isCombined unit).length ≤
      (!isCombined).toNat + (unit.compiled?.bind (·.listing?)).isSome.toNat := by
  rw [planUnit_eq]
  cases unit.compiled? with
  | none => exact Nat.zero_le _
  | some compiled =>
    rw [Option.map_some, Option.toList_some, List.flatMap_singleton, plansFor, listingPlan?, Option.bind_some]
    dsimp only
    cases isCombined <;> cases compiled.listing? <;> exact Nat.le_refl _

theorem planUnit_eq_nil (failed : unit.isCompiled = false) : planUnit config isCombined unit = [] := by
  rw [planUnit]
  cases hc : unit.compiled? with
  | none => rfl
  | some compiled =>
    rw [isCompiled_of_compiled? hc] at failed
    cases failed

/-- A unit that was not compiled has no outputs of its own. -/
theorem Grouped.eq_nil_of_failed (h : Grouped config root isDirectory units outputs shared own) :
    List.Forall₂ (fun unit files => unit.isCompiled = false → files = []) units own := by
  refine h.ofEach.imp fun unit files answered failed => ?_
  rw [planUnit_eq_nil failed] at answered
  exact List.forall₂_nil_left_iff.mp answered

theorem Grouped.length_le {bound : Nat} (h : Grouped config root isDirectory units outputs shared own)
    (hb : ∀ unit ∈ units, (planUnit config (config.shares isDirectory units) unit).length ≤ bound) :
    ∀ files ∈ own, files.length ≤ bound := by
  intro files hmem
  obtain ⟨unit, hu, answered⟩ := exists_mem_left_of_forall₂ h.ofEach hmem
  rw [← answered.length_eq]
  exact hb unit hu

/-- Of at most two outputs that failed, one counts for the failure of any, and another one for that of both. -/
theorem countP_eq_of_length_le (p : α → Bool) {as : List α} (h : as.length ≤ 2) :
    as.countP p = (if as.any p then 1 else 0) + (if as.countP p = 2 then 1 else 0) := by
  have le : as.countP p ≤ 2 := Nat.le_trans List.countP_le_length h
  cases any : as.any p with
  | false =>
    rw [List.any_eq_false] at any
    rw [List.countP_eq_zero.mpr any]
    rfl
  | true =>
    rw [List.any_eq_true, ← List.countP_pos_iff] at any
    rw [if_pos rfl]
    split <;> omega

theorem countP_flatten_eq (h : ∀ files ∈ own, files.length ≤ 2) :
    own.flatten.countP Run.isFailed = own.countP (·.any Run.isFailed) + twiceFailed own := by
  rw [twiceFailed]
  induction own with
  | nil => rfl
  | cons files own ih =>
    obtain ⟨first, others⟩ := List.forall_mem_cons.mp h
    have counted := countP_eq_of_length_le Run.isFailed first
    rw [List.flatten_cons, List.countP_append, List.countP_cons, List.countP_cons, ih others]
    simp only [decide_eq_true_eq]
    omega

/-- When no shared output failed, a unit failed by itself or has an output that did. -/
theorem failedUnits_eq (hs : shared.any Run.isFailed = false)
    (h : List.Forall₂ (fun unit files => unit.isCompiled = false → files = []) units own) :
    failedUnits units shared own =
      (units.countP fun unit => !unit.isCompiled) + own.countP (·.any Run.isFailed) := by
  rw [failedUnits]
  simp only [List.any_append, hs, Bool.false_or]
  induction h with
  | nil => rfl
  | @cons unit files units own empty _ ih =>
    rw [List.zip_cons_cons, List.countP_cons, List.countP_cons, List.countP_cons, ih]
    cases hc : unit.isCompiled with
    -- without files of its own, a unit that was not compiled counts once
    | false =>
      rw [empty hc]
      exact Nat.add_right_comm _ _ _
    | true => exact Nat.add_assoc _ _ _

/-- When a shared output failed, all units failed. -/
theorem failedUnits_eq_length (hs : shared.any Run.isFailed = true) (h : units.length = own.length) :
    failedUnits units shared own = units.length := by
  rw [failedUnits, List.countP_eq_length.mpr, List.length_zip, h, Nat.min_self]
  intro unit _
  rw [List.any_append, hs, Bool.true_or, Bool.or_true]

theorem twiceFailed_eq_zero (h : ∀ files ∈ own, files.length ≤ 1) : twiceFailed own = 0 := by
  refine List.countP_eq_zero.mpr fun files hmem => ?_
  have le : files.countP Run.isFailed ≤ 1 := Nat.le_trans List.countP_le_length (h files hmem)
  rw [decide_eq_true_eq]
  omega

/-- A shared output that failed is the only one, and the units are combined. -/
theorem Grouped.shares_of_any (h : Grouped config root isDirectory units outputs shared own)
    (hs : shared.any Run.isFailed = true) :
    config.shares isDirectory units = true ∧ shared.countP Run.isFailed = 1 := by
  have ofAll := h.ofAll
  rw [sharedPlans] at ofAll
  rw [Config.shares]
  cases combining : config.combine && isDirectory with
  | false =>
    rw [combining, if_neg Bool.false_ne_true] at ofAll
    rw [List.forall₂_nil_left_iff.mp ofAll] at hs
    cases hs
  | true =>
    rw [combining, if_pos rfl] at ofAll
    obtain ⟨output, _, answered, rest, rfl⟩ := List.forall₂_cons_left_iff.mp ofAll
    obtain rfl := List.forall₂_nil_left_iff.mp rest
    rw [List.any_cons, List.any_nil, Bool.or_false] at hs
    refine ⟨?_, by rw [List.countP_singleton, if_pos hs]⟩
    cases all : units.all SourceUnit.isCompiled with
    | true => rfl
    | false =>
      rw [all, if_neg Bool.false_ne_true] at answered
      cases answered
      cases hs

/-- How the failures of a run are made up. -/
theorem Grouped.countsFailures {tokens : Bool} (h : Grouped config root isDirectory units outputs shared own)
    (nonempty : units ≠ []) (unlisted : tokens = false → ∀ unit ∈ units, unit.compiled?.bind (·.listing?) = none) :
    CountsFailures tokens units shared own (Run.failures units outputs) := by
  have lengths := h.ofEach.length_eq
  have length_le : ∀ files ∈ own, files.length ≤ 2 := h.length_le fun unit _ => by
    refine Nat.le_trans (length_planUnit_le config _ unit) ?_
    exact Nat.add_le_add (Bool.toNat_le _) (Bool.toNat_le _)
  have failures_eq : Run.failures units outputs = units.countP (fun unit => !unit.isCompiled) +
      (shared.countP Run.isFailed + (own.countP (·.any Run.isFailed) + twiceFailed own)) := by
    rw [Run.failures, h.eq, List.countP_append, countP_flatten_eq length_le]
  have separate : shared.any Run.isFailed = false →
      Run.failures units outputs = failedUnits units shared own + twiceFailed own := by
    intro hs
    have none : shared.countP Run.isFailed = 0 := List.countP_eq_zero.mpr (List.any_eq_false.mp hs)
    rw [failures_eq, none, failedUnits_eq hs h.eq_nil_of_failed]
    omega
  have combined : shared.any Run.isFailed = true → failedUnits units shared own = units.length ∧
      Run.failures units outputs = 1 + own.countP (·.any Run.isFailed) := by
    intro hs
    obtain ⟨shares, one⟩ := h.shares_of_any hs
    have compiled : units.countP (fun unit => !unit.isCompiled) = 0 := by
      rw [Config.shares, Bool.and_eq_true, List.all_eq_true] at shares
      refine List.countP_eq_zero.mpr fun unit hu => ?_
      rw [shares.2 unit hu]
      exact Bool.false_ne_true
    -- the code is shared, so a unit has at most its listing for itself
    have listings : twiceFailed own = 0 := by
      refine twiceFailed_eq_zero (h.length_le fun unit _ => Nat.le_trans (length_planUnit_le config _ unit) ?_)
      rw [shares]
      exact Nat.add_le_add (Nat.le_refl 0) (Bool.toNat_le _)
    refine ⟨failedUnits_eq_length hs lengths, ?_⟩
    rw [failures_eq, compiled, one, listings, Nat.zero_add, Nat.add_zero]
  constructor
  case separate => exact separate
  case combined => exact combined
  case withoutListings =>
    intro off hs
    have code : twiceFailed own = 0 := by
      refine twiceFailed_eq_zero (h.length_le fun unit hu => Nat.le_trans (length_planUnit_le config _ unit) ?_)
      rw [unlisted off unit hu]
      exact Nat.add_le_add (Bool.toNat_le _) (Nat.le_refl 0)
    rw [separate hs, code, Nat.add_zero]
  case le =>
    have some : 0 < units.length := List.length_pos_iff.mpr nonempty
    have any_le : own.countP (·.any Run.isFailed) ≤ own.length := List.countP_le_length
    cases hs : shared.any Run.isFailed with
    | true =>
      rw [(combined hs).2]
      omega
    | false =>
      have failed_le : failedUnits units shared own ≤ (units.zip own).length := List.countP_le_length
      have twice_le : twiceFailed own ≤ own.length := List.countP_le_length
      rw [List.length_zip] at failed_le
      rw [separate hs]
      omega

end

/-! ## The last line -/

namespace Run

section

variable {readers : Readers} {args : List String} {input : String} {a : Arguments} {before after : FileTree}
  {config : Config} {units : List SourceUnit} {outputs : List Output}

/-- A run with failures exits with 1, and its report ends with the line that counts them. -/
theorem Takes.exists_startOn_eq (h : Takes readers input a before (.built config units outputs) after)
    (hargs : readers.arguments args = .ok (input, a)) (failed : failures units outputs ≠ 0) :
    ∃ front, startOn readers args before = (⟨1, front ++ failureLine (failures units outputs) units.length⟩, after) := by
  have last : closing input units.length (failures units outputs) =
      failureLine (failures units outputs) units.length := if_neg failed
  rw [h.startOn_eq hargs, Course.result, Course.exit, if_neg failed, Course.passages, reportText_append,
    reportText_cons, reportText_nil, String.append_empty, Passage.text, last]
  exact ⟨_, rfl⟩

/-- The last line of the report on a run with failures: the second number is that of the sources, and the first one counts
failures. -/
theorem failure_line_counts (hw : before.WellFormed) (hargs : readers.arguments args = .ok (input, a))
    (h : Takes readers input a before (.built config units outputs) after) (failed : failures units outputs ≠ 0) :
    (∃ front, startOn readers args before = (⟨1, front ++ failureLine (failures units outputs) units.length⟩, after)) ∧
    sourcesOf ⟨input⟩ config.sourceExtension (before.look ⟨input⟩) = .ok (units.map (·.source)) ∧
    ∃ shared own, Grouped config ⟨input⟩ (before.look ⟨input⟩).isDirectory units outputs shared own ∧
      CountsFailures (a.has .tokens) units shared own (failures units outputs) := by
  refine ⟨h.exists_startOn_eq hargs failed, ?_⟩
  cases h with
  | built _ hb =>
    have built := hw.built hb
    obtain ⟨shared, own, grouped⟩ := built.exists_grouped
    refine ⟨built.sources, shared, own, grouped, grouped.countsFailures ?_ fun off unit hu => ?_⟩
    · rintro rfl
      rcases sourcesOf_eq_ok_iff.mp built.sources with ⟨-, absurd⟩ | ⟨_, -, nonempty, absurd⟩
      · cases absurd
      · exact nonempty (List.map_eq_nil_iff.mp absurd.symm)
    · cases hc : unit.compiled? with
      | none => rfl
      | some compiled => exact listing?_eq_none off (built.units_eq ▸ hu) hc

/-- A run of three units of which one fails. -/
theorem failure_line_counts_partlyGood :
    ∃ config units outputs after front,
      startOn .usual ["-c", "-o", "/out", "../p"] partlyGood = (⟨1, front ++ failureLine 1 3⟩, after) ∧
      ∃ shared own, Grouped config ⟨"../p"⟩ true units outputs shared own ∧ CountsFailures false units shared own 1 := by
  obtain ⟨units, outputs, after, takes, length_eq, -, failures_eq⟩ := takes_partlyGood
  obtain ⟨⟨front, started⟩, -, counted⟩ :=
    failure_line_counts partlyGood_wellFormed read_combineArguments takes (failures_eq ▸ Nat.one_ne_zero)
  rw [failures_eq, length_eq] at started
  rw [failures_eq] at counted
  exact ⟨_, units, outputs, after, front, started, counted⟩

end

end Run

/-! ## A unit that counts twice -/

/-- A directory of one source, beside a file. -/
def blocked : FileTree where
  directories := [["d"]]
  files := [(["d", "Main.jack"], "class Main \x7b \x7d".toUTF8), (["out"], "".toUTF8)]

theorem blocked_sources :
    sourcesOf ⟨"d"⟩ "jack" (blocked.look ⟨"d"⟩) = .ok (["Main.jack"].map fun name => (Path.mk "d").join ⟨name⟩) := by
  have found : blocked.look ⟨"d"⟩ = .directory [⟨"Main.jack", true⟩] := by decide +kernel
  exact sourcesOf_directory found (by decide +kernel) (by decide +kernel) (by decide)

/-- With outputs wanted where the file stands, the code and the listing of the only unit fail, and the last line speaks of
two units of one. -/
theorem failure_line_exceeds :
    ∃ front after, Run.startOn .usual ["-t", "-o", "out", "d"] blocked = (⟨1, front ++ Run.failureLine 2 1⟩, after) ∧
      sourcesOf ⟨"d"⟩ "jack" (blocked.look ⟨"d"⟩) = .ok [⟨"d/Main.jack"⟩] := by
  have hargs : Readers.usual.arguments ["-t", "-o", "out", "d"] =
      .ok ("d", { input? := some "d", flags := [.tokens], output? := some ⟨"out"⟩ }) := by rfl
  obtain ⟨units, outputs, after, takes, failures_eq, length_eq⟩ : ∃ units outputs after,
      Run.Takes .usual "d" { input? := some "d", flags := [.tokens], output? := some ⟨"out"⟩ } blocked
        (.built (Run.overrideWith {} { input? := some "d", flags := [.tokens], output? := some ⟨"out"⟩ }) units outputs)
        after ∧
      Run.failures units outputs = 2 ∧ units.length = 1 :=
    ⟨_, _, _, .built rfl (buildOn_eq_ok_iff.mpr ⟨_, blocked_sources, rfl, rfl⟩), by decide +kernel⟩
  obtain ⟨front, started⟩ := takes.exists_startOn_eq hargs (failures_eq ▸ Nat.succ_ne_zero 1)
  rw [failures_eq, length_eq] at started
  exact ⟨front, after, started, blocked_sources⟩

end JackCompiler
