import JackCompiler.Project.Units
import Mathlib.Algebra.Order.Floor.Div

/-!
# Workers and their shares

Shares are cut from a list one after another, and every item is in one of them (`flatten_cut`). A share is as large as it
has to be for the workers to be enough, and that is never 0 where there is more than one worker (`exists_shares`). So work
can always be shared, whatever it is, and comes to the results that it has without any sharing (`exists_mapShared_eq_ok`).
-/

namespace JackCompiler

/-- The shares of a list that as many workers can take. -/
structure AreShares {α : Type} (size workers : Nat) (items : List α) (parts : List (List α)) : Prop where
  flatten_eq : parts.flatten = items
  length_le : parts.length ≤ workers
  ne_nil : ∀ share ∈ parts, share ≠ []
  size_le : ∀ share ∈ parts, share.length ≤ size

/-- Work that was done with up to `jobs` workers: applying a function to all items of a list. -/
structure IsDone {α β : Type} (jobs : Nat) (f : α → β) (items : List α) (work : Work α β) : Prop where
  results_eq : work.results = items.map f
  /-- No more workers are started than are wanted. -/
  length_le : work.workers.length ≤ max jobs 1
  /-- Where one worker is enough, none is started. -/
  alone : workersFor items.length jobs = 1 → work.workers = []
  /-- Where more are wanted, the items are cut into shares of a size that is not 0, and each of these has its worker. -/
  shared : workersFor items.length jobs ≠ 1 → ∃ size, size ≠ 0 ∧
    shareSize items.length (workersFor items.length jobs) = .ok size ∧
    shares size items = .ok (work.workers.map (·.share)) ∧
    AreShares size (workersFor items.length jobs) items (work.workers.map (·.share))
  /-- The results are those of the workers, then. -/
  gathered : workersFor items.length jobs ≠ 1 → work.results = work.workers.flatMap fun worker => worker.task.get
  each : ∀ worker ∈ work.workers, worker.task.get = worker.share.map f

section

variable {α β : Type} {jobs sources workers size more count : Nat} {items share : List α} {f : α → β}

/-! ## Shares -/

theorem flatten_cut (more : Nat) (items : List α) : (cut more items).flatten = items := by
  fun_induction cut more items with
  | case1 => rfl
  | case2 a rest ih => rw [List.flatten_cons, ih, List.cons_append, List.take_append_drop]

/-- Shares are no more than it takes for all items to have room in them. -/
theorem length_cut_le (h : items.length ≤ (more + 1) * count) : (cut more items).length ≤ count := by
  fun_induction cut more items generalizing count with
  | case1 => exact Nat.zero_le count
  | case2 a rest ih =>
    cases count with
    | zero => cases h
    | succ count =>
      rw [List.length_cons, Nat.mul_succ] at h
      refine Nat.succ_le_succ (ih ?_)
      rw [List.length_drop]
      omega

theorem mem_cut (h : share ∈ cut more items) : share ≠ [] ∧ share.length ≤ more + 1 := by
  fun_induction cut more items with
  | case1 => cases h
  | case2 a rest ih =>
    rcases List.mem_cons.mp h with rfl | h
    · exact ⟨List.cons_ne_nil _ _, Nat.succ_le_succ (List.length_take_le _ _)⟩
    · exact ih h

/-! ## Workers -/

theorem workersFor_ne_zero (sources jobs : Nat) : workersFor sources jobs ≠ 0 := by
  rw [workersFor]
  omega

theorem workersFor_le (sources jobs : Nat) : workersFor sources jobs ≤ max jobs 1 :=
  Nat.min_le_left _ _

/-- More than one worker has at least one source for each. -/
theorem workersFor_le_sources (h : workersFor sources jobs ≠ 1) : workersFor sources jobs ≤ sources := by
  rw [workersFor] at h ⊢
  omega

/-- Shares have a size, and all workers together have room for all sources. -/
theorem exists_shareSize (h : workersFor sources jobs ≠ 1) :
    ∃ more, shareSize sources (workersFor sources jobs) = .ok (more + 1) ∧
      sources ≤ (more + 1) * workersFor sources jobs := by
  have some : workersFor sources jobs ≠ 0 := workersFor_ne_zero sources jobs
  have room : sources ≤ workersFor sources jobs • (sources ⌈/⌉ workersFor sources jobs) :=
    le_smul_ceilDiv (Nat.pos_of_ne_zero some)
  rw [smul_eq_mul, Nat.mul_comm] at room
  -- a size of 0 would leave no room for the sources that there are
  obtain ⟨more, size_eq⟩ : ∃ more, sources ⌈/⌉ workersFor sources jobs = more + 1 := by
    refine Nat.exists_eq_succ_of_ne_zero fun empty => some ?_
    have none : sources = 0 := by rwa [empty, Nat.zero_mul, Nat.le_zero] at room
    exact Nat.le_zero.mp (none ▸ workersFor_le_sources h)
  rw [size_eq] at room
  exact ⟨more, by rw [shareSize, if_neg some, ← size_eq]; rfl, room⟩

/-- Where more than one worker is wanted, there are shares for them. -/
theorem exists_shares (h : workersFor items.length jobs ≠ 1) :
    ∃ size parts, size ≠ 0 ∧ shareSize items.length (workersFor items.length jobs) = .ok size ∧
      shares size items = .ok parts ∧ AreShares size (workersFor items.length jobs) items parts := by
  obtain ⟨more, size_eq, room⟩ := exists_shareSize h
  refine ⟨more + 1, cut more items, Nat.succ_ne_zero more, size_eq, rfl, flatten_cut more items, length_cut_le room, ?_, ?_⟩
  · exact fun share hshare => (mem_cut hshare).1
  · exact fun share hshare => (mem_cut hshare).2

/-! ## Sharing -/

theorem mapShared_of_alone (h : workersFor items.length jobs = 1) : mapShared jobs f items = .ok ⟨[], items.map f⟩ := by
  rw [mapShared, if_pos h]

theorem mapShared_of_shares {parts : List (List α)} (h : workersFor items.length jobs ≠ 1)
    (size_eq : shareSize items.length (workersFor items.length jobs) = .ok size) (parts_eq : shares size items = .ok parts) :
    mapShared jobs f items =
      .ok ⟨parts.map (Worker.start f), (parts.map (Worker.start f)).flatMap fun worker => worker.task.get⟩ := by
  rw [mapShared, if_neg h, size_eq]
  change (shares size items >>= _) = _
  rw [parts_eq]
  rfl

/-- What started workers come to is what all items come to. -/
theorem flatMap_start (f : α → β) (parts : List (List α)) :
    (parts.map (Worker.start f)).flatMap (fun worker => worker.task.get) = parts.flatten.map f := by
  rw [List.flatMap_map, List.map_flatten, List.flatMap_def]
  rfl

/-- Work can always be shared, and nothing is different about its results. -/
theorem exists_mapShared_eq_ok (jobs : Nat) (f : α → β) (items : List α) :
    ∃ work, mapShared jobs f items = .ok work ∧ IsDone jobs f items work := by
  by_cases h : workersFor items.length jobs = 1
  · refine ⟨_, mapShared_of_alone h, rfl, Nat.zero_le _, fun _ => rfl, fun several => absurd h several, ?_, ?_⟩
    · exact fun several => absurd h several
    · exact List.forall_mem_nil _
  obtain ⟨size, parts, size_ne_zero, size_eq, parts_eq, areShares⟩ := exists_shares h
  have shared : (parts.map (Worker.start f)).map (·.share) = parts := by
    rw [List.map_map]
    exact List.map_id parts
  refine ⟨_, mapShared_of_shares h size_eq parts_eq, ?_, ?_, fun alone => absurd alone h, fun _ => ?_, fun _ => rfl, ?_⟩
  · rw [flatMap_start, areShares.flatten_eq]
  · rw [List.length_map]
    exact areShares.length_le.trans (workersFor_le _ _)
  · rw [shared]
    exact ⟨size, size_ne_zero, size_eq, parts_eq, areShares⟩
  · intro worker hworker
    obtain ⟨share, -, rfl⟩ := List.mem_map.mp hworker
    rfl

/-- The results of shared work are those of work that is not shared. -/
theorem results_mapShared (jobs : Nat) (f : α → β) (items : List α) :
    (mapShared jobs f items).map Work.results = .ok (items.map f) := by
  obtain ⟨work, work_eq, done⟩ := exists_mapShared_eq_ok jobs f items
  rw [work_eq, ← done.results_eq]
  rfl

end

end JackCompiler
