import Rota.Proofs.Accounts
/-! Whether what is stored can be read back.
Writing has no limit to how deeply a record nests and reading has one. Nothing checks the parameters
of a job or the answer of a task against it when they are stored, and one job that cannot be read
keeps every list of jobs from being read. -/
namespace Rota

section

variable {ε α β : Type} {e : ε}

private theorem bind_ne_error {first : Except ε α} {next : α → Except ε β} (head : first ≠ .error e)
    (tail : ∀ v, next v ≠ .error e) : (first >>= next) ≠ .error e := by
  cases first with
  | error e' =>
    intro failed
    cases failed
    exact head rfl
  | ok v => exact tail v

private theorem mapM_ne_error {f : α → Except ε β} {xs : List α} (all : ∀ x ∈ xs, f x ≠ .error e) :
    xs.mapM f ≠ .error e := by
  intro failed
  obtain ⟨x, member, bad⟩ := mapM_error failed
  exact all x member bad

end

theorem JobResult.reread_error_iff {r : JobResult} {e : StoreError} :
    r.reread = .error e ↔ e = .unreadable ∧ maxDepth < r.depth := by
  unfold reread
  split
  next shallow => simp [Nat.not_lt.mpr shallow]
  next deep =>
    simp only [Except.error.injEq, Nat.lt_of_not_le deep, and_true]
    exact eq_comm

namespace Store

/-- No read fails because a record cannot be read. -/
structure ReadsBack (s : Store) : Prop where
  job : ∀ id, s.getJob id ≠ .error .unreadable
  jobs : ∀ status, s.getJobs status ≠ .error .unreadable
  due : ∀ now, s.getDueJobs now ≠ .error .unreadable
  jobsOf : ∀ id, s.getJobsByPipeline id ≠ .error .unreadable
  pipeline : ∀ id, s.getPipeline id ≠ .error .unreadable
  pipelines : ∀ status, s.getPipelines status ≠ .error .unreadable
  result : ∀ id, s.getResult id ≠ .error .unreadable
  transactions : ∀ status, s.getTransactions status ≠ .error .unreadable
  transactionsOf : ∀ id, s.getTransactionsByJob id ≠ .error .unreadable

structure IsFlat (s : Store) : Prop where
  jobs : ∀ j ∈ s.jobs.values, j.depth ≤ maxDepth
  results : ∀ r ∈ s.results.values, r.depth ≤ maxDepth

variable {s s' : Store} {G : Grant}

private theorem ensureOpen_ne (s : Store) : s.ensureOpen ≠ .error .unreadable := by
  unfold ensureOpen
  split <;> simp

theorem IsFlat.reread (flat : s.IsFlat) {j : Job} (inside : j ∈ s.jobs.values) :
    j.reread ≠ .error .unreadable := by
  intro failed
  have deep := (Job.reread_error_iff.mp failed).2
  exact Nat.not_lt.mpr (flat.jobs j inside) deep

theorem IsFlat.readJobs (flat : s.IsFlat) : s.readJobs ≠ .error .unreadable := by
  apply bind_ne_error s.ensureOpen_ne
  intro _
  apply mapM_ne_error
  intro j inside
  exact flat.reread inside

theorem IsFlat.loadPipeline (flat : s.IsFlat) (row : PipelineRow) :
    s.loadPipeline row ≠ .error .unreadable := by
  refine bind_ne_error (mapM_ne_error ?_) (by simp)
  intro j listed
  obtain ⟨id, _, found⟩ := List.mem_filterMap.mp listed
  exact flat.reread (Table.mem_values_of_get? found)

theorem IsFlat.readsBack (flat : s.IsFlat) : s.ReadsBack where
  job id := by
    apply bind_ne_error s.ensureOpen_ne
    intro _
    split
    next found => exact flat.reread (Table.mem_values_of_get? found)
    next => simp
  jobs status := bind_ne_error flat.readJobs (by simp)
  due now := bind_ne_error flat.readJobs (by simp)
  jobsOf id := bind_ne_error flat.readJobs (by simp)
  pipeline id := by
    apply bind_ne_error s.ensureOpen_ne
    intro _
    split
    next row _ => exact flat.loadPipeline row
    next => simp
  pipelines status := by
    apply bind_ne_error s.ensureOpen_ne
    intro _
    exact bind_ne_error (mapM_ne_error fun row _ => flat.loadPipeline row) (by simp)
  result id := by
    apply bind_ne_error s.ensureOpen_ne
    intro _
    split
    next r found =>
      intro failed
      have deep := (JobResult.reread_error_iff.mp failed).2
      exact Nat.not_lt.mpr (flat.results r (Table.mem_values_of_get? found)) deep
    next => simp
  transactions status := bind_ne_error s.ensureOpen_ne (by simp)
  transactionsOf id := bind_ne_error s.ensureOpen_ne (by simp)

/-- One record that nests too deeply is enough for a read to fail. -/
theorem readsBack_iff (open_ : s.isClosed = false) (keyed : s.results.Keyed) :
    s.ReadsBack ↔ s.IsFlat := by
  refine ⟨fun reads => ⟨?_, ?_⟩, IsFlat.readsBack⟩
  · intro j inside
    by_contra deep
    have bad : j.reread = .error .unreadable :=
      Job.reread_error_iff.mpr ⟨rfl, Nat.lt_of_not_le deep⟩
    -- A list reads every row, so one row is enough to fail it.
    have lists := reads.jobs .undefined
    have fails : s.readJobs = .error .unreadable := by
      cases mapped : s.jobs.values.mapM Job.reread with
      | error e =>
        obtain ⟨k, _, failed⟩ := mapM_error mapped
        rw [(Job.reread_error_iff.mp failed).1] at mapped
        simp [Store.readJobs, ensureOpen, open_, bind, Except.bind, mapped]
      | ok jobs =>
        obtain ⟨k, _, read⟩ := forall₂_mem_right (mapM_ok mapped).flip inside
        rw [bad] at read
        cases read
    exact lists (by simp [getJobs, fails, bind, Except.bind])
  · intro r inside
    by_contra deep
    obtain ⟨id, found⟩ := keyed.get?_of_mem_values inside
    have bad : r.reread = .error .unreadable :=
      JobResult.reread_error_iff.mpr ⟨rfl, Nat.lt_of_not_le deep⟩
    exact reads.result id
      (by simp [getResult, ensureOpen, open_, bind, Except.bind, found, bad])

private theorem Write.flatResults (write : Write G s s')
    (may : ∀ r, G.result r → r.depth ≤ maxDepth)
    (flat : ∀ r ∈ s.results.values, r.depth ≤ maxDepth) :
    ∀ r ∈ s'.results.values, r.depth ≤ maxDepth := by
  cases write with
  | eraseJob id => exact Table.forall_erase flat id
  | erasePipeline id row => exact Table.forall_eraseAll flat row.jobIds
  | result r granted =>
    exact Table.forall_put (P := fun r : JobResult => r.depth ≤ maxDepth) flat (may r granted)
  | eraseResult id => exact Table.forall_erase flat id
  | _ => exact flat

end Store

/-- A worker ends its job with an answer that can be read back. -/
def Action.IsFlat : Action → Prop
  | .finish _ r => r.depth ≤ maxDepth
  | _ => True

namespace System

variable {s : System} {a : Action} {A : List Origin}

/-- The answers that are stored, and those that wait to be, can be read back. -/
structure FlatResults (s : System) : Prop where
  stored : ∀ r ∈ s.engine.store.results.values, r.depth ≤ maxDepth
  unsaved : ∀ r ∈ s.engine.pool.unsaved, r.depth ≤ maxDepth

private theorem Accounted.flat_perform (accounted : s.Accounted A) (flat : s.FlatResults)
    (answers : a.IsFlat) (distinct : Id.Distinct (s.perform a).engine.issued) :
    (s.perform a).FlatResults where
  stored := by
    let G : Grant := { Grant.ofJobs (fun _ => True) with result := fun r => r.depth ≤ maxDepth }
    have any : s.Grants a (.ofJobs fun _ => True) :=
      grants_ofJobs (fun _ _ => trivial) fun _ _ => trivial
    have grants : s.Grants a G := { any with results := flat.unsaved }
    have writes := perform_writes grants accounted.numbered distinct
    exact writes.keep (fun _ _ write kept => write.flatResults (fun _ may => may) kept) flat.stored
  unsaved r waits := by
    rcases unsaved_perform waits with old | ⟨⟨place, rfl⟩, _⟩
    · exact flat.unsaved r old
    · exact answers

variable {now : Instant} {registry : Registry} {queueCapacity : Nat} {unit : TimeUnit}
  {workers poolCapacity : Nat} {actions : List Action}

/-- In every run from an empty store that admits only jobs, and whose workers give only answers,
that do not nest too deeply, everything can be read back. -/
theorem readsBack_run (made : new? now registry queueCapacity unit workers poolCapacity = some s)
    (jobs : ∀ o ∈ s.admissions actions, o.depth ≤ maxDepth)
    (answers : ∀ a ∈ actions, a.IsFlat)
    (distinct : Id.Distinct (s.run actions).engine.issued) :
    (s.run actions).engine.store.ReadsBack := by
  have new : s.FlatResults := by
    obtain ⟨store, _⟩ := new_eq made
    obtain ⟨_, _, unsaved⟩ := new_pool made
    constructor
    · simp [store, Store.empty, Table.values, Table.empty]
    · simp [unsaved]
  have along : Along (fun _ a => a.IsFlat) s actions :=
    along_of_forall (fun a member _ => answers a member) s
  obtain ⟨accounted, flat⟩ := (accounted_new made).run_keeps (P := fun _ t => t.FlatResults) new
    (fun _ _ _ accounted flat answers few => accounted.flat_perform flat answers few) along distinct
  apply Store.IsFlat.readsBack
  refine ⟨fun j inside => ?_, flat.stored⟩
  exact jobs j.origin (accounted.recorded.jobs j inside)

theorem readsBack_firstJob : (start.run firstJob).engine.store.ReadsBack ∧
    (start.run firstJob).engine.store.jobs.rows.length = 2 := by
  refine ⟨readsBack_run new_start ?_ ?_ distinct_firstJob, by decide +kernel⟩
  · decide +kernel
  · simp [firstJob, Action.IsFlat, JobResult.depth, JobResult.success, maxDepth]

/-! ### Records that cannot be read -/

def nested : Nat → Json
  | 0 => .null
  | n + 1 => .array [nested n]

def isUnreadable {α : Type} : Except StoreError α → Bool
  | .error .unreadable => true
  | _ => false

private theorem eq_of_isUnreadable {α : Type} {answer : Except StoreError α}
    (unreadable : isUnreadable answer = true) : answer = .error .unreadable := by
  unfold isUnreadable at unreadable
  split at unreadable
  next => rfl
  next => cases unreadable

def echoStart : System := (new? .epoch [("echo", .echo)] 4 .second 1 1).get (by rfl)

/-- A job that nests as deeply as it can and still be read, before one that answers its answer. -/
def echoRequest : CreatePipeline where
  name := "echoes"
  description := none
  runAt := none
  runNow := true
  disable := false
  options := .default
  jobs := [⟨"first", none, "echo", [("v", nested 125)], 0, false, .default⟩,
    ⟨"second", none, "echo", [], 0, true, .default⟩]

def answered (s : System) : List Action :=
  s.engine.pool.executing.map fun x => .finish 0 (x.run.outcome.result x.current.id)

def echoFirst : List Action :=
  [.createPipeline echoRequest, .start, .look, .submit 0, .take, .proceed 0]

def echoSecond : List Action := echoFirst ++ answered (echoStart.run echoFirst) ++ [.proceed 0]

def echoBoth : List Action :=
  echoSecond ++ answered (echoStart.run echoSecond) ++ [.save 0, .save 0]

/-- Every job can be read back, and so can the answer of the first; the second wraps that answer one
level deeper. -/
theorem unreadable_echoBoth : ¬(echoStart.run echoBoth).engine.store.ReadsBack ∧
    (∀ o ∈ echoStart.admissions echoBoth, o.depth ≤ maxDepth) ∧
    ((echoStart.run echoBoth).engine.store.getResult (.issued 1)).isOk = true ∧
    (echoStart.run echoBoth).engine.store.getResult (.issued 2) = .error .unreadable := by
  have unreadable : (echoStart.run echoBoth).engine.store.getResult (.issued 2) =
      .error .unreadable := eq_of_isUnreadable (by decide +kernel)
  exact ⟨fun reads => reads.result _ unreadable, by decide +kernel, by decide +kernel,
    unreadable⟩

end System

end Rota
