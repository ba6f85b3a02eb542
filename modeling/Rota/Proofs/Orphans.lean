import Rota.Proofs.Accounts
/-! Results and transactions without a job.
A deletion takes a job with its result and its transactions out of the store. A worker that runs the
job, and a result that waits to be stored, know nothing of that and write later. A deletion that
spares such jobs leaves no record without its job. -/
namespace Rota

namespace Store

/-- Results, and transactions of jobs that stand alone, have their jobs. -/
structure NoOrphans (s : Store) : Prop where
  results : ∀ r ∈ s.results.values, (s.jobs.get? r.jobId).isSome = true
  transactions : ∀ t ∈ s.transactions.values, t.pipelineId = none →
    (s.jobs.get? t.jobId).isSome = true

variable {s s' : Store} {A : List Origin} {n : Nat} {busy : List Id}

def busyGrant (A : List Origin) (n : Nat) (busy : List Id) : Grant :=
  { recordGrant A n with
    result r := (∃ o ∈ A, o.id = r.jobId) ∧ r.jobId ∈ busy
    transaction t := (∃ o ∈ A, o.id = t.jobId ∧ o.pipelineId = t.pipelineId) ∧ t.jobId ∈ busy
    eraseJob id := id ∉ busy
    erasePipeline row := ∀ id ∈ row.jobIds, id ∉ busy }

/-- Nothing is lost that belongs together: every job in use is stored. -/
structure Together (s : Store) (A : List Origin) (n : Nat) (busy : List Id) : Prop where
  recorded : s.Recorded A n
  used : ∀ id ∈ busy, (s.jobs.get? id).isSome = true
  results : ∀ id r, s.results.get? id = some r → (s.jobs.get? id).isSome = true
  transactions : ∀ t ∈ s.transactions.values, t.pipelineId = none →
    (s.jobs.get? t.jobId).isSome = true

private theorem Together.noOrphans (together : s.Together A n busy) : s.NoOrphans where
  results r inside := by
    obtain ⟨id, stored⟩ := together.recorded.resultsKeyed.get?_of_mem_values inside
    rw [(together.recorded.results id r stored).1]
    exact together.results id r stored
  transactions := together.transactions

/-- Jobs stay, and of what is kept of runs there is no more. -/
theorem Together.of_more (together : s.Together A n busy) (recorded : s'.Recorded A n)
    (jobs : ∀ id, (s.jobs.get? id).isSome = true → (s'.jobs.get? id).isSome = true)
    (results : ∀ id r, s'.results.get? id = some r → s.results.get? id = some r)
    (transactions : ∀ t ∈ s'.transactions.values, t ∈ s.transactions.values) :
    s'.Together A n busy where
  recorded := recorded
  used id inUse := jobs id (together.used id inUse)
  results id r stored := jobs id (together.results id r (results id r stored))
  transactions t stored alone := jobs _ (together.transactions t (transactions t stored) alone)

private theorem isSome_put {α : Type} {t : Table α} {id other : Id} {v : α}
    (present : (t.get? other).isSome = true) : ((t.put id v).get? other).isSome = true := by
  rw [Table.get?_put]
  split
  next => rfl
  next => exact present

private theorem isSome_putAll {t : Table Job} {jobs : List Job} {id : Id}
    (present : (t.get? id).isSome = true) : ((putJobs t jobs).get? id).isSome = true := by
  rw [get?_putJobs, Option.isSome_or, present, Bool.or_true]

private theorem Write.toRecord (write : Write (busyGrant A n busy) s s') :
    Write (recordGrant A n) s s' := by
  cases write with
  | job j may => exact .job s j may
  | eraseJob id _ => exact .eraseJob s id trivial
  | pipeline p may jobs => exact .pipeline s p may jobs
  | record p row found => exact .record s p row found
  | erasePipeline id row found _ => exact .erasePipeline s id row found trivial
  | result r may => exact .result s r may.1
  | eraseResult id => exact .eraseResult s id
  | transaction t may => exact .transaction s t may.1
  | close => exact .close s

private theorem Write.together (write : Write (busyGrant A n busy) s s')
    (unique : ∀ o ∈ A, ∀ o' ∈ A, o.id = o'.id → o = o') (together : s.Together A n busy) :
    s'.Together A n busy := by
  have recorded := write.toRecord.recorded together.recorded
  cases write with
  | job j =>
    exact together.of_more recorded (fun _ => isSome_put) (fun _ _ stored => stored)
      fun _ stored => stored
  | pipeline p =>
    exact together.of_more recorded (fun _ => isSome_putAll) (fun _ _ stored => stored)
      fun _ stored => stored
  | record p row =>
    exact together.of_more recorded (fun _ present => present) (fun _ _ stored => stored)
      fun _ stored => stored
  | close =>
    exact together.of_more recorded (fun _ present => present) (fun _ _ stored => stored)
      fun _ stored => stored
  | eraseResult id =>
    exact together.of_more recorded (fun _ present => present)
      (fun _ _ found => (Table.get?_of_erase found).2) fun _ stored => stored
  | eraseJob id idle =>
    have others (other : Id) (different : other ≠ id)
        (present : (s.jobs.get? other).isSome = true) :
        ((s.withoutJob id).jobs.get? other).isSome = true := by
      rwa [withoutJob, Table.get?_erase, if_neg different]
    refine ⟨recorded, ?_, ?_, ?_⟩
    · intro other inUse
      exact others other (fun same => idle (same ▸ inUse)) (together.used other inUse)
    · intro other r stored
      obtain ⟨different, before⟩ := Table.get?_of_erase stored
      exact others other different (together.results other r before)
    · intro t stored alone
      obtain ⟨before, kept⟩ := Table.mem_eraseIf stored
      exact others _ (by simpa using kept) (together.transactions t before alone)
  | erasePipeline id row found idle =>
    have others (other : Id) (different : other ∉ row.jobIds)
        (present : (s.jobs.get? other).isSome = true) :
        ((s.withoutPipeline id row).jobs.get? other).isSome = true := by
      rwa [withoutPipeline, Table.get?_eraseAll, if_neg different]
    refine ⟨recorded, ?_, ?_, ?_⟩
    · intro other inUse
      exact others other (fun listed => idle other listed inUse) (together.used other inUse)
    · intro other r stored
      obtain ⟨different, before⟩ := Table.get?_of_eraseAll stored
      exact others other different (together.results other r before)
    · -- A transaction of a job that stands alone is not of a job of the pipeline.
      intro t stored alone
      have different : t.jobId ∉ row.jobIds := by
        intro listed
        obtain ⟨o, known, same, owner⟩ := together.recorded.owned id row found _ listed
        obtain ⟨o', known', same', owner'⟩ := together.recorded.transactions t stored
        have equal := unique o known o' known' (same.trans same'.symm)
        rw [← equal, owner, alone] at owner'
        cases owner'
      exact others _ different (together.transactions t stored alone)
  | result r may =>
    refine ⟨recorded, together.used, ?_, together.transactions⟩
    intro other r' stored
    rcases Table.get?_put_cases stored with ⟨rfl, _⟩ | ⟨_, before⟩
    · exact together.used _ may.2
    · exact together.results other r' before
  | transaction t may =>
    refine ⟨recorded, together.used, together.results, ?_⟩
    exact Table.forall_put
      (P := fun t : Transaction => t.pipelineId = none → (s.jobs.get? t.jobId).isSome = true)
      together.transactions fun _ => together.used _ may.2

theorem Together.mono {B : List Origin} {m : Nat} (together : s.Together A n busy) (more : A ⊆ B)
    (le : n ≤ m) : s.Together B m busy :=
  { together with recorded := together.recorded.mono more le }

end Store

namespace System

variable {s : System} {a : Action} {A : List Origin}

def busy (s : System) : List Id :=
  s.engine.pool.executing.map (·.current.id) ++ s.engine.pool.unsaved.map (·.jobId)

/-- The action deletes no job that runs and none whose result waits to be stored. -/
def Spares (s : System) (a : Action) : Prop := ∀ id ∈ a.erases s.engine.store, id ∉ s.busy

instance (s : System) (a : Action) : Decidable (s.Spares a) :=
  inferInstanceAs (Decidable (∀ id ∈ a.erases s.engine.store, id ∉ s.busy))

private theorem Accounted.busyGrants (accounted : s.Accounted A) (spares : s.Spares a) :
    s.Grants a (Store.busyGrant (A ++ a.admits s.engine) (s.perform a).engine.issued s.busy) :=
  { accounted.grants a with
    results := by
      intro r waits
      exact ⟨(accounted.grants a).results r waits,
        List.mem_append_right _ (List.mem_map_of_mem waits)⟩
    transactions := by
      intro x runs t own owner
      refine ⟨(accounted.grants a).transactions x runs t own owner, ?_⟩
      rw [own]
      exact List.mem_append_left _ (List.mem_map_of_mem (f := fun x => x.current.id) runs)
    erases := spares
    pipelineErased := by
      intro id row asked found jobId listed
      subst asked
      apply spares
      simp only [Action.erases, found, Option.toList_some, List.flatMap_singleton]
      exact listed }

private theorem Accounted.together_perform (accounted : s.Accounted A)
    (together : s.engine.store.Together A s.engine.issued s.busy) (spares : s.Spares a)
    (distinct : Id.Distinct (s.perform a).engine.issued) :
    (s.perform a).engine.store.Together (A ++ a.admits s.engine) (s.perform a).engine.issued
      (s.perform a).busy := by
  have unique := (accounted.perform distinct).unique
  have writes := perform_writes (accounted.busyGrants spares) accounted.numbered distinct
  have before := together.mono (List.subset_append_left A (a.admits s.engine))
    (issued_perform s a)
  have after := writes.keep (fun _ _ write kept => write.together unique kept) before
  refine { after with used := ?_ }
  -- A job starts as it is stored, and a result that waits is one of a job that ran.
  intro id inUse
  rcases List.mem_append.mp inUse with running | waiting
  · obtain ⟨x, runs, rfl⟩ := List.mem_map.mp running
    rcases executing_perform runs with old | stored
    · exact after.used _ (List.mem_append_left _ (List.mem_map.mpr ⟨x, old, rfl⟩))
    · exact stored
  · obtain ⟨r, waits, rfl⟩ := List.mem_map.mp waiting
    rcases unsaved_perform waits with old | ⟨_, x, runs, own⟩
    · exact after.used _ (List.mem_append_right _ (List.mem_map_of_mem old))
    · rw [own]
      exact after.used _ (List.mem_append_left _ (List.mem_map.mpr ⟨x, runs, rfl⟩))

variable {now : Instant} {registry : Registry} {queueCapacity : Nat} {unit : TimeUnit}
  {workers poolCapacity : Nat} {actions : List Action}

private theorem together_new
    (made : new? now registry queueCapacity unit workers poolCapacity = some s) :
    s.engine.store.Together [] s.engine.issued s.busy := by
  obtain ⟨_, executing, unsaved⟩ := new_pool made
  obtain ⟨store, _⟩ := new_eq made
  refine ⟨(accounted_new made).recorded, ?_, ?_, ?_⟩
  · simp [busy, executing, unsaved]
  · simp [store, Store.empty]
  · simp [store, Store.empty, Table.values, Table.empty]

/-- In every run from an empty store whose deletions spare jobs in use, results have their jobs, and
transactions have them unless a pipeline had the job. -/
theorem noOrphans_run (made : new? now registry queueCapacity unit workers poolCapacity = some s)
    (spares : Along Spares s actions) (distinct : Id.Distinct (s.run actions).engine.issued) :
    (s.run actions).engine.store.NoOrphans :=
  ((accounted_new made).run_keeps (P := fun A t => t.engine.store.Together A t.engine.issued t.busy)
    (together_new made)
    (fun _ _ _ accounted together spares few => accounted.together_perform together spares few)
    spares distinct).2.noOrphans

def pollRequest : CreateJob :=
  ⟨"poll", none, "noop", [], 0, none, true, false, ⟨some "1 sec", false⟩⟩

def deletedWaiting : List Action :=
  [.createJob pollRequest, .createJob pollRequest] ++ begun ++ [.deleteJob (.issued 1)] ++ ended ++
    [.save 0]

theorem noOrphans_deletedWaiting : Along Spares start deletedWaiting ∧
    (start.run deletedWaiting).engine.store.NoOrphans ∧
    (start.run deletedWaiting).engine.store.results.rows.length = 1 ∧
    (start.run deletedWaiting).engine.store.transactions.rows.length = 1 := by
  have spares : Along Spares start deletedWaiting := by decide +kernel
  have few : Id.Distinct (start.run deletedWaiting).engine.issued :=
    Id.distinct_of_le (by decide +kernel)
  exact ⟨spares, noOrphans_run new_start spares few, by decide +kernel, by decide +kernel⟩

def deletedRunning : List Action :=
  [.createJob pollRequest] ++ begun ++ [.deleteJob (.issued 0)] ++ ended ++ [.save 0]

/-- When the deleted job has ended, its worker stores a transaction and then a result of it. -/
theorem orphans_deletedRunning : ¬(start.run deletedRunning).engine.store.NoOrphans ∧
    (start.run deletedRunning).engine.store.jobs.rows.length = 0 ∧
    ((start.run deletedRunning).engine.store.results.values.map fun r => r.jobId) = [.issued 0] ∧
    ((start.run deletedRunning).engine.store.transactions.values.map fun t =>
      (t.jobId, t.pipelineId)) = [(.issued 0, none)] := by
  have result : ((start.run deletedRunning).engine.store.results.values.map fun r => r.jobId) =
      [.issued 0] := by decide +kernel
  refine ⟨fun whole => ?_, by decide +kernel, result, by decide +kernel⟩
  obtain ⟨r, stored, own⟩ := List.mem_map.mp (result ▸ List.mem_singleton_self (Id.issued 0))
  have present := whole.results r stored
  rw [own] at present
  revert present
  decide +kernel

end System

end Rota
