import Rota.Proofs.Deleted
import Rota.Proofs.Sources
/-! The audit trail.
Every run of a recurring job leaves a transaction, and nothing else does. The transaction is stored
before the job counts the run, and the run is counted only when the job can be armed again. -/
namespace Rota

def Job.tally (j : Job) : UInt32 × UInt32 := (j.runCount, j.failCount)

/-- Whether the job, when a run of it ends now, is armed again or need not be. -/
def Job.goesOn (j : Job) (now : Instant) : Bool :=
  match j.interval with
  | .ok (some i) => (i.adjust now).isOk
  | _ => !j.intervalEnabled

namespace Store

def runsOf (s : Store) (id : Id) : List Transaction :=
  s.transactions.values.filter fun t => t.jobId = id

/-- What the transactions of the job `id` come to in counters of 32 bits. -/
def tally (s : Store) (id : Id) : UInt32 × UInt32 :=
  (.ofNat (s.runsOf id).length, .ofNat ((s.runsOf id).countP (·.status = .failed)))

end Store

namespace Job

variable {i c : Job} {now : Instant} {result : JobResult}

theorem tally_reread (read : i.reread = .ok c) : c.tally = i.tally := by
  rw [reread_ok read]
  rfl

theorem tally_markFinished (j : Job) (result : JobResult) (t : Instant) :
    (Engine.markFinished j result t).tally = j.tally := by
  unfold Engine.markFinished
  split <;> rfl

theorem isTerminal_markFinished (j : Job) (result : JobResult) (t : Instant) :
    (Engine.markFinished j result t).status.isTerminal = true := by
  unfold Engine.markFinished
  split <;> rfl

theorem goesOn_markFinished (j : Job) (result : JobResult) (t now : Instant) :
    (Engine.markFinished j result t).goesOn now = j.goesOn now := by
  unfold Engine.markFinished
  split <;> rfl

/-- A finished run is counted, and counted as failed if it has failed. -/
theorem tally_countRun (ended : c.status.isTerminal = true) :
    c.countRun.tally = (c.tally.1 + 1, c.tally.2 + if c.status = .failed then 1 else 0) := by
  unfold countRun
  cases status : c.status with
  | completed | failed => simp [tally]
  | _ => simp [status, Status.isTerminal] at ended

private theorem goesOn_recurring (goes : c.goesOn now = true) (recurs : c.intervalEnabled = true) :
    ∃ i t, c.interval = .ok (some i) ∧ i.adjust now = .ok t := by
  unfold goesOn at goes
  split at goes
  next i parsed =>
    cases moved : i.adjust now with
    | ok t => exact ⟨i, t, parsed, moved⟩
    | error => simp [moved, Except.isOk, Except.toBool] at goes
  next => simp [recurs] at goes

end Job

/-! ### What transactions come to -/

namespace Store

variable {s s' : Store} {id : Id} {t : Transaction}

/-- No transaction is new, and only those are gone whose job is. -/
def KeepsRuns (s s' : Store) : Prop :=
  ∃ gone : Transaction → Bool, s'.transactions = s.transactions.eraseIf gone ∧
    ∀ t, gone t = true → s'.jobs.get? t.jobId = none

theorem KeepsRuns.of_eq (transactions : s'.transactions = s.transactions) : KeepsRuns s s' :=
  ⟨fun _ => false, by simp [transactions, Table.eraseIf], fun _ lost => by cases lost⟩

theorem KeepsRuns.tally (keeps : KeepsRuns s s') (present : (s'.jobs.get? id).isSome = true) :
    s'.tally id = s.tally id := by
  obtain ⟨gone, transactions, missing⟩ := keeps
  have runs : s'.runsOf id = s.runsOf id := by
    rw [runsOf, runsOf, transactions, Table.values, Table.values, Table.eraseIf, List.filter_map,
      List.filter_map, List.filter_filter]
    congr 1
    refine List.filter_congr fun row _ => ?_
    by_cases own : row.2.jobId = id
    · cases lost : gone row.2 with
      | false => simp
      | true => simp [missing _ lost, ← own] at present
    · simp [own]
  rw [Store.tally, Store.tally, runs]

theorem KeepsRuns.subset (keeps : KeepsRuns s s') :
    ∀ row ∈ s'.transactions.rows, row ∈ s.transactions.rows := by
  obtain ⟨gone, transactions, _⟩ := keeps
  rw [transactions]
  exact fun row => List.mem_of_mem_filter

theorem tally_congr (same : s'.transactions = s.transactions) (id : Id) :
    s'.tally id = s.tally id := by
  rw [Store.tally, Store.tally, runsOf, runsOf, same]

/-- A new transaction adds one run to those of its job. -/
theorem tally_record (fresh : s.transactions.get? t.id = none)
    (recorded : s'.transactions = s.transactions.put t.id t) :
    s'.tally id = if t.jobId = id then
      ((s.tally id).1 + 1, (s.tally id).2 + if t.status = .failed then 1 else 0)
    else s.tally id := by
  have runs : s'.runsOf id = s.runsOf id ++ if t.jobId = id then [t] else [] := by
    rw [runsOf, runsOf, recorded, Table.values, Table.rows_put_absent _ fresh, List.map_append,
      List.filter_append]
    by_cases own : t.jobId = id <;> simp [own, Table.values]
  split
  next own =>
    simp only [Store.tally, runs, if_pos own, List.length_append, List.countP_append]
    by_cases failed : t.status = .failed <;> simp [failed, UInt32.ofNat_add]
  next other => simp [Store.tally, runs, other]

end Store

/-! ### What is written apart from ends of runs -/

def Grant.unrecorded : Grant :=
  { Grant.ofJobs fun _ => True with transaction := fun _ => False, eraseJob := fun _ => False }

def Grant.deleting : Grant := { Grant.erasing with transaction := fun _ => False }

namespace Store

variable {s s' : Store}

theorem Writes.transactions (writes : Writes .unrecorded s s') :
    s'.transactions = s.transactions := by
  refine writes.keep (fun t u write (same : t.transactions = s.transactions) => ?_) rfl
  cases write with
  | eraseJob _ may => exact may.elim
  | transaction _ may => exact may.elim
  | _ => exact same

private theorem Writes.keepsRuns (writes : Writes .deleting s s') : KeepsRuns s s' := by
  refine writes.keep (fun t u write keeps => ?_) (KeepsRuns.of_eq rfl : KeepsRuns s s)
  obtain ⟨gone, transactions, missing⟩ := keeps
  cases write with
  | job _ may => exact may.elim
  | pipeline _ may => exact may.elim
  | transaction _ may => exact may.elim
  | eraseJob id =>
    refine ⟨fun t => gone t || decide (t.jobId = id), ?_, fun r lost => ?_⟩
    · simp only [withoutJob, transactions, Table.eraseIf, List.filter_filter]
      congr 1
      refine List.filter_congr fun row _ => ?_
      rw [Bool.not_or, Bool.and_comm]
    · rw [withoutJob, Table.get?_erase]
      split
      next => rfl
      next other =>
        simp only [Bool.or_eq_true, decide_eq_true_eq, other, or_false] at lost
        exact missing r lost
  | erasePipeline id row =>
    refine ⟨gone, transactions, fun r lost => ?_⟩
    rw [withoutPipeline, Table.get?_eraseAll]
    split
    next => rfl
    next => exact missing r lost
  | _ => exact ⟨gone, transactions, missing⟩

end Store

namespace Engine

variable {e : Engine} {job i j : Job} {x : Execution} {result : JobResult}

/-! ### The end of a run -/

theorem Settles.origin {now : Instant} (settles : Settles now job j) : j.origin = job.origin := by
  cases settles with
  | once => rfl
  | armed => exact (Job.origin_reset _ _).trans (Job.origin_countRun job)
  | parked => exact Job.origin_reset job none

/-- A closed store stays as it is. -/
theorem settleJob_closed (closed : e.store.isClosed = true) :
    (e.settleJob job).1.store = e.store := by
  have refused {e' : Engine} (same : e'.store = e.store) (k : Job) :
      ∃ err, e'.store.updateJob k = .error err := by
    rw [same]
    simp [Store.updateJob, Store.ensureOpen, closed, bind, Except.bind]
  unfold settleJob
  split
  next recurs =>
    have recorded : ((e.announce jobTopic (Job.layout.write job)).recordTransaction job).store =
        e.store := by
      unfold recordTransaction issueId
      simp [Store.createTransaction, Store.ensureOpen, store_announce, closed, bind, Except.bind]
    generalize (e.announce jobTopic (Job.layout.write job)).recordTransaction job = e' at recorded
    dsimp only
    split
    next recycled =>
      obtain ⟨_, updated⟩ := recycleJob_settles recurs recycled
      obtain ⟨_, failed⟩ := refused recorded _
      cases updated.symm.trans failed
    next =>
      obtain ⟨_, failed⟩ := refused recorded (job.reset none)
      rw [parkJob, failed]
      exact recorded
  next =>
    obtain ⟨_, failed⟩ := refused rfl job
    rw [failed]

/-- An identifier is issued for the transaction of a run. -/
theorem issued_settleJob (recurs : job.intervalEnabled = true) :
    (e.settleJob job).1.issued = e.issued + 1 := by
  obtain ⟨feed, announced⟩ := announce_eq e jobTopic (Job.layout.write job)
  obtain ⟨_, _, records, _⟩ := recordTransaction_eq { e with feed := feed } job
  have later := congrArg Engine.issued records
  unfold settleJob parkJob
  rw [if_pos recurs, announced]
  dsimp only
  split
  next => exact later
  next => split <;> exact later

/-- The run of a job that recurs is recorded, and the job is armed for its next one. -/
theorem settleJob_armed {i : Interval} {t : Instant} (recurs : job.intervalEnabled = true)
    (open_ : e.store.isClosed = false) (stored : (e.store.jobs.get? job.id).isSome = true)
    (parsed : job.interval = .ok (some i)) (next : i.adjust (job.completedAt.getD e.now) = .ok t) :
    (e.settleJob job).1.store = { e.store with
      transactions := e.store.transactions.put (.issued e.issued)
        (.ofJob (.issued e.issued) job e.now) }.withJob (job.countRun.reset (some t)) := by
  obtain ⟨feed, announced⟩ := announce_eq e jobTopic (Job.layout.write job)
  obtain ⟨_, _, records, _⟩ := recordTransaction_eq { e with feed := feed } job
  have recorded := recordTransaction_open (e := { e with feed := feed }) job open_
  have now := congrArg Engine.now records
  have key : (job.countRun.reset (some t)).id = job.id :=
    Job.id_of_origin ((Job.origin_reset _ _).trans (Job.origin_countRun job))
  unfold settleJob
  rw [if_pos recurs, announced]
  generalize Engine.recordTransaction { e with feed := feed } job = e' at recorded now
  have updated : e'.store.updateJob (job.countRun.reset (some t)) =
      .ok (e'.store.withJob (job.countRun.reset (some t))) := by
    rw [recorded]
    exact Store.updateJob_stored open_ (key ▸ stored)
  have armed : e'.store.recycleJob job e'.now =
      .ok (e'.store.withJob (job.countRun.reset (some t)), job.countRun.reset (some t)) := by
    rw [now]
    simp [Store.recycleJob, parsed, Except.mapError, bind, Except.bind, Job.recycle, next, updated]
  dsimp only
  rw [armed]
  exact congrArg (·.withJob (job.countRun.reset (some t))) recorded

/-- A row that tells its transactions still does so when a run of the job has ended. -/
theorem settleJob_tally (ended : job.status.isTerminal = true)
    (goes : job.goesOn (job.completedAt.getD e.now) = true)
    (fresh : e.issued < (e.settleJob job).1.issued →
      e.store.transactions.get? (.issued e.issued) = none)
    (before : e.store.jobs.get? job.id = some i) (row : i.tally = e.store.tally job.id)
    (counted : job.tally = e.store.tally job.id)
    (stored : (e.settleJob job).1.store.jobs.get? job.id = some j) :
    j.tally = (e.settleJob job).1.store.tally job.id := by
  have present : (e.store.jobs.get? job.id).isSome = true := by simp [before]
  cases open_ : e.store.isClosed with
  | true =>
    rw [settleJob_closed open_] at stored ⊢
    cases before.symm.trans stored
    exact row
  | false =>
    cases recurs : job.intervalEnabled with
    | false =>
      rw [settleJob_once recurs open_ present] at stored ⊢
      cases (Table.get?_put_self _ _ _).symm.trans stored
      exact counted
    | true =>
      obtain ⟨interval, t, parsed, next⟩ := Job.goesOn_recurring goes recurs
      have armed := settleJob_armed recurs open_ present parsed next
      have later := issued_settleJob (e := e) recurs
      have key : (job.countRun.reset (some t)).id = job.id :=
        Job.id_of_origin ((Job.origin_reset _ _).trans (Job.origin_countRun job))
      rw [armed] at stored ⊢
      have same : job.countRun.reset (some t) = j := by
        rw [← key] at stored
        exact Option.some.inj ((Table.get?_put_self _ _ _).symm.trans stored)
      subst same
      -- The new transaction says of the run what the job says when it is counted.
      refine (Job.tally_countRun ended).trans ?_
      rw [counted]
      exact ((Store.tally_record (t := .ofJob (.issued e.issued) job e.now) (fresh (by omega))
        rfl).trans (if_pos rfl)).symm

private theorem settleJob_transactions (e : Engine) (job : Job) :
    (e.settleJob job).1.store.transactions = e.store.transactions ∨
      (e.settleJob job).1.store.transactions = e.store.transactions.put (.issued e.issued)
        (.ofJob (.issued e.issued) job e.now) ∧ e.issued < (e.settleJob job).1.issued := by
  cases open_ : e.store.isClosed with
  | true => exact Or.inl (by rw [settleJob_closed open_])
  | false =>
    cases recurs : job.intervalEnabled with
    | true =>
      refine Or.inr ⟨settleJob_recurring recurs open_, ?_⟩
      rw [issued_settleJob recurs]
      exact Nat.lt_succ_self _
    | false =>
      left
      unfold settleJob
      rw [if_neg (by simp [recurs])]
      split
      next updated => rw [store_withStore, (Store.updateJob_ok updated).2]
      next => rfl

theorem settleJob_tally_other {id : Id} (other : job.id ≠ id)
    (fresh : e.issued < (e.settleJob job).1.issued →
      e.store.transactions.get? (.issued e.issued) = none) :
    (e.settleJob job).1.store.tally id = e.store.tally id := by
  rcases e.settleJob_transactions job with same | ⟨recorded, more⟩
  · exact Store.tally_congr same id
  · exact (Store.tally_record (t := .ofJob (.issued e.issued) job e.now) (fresh more)
      recorded).trans (if_neg other)

theorem settleJob_numbered (later : e.issued ≤ (e.settleJob job).1.issued)
    (fresh : e.issued < (e.settleJob job).1.issued →
      e.store.transactions.get? (.issued e.issued) = none)
    (numbered : ∀ row ∈ e.store.transactions.rows, Id.IsIssued e.issued row.1) :
    ∀ row ∈ (e.settleJob job).1.store.transactions.rows,
      Id.IsIssued (e.settleJob job).1.issued row.1 := by
  intro row member
  rcases e.settleJob_transactions job with same | ⟨recorded, more⟩
  · exact (numbered row (same ▸ member)).mono later
  · rw [recorded, Table.rows_put_absent _ (fresh more)] at member
    rcases List.mem_append.mp member with old | new
    · exact (numbered row old).mono later
    · rw [List.mem_singleton.mp new]
      exact Id.isIssued_of_lt more

private theorem issued_concludeJob (e : Engine) (x : Execution) (result : JobResult) :
    (e.concludeJob x result).1.issued =
      (e.settleJob (markFinished x.current result e.now)).1.issued := by
  unfold concludeJob
  dsimp only
  generalize e.settleJob (markFinished x.current result e.now) = settled
  obtain ⟨e₁, answer⟩ := settled
  dsimp only
  generalize judges : e₁.settlePipeline _ = judged
  obtain ⟨e₂, answer'⟩ := judged
  obtain ⟨_, _, rfl, _⟩ := settlePipeline_settled judges
  obtain ⟨_, _, sent, _⟩ := sendResult_eq (e₁.withStore _) x result
  dsimp only
  rw [sent]
  rfl

end Engine

namespace System

variable {s : System} {a : Action} {x : Execution} {place : Nat} {result : JobResult}

/-! ### Actions -/

/-- An action that ends no run records none. -/
theorem keepsRuns_perform (numbered : s.engine.store.Numbered s.engine.issued)
    (distinct : Id.Distinct (s.perform a).engine.issued)
    (quiet : ∀ place result, a ≠ .finish place result) :
    s.engine.store.KeepsRuns (s.perform a).engine.store := by
  have unrecorded {store : Store} (same : (s.perform a).engine.store = store)
      (writes : Store.Writes .unrecorded s.engine.store store) :
      s.engine.store.KeepsRuns (s.perform a).engine.store :=
    .of_eq ((congrArg Store.transactions same).trans writes.transactions)
  have same (store : (s.perform a).engine.store = s.engine.store) :
      s.engine.store.KeepsRuns (s.perform a).engine.store :=
    .of_eq (congrArg Store.transactions store)
  cases a with
  | createJob r =>
    have few : Id.Distinct (s.engine.createJob r).1.issued := distinct
    rw [issued_createJob] at few
    exact unrecorded rfl (Engine.createJob_writes numbered few fun _ _ => trivial)
  | createPipeline r =>
    have few : Id.Distinct (s.engine.createPipeline r).1.issued := distinct
    rw [issued_createPipeline] at few
    exact unrecorded rfl (Engine.createPipeline_writes numbered few (fun _ _ => trivial)
      fun _ _ => trivial)
  | updateJob id r =>
    have any : ∀ j ∈ s.engine.store.jobs.values, Grant.unrecorded.job j.origin :=
      fun _ _ => trivial
    obtain ⟨_, same, writes⟩ := Engine.updateJob_writes any id r
    exact unrecorded (congrArg Engine.store same) writes
  | updatePipeline id r =>
    obtain ⟨_, same, writes⟩ := Engine.updatePipeline_writes s.engine id r
    exact unrecorded (congrArg Engine.store same) writes
  | deletePipeline id =>
    have erasing : ∀ row, s.engine.store.pipelines.get? id = some row →
        Grant.unrecorded.erasePipeline row := fun _ _ => trivial
    obtain ⟨_, same, writes⟩ := Engine.deletePipeline_writes erasing
    exact unrecorded (congrArg Engine.store same) writes
  | deleteResult id =>
    obtain ⟨_, same, writes⟩ := Engine.deleteResult_writes s.engine id
    exact unrecorded (congrArg Engine.store same) writes
  | deleteJob id =>
    have erasing : ∀ other ∈ (Action.deleteJob id).erases s.engine.store,
        Grant.deleting.eraseJob other := fun _ _ => trivial
    obtain ⟨_, same, writes⟩ := Engine.deleteJob_writes numbered erasing
    rw [perform, same]
    exact writes.keepsRuns
  | dropJobs =>
    obtain ⟨_, same, writes⟩ := Engine.dropJobs_writes (e := s.engine) (G := .deleting)
      fun _ _ => trivial
    rw [perform, same]
    exact writes.keepsRuns
  | submit place => exact unrecorded rfl (submitNext_writes (fun _ _ => trivial) place)
  | proceed place => exact unrecorded rfl (proceed_writes (fun _ _ => trivial) place)
  | save place => exact unrecorded rfl (save_writes (fun _ _ => trivial) place)
  | finish place result => exact absurd rfl (quiet place result)
  | scan => exact same (store_scan s)
  | look => exact same (store_look s)
  | abandon place => exact same (store_abandon s place)
  | take => exact same (store_take s)
  | closeStore => exact .of_eq rfl
  | _ => exact same rfl

/-- What the end of a run does to jobs and transactions is what settling its job does. -/
theorem store_finish (here : s.engine.pool.executing[place]? = some x)
    (own : result.jobId = x.current.id) : ∃ e : Engine, e.store = s.engine.store ∧
      e.issued = s.engine.issued ∧ e.now = s.engine.now ∧
      (s.finish place result).engine.store.jobs =
        (e.settleJob (Engine.markFinished x.current result e.now)).1.store.jobs ∧
      (s.finish place result).engine.store.transactions =
        (e.settleJob (Engine.markFinished x.current result e.now)).1.store.transactions ∧
      (s.finish place result).engine.issued =
        (e.settleJob (Engine.markFinished x.current result e.now)).1.issued := by
  refine ⟨{ s.engine with pool :=
    { s.engine.pool with executing := s.engine.pool.executing.eraseIdx place } }, rfl, rfl, rfl, ?_⟩
  rw [← Engine.issued_concludeJob, ← (Engine.store_concludeJob _ x result).1,
    ← (Engine.store_concludeJob _ x result).2]
  unfold finish
  rw [here]
  dsimp only
  rw [if_pos own]
  split
  next concluded =>
    rw [concluded]
    exact ⟨rfl, rfl, rfl⟩
  next concluded =>
    rw [concluded]
    dsimp only
    rw [Engine.store_endExecution, Engine.issued_endExecution]
    exact ⟨rfl, rfl, rfl⟩

end System

end Rota
