import Rota.Proofs.Calls
import Rota.Proofs.Course
/-! The records of a run tell the same story.
A run ends with a result, which is sent once. The row of a job that does not recur keeps how the run
has ended; a job that recurs is armed again, and a transaction keeps it. -/
namespace Rota

structure JobResult.EndsAs (r : JobResult) (status : Status) (reason : Option String) : Prop where
  completed : status = .completed ↔ r.error = none
  failed : r.error ≠ none → status = .failed ∧ reason = r.error

/-- The transaction is about a run of `job` from `began` to `ended` with the result `r`. -/
structure Transaction.Records (t : Transaction) (job : Job) (began ended : Instant)
    (r : JobResult) : Prop where
  own : t.jobId = job.id
  owner : t.pipelineId = job.pipelineId
  task : t.taskName = job.taskName
  outcome : r.EndsAs t.status t.failureReason
  startedAt : t.startedAt = some began
  completedAt : t.completedAt = some ended

/-- The row is that of `job` behind a run from `began` to `ended` with the result `r`. -/
structure Job.Keeps (row job : Job) (began ended : Instant) (r : JobResult) : Prop where
  origin : row.origin = job.origin
  outcome : r.EndsAs row.status row.failureReason
  startedAt : row.startedAt = some began
  completedAt : row.completedAt = some ended

namespace Store

variable {s s' : Store} {j k : Job}

theorem updateJob_stored (open_ : s.isClosed = false)
    (stored : (s.jobs.get? j.id).isSome = true) : s.updateJob j = .ok (s.withJob j) := by
  simp [updateJob, ensureOpen, open_, Table.contains_eq, stored, withJob, bind, Except.bind]

private theorem transactions_recycleJob {now : Instant}
    (recycled : s.recycleJob j now = .ok (s', k)) :
    s'.transactions = s.transactions := by
  obtain ⟨interval, _, rest⟩ := bind_ok recycled
  cases interval
  all_goals
    obtain ⟨_, _, last⟩ := bind_ok rest
    obtain ⟨_, updated, same⟩ := bind_ok last
    cases same
    rw [(updateJob_ok updated).2]

end Store

namespace Engine

variable {e e' : Engine} {job : Job} {x : Execution} {result : JobResult}

private theorem endsAs_markFinished (job : Job) (result : JobResult) (t : Instant) :
    result.EndsAs (markFinished job result t).status (markFinished job result t).failureReason := by
  unfold markFinished
  split
  next none_ => exact ⟨by simp [Job.markCompleted, Job.setDuration, none_], by simp [none_]⟩
  next reason some_ =>
    exact ⟨by simp [Job.markFailed, Job.setDuration, some_],
      fun _ => ⟨rfl, some_.symm⟩⟩

theorem keeps_markFinished {began : Instant} (job : Job) (result : JobResult) (t : Instant) :
    (markFinished (job.markStarted began) result t).Keeps job began t result where
  origin := (Job.origin_markFinished _ result t).trans (Job.origin_markStarted job began)
  outcome := endsAs_markFinished _ result t
  startedAt := startedAt_markFinished _ result t
  completedAt := completedAt_markFinished _ result t

theorem intervalEnabled_markFinished (job : Job) (result : JobResult) (t : Instant) :
    (markFinished job result t).intervalEnabled = job.intervalEnabled := by
  unfold markFinished
  split <;> rfl

private theorem taskName_markFinished (job : Job) (result : JobResult) (t : Instant) :
    (markFinished job result t).taskName = job.taskName := by
  unfold markFinished
  split <;> rfl

/-- A transaction taken of a finished job records its run. -/
theorem records_ofJob {began : Instant} (id : Id) (job : Job) (result : JobResult)
    (t now : Instant) :
    (Transaction.ofJob id (markFinished (job.markStarted began) result t) now).Records job began t
      result where
  own := Job.id_of_origin (keeps_markFinished job result t).origin
  owner := Job.pipelineId_of_origin (keeps_markFinished job result t).origin
  task := taskName_markFinished _ result t
  outcome := endsAs_markFinished _ result t
  startedAt := startedAt_markFinished _ result t
  completedAt := completedAt_markFinished _ result t

/-! ### Settling a job -/

theorem settleJob_once (once : job.intervalEnabled = false) (open_ : e.store.isClosed = false)
    (stored : (e.store.jobs.get? job.id).isSome = true) :
    e.settleJob job = (e.withStore (e.store.withJob job), .ok ()) := by
  unfold settleJob
  rw [if_neg (by simp [once]), Store.updateJob_stored open_ stored]

theorem store_announce (e : Engine) (topic : String) (payload : Json) :
    (e.announce topic payload).store = e.store := by
  obtain ⟨feed, announced⟩ := announce_eq e topic payload
  rw [announced]

/-- A finished run of a job that recurs is recorded once. -/
theorem recordTransaction_open (job : Job) (open_ : e.store.isClosed = false) :
    (e.recordTransaction job).store = { e.store with
      transactions := e.store.transactions.put (.issued e.issued)
        (.ofJob (.issued e.issued) job e.now) } := by
  unfold recordTransaction issueId
  dsimp only
  split
  next failed =>
    unfold Store.createTransaction Store.ensureOpen at failed
    rw [open_] at failed
    cases failed
  next created =>
    rw [store_announce, store_withStore, Store.createTransaction_ok created]
    rfl

theorem settleJob_recurring (recurs : job.intervalEnabled = true)
    (open_ : e.store.isClosed = false) :
    (e.settleJob job).1.store.transactions = e.store.transactions.put (.issued e.issued)
      (.ofJob (.issued e.issued) job e.now) := by
  obtain ⟨feed, announced⟩ := announce_eq e jobTopic (Job.layout.write job)
  have recorded := congrArg Store.transactions
    (recordTransaction_open (e := { e with feed := feed }) job open_)
  unfold settleJob parkJob
  rw [if_pos recurs, announced]
  dsimp only
  split
  next recycled => exact (Store.transactions_recycleJob recycled).trans recorded
  next =>
    split
    next parked =>
      rw [store_withStore, (Store.updateJob_ok parked).2]
      exact recorded
    next => exact recorded

private theorem settlePipeline_aside (e : Engine) (p : Option Pipeline) :
    (e.settlePipeline p).1.store.jobs = e.store.jobs ∧
      (e.settlePipeline p).1.store.transactions = e.store.transactions := by
  unfold settlePipeline
  split
  next => exact ⟨rfl, rfl⟩
  next =>
    split
    next =>
      split
      next updated =>
        obtain ⟨row, _, rfl⟩ := Store.updatePipeline_eq updated
        exact ⟨rfl, rfl⟩
      next => exact ⟨rfl, rfl⟩
    next => exact ⟨rfl, rfl⟩

private theorem sendResult_aside (e : Engine) (x : Execution) (result : JobResult) :
    (e.sendResult x result).1.store = e.store := by
  unfold sendResult
  split <;> rfl

/-- What is done about the pipeline and the result does not touch jobs and transactions. -/
theorem store_concludeJob (e : Engine) (x : Execution) (result : JobResult) :
    (e.concludeJob x result).1.store.jobs =
        (e.settleJob (markFinished x.current result e.now)).1.store.jobs ∧
      (e.concludeJob x result).1.store.transactions =
        (e.settleJob (markFinished x.current result e.now)).1.store.transactions := by
  unfold concludeJob
  dsimp only
  rw [sendResult_aside]
  exact settlePipeline_aside _ _

/-! ### Concluding a run -/

def keptResults : Interlude ⊕ Ended → List JobResult
  | .inl i => i.results
  | .inr ended => ended.results

private theorem keptResults_conclusion (x : Execution) (pipeline : Option Pipeline)
    (result : JobResult)
    (results : List JobResult) (jobAnswer pipelineAnswer : Except StoreError Unit) :
    keptResults (conclusion x pipeline result results jobAnswer pipelineAnswer) = results := by
  unfold conclusion
  split
  next => rfl
  next => rfl
  next => split <;> rfl

theorem sends_concludeJob (e : Engine) (x : Execution) (result : JobResult) :
    Sends x.isSaved (e.pool.unsaved, x.results)
      ((e.concludeJob x result).1.pool.unsaved, keptResults (e.concludeJob x result).2)
      [result] := by
  obtain ⟨_, _, _, _, _, _, _, _, _, concludes, _, sends, _⟩ := concludeJob_eq e x result
  rw [concludes, keptResults_conclusion]
  exact sends

/-- What a run of `job` that began at `began` leaves behind when it ends in the state `e` with the
result `r`. -/
structure Accords (e e' : Engine) (x : Execution) (job : Job) (began : Instant) (r : JobResult)
    (kept : List JobResult) : Prop where
  own : r.jobId = job.id
  sent : Sends x.isSaved (e.pool.unsaved, x.results) (e'.pool.unsaved, kept) [r]
  once : job.intervalEnabled = false → e'.store.transactions = e.store.transactions ∧
    ∃ row, e'.store.jobs.get? job.id = some row ∧ row.Keeps job began e.now r
  recurring : job.intervalEnabled = true → ∃ t,
    e'.store.transactions.rows = e.store.transactions.rows ++ [(t.id, t)] ∧
      t.Records job began e.now r

variable {e₀ : Engine}

theorem startJob_open (executor : Executor) (isSaved : Bool) (pipeline : Option Pipeline)
    (waiting : List Job) (previous : Option Json) (results : List JobResult)
    (open_ : e.store.isClosed = false) (stored : (e.store.jobs.get? job.id).isSome = true) :
    e.startJob executor isSaved pipeline (job :: waiting) previous results =
      (e.withStore (e.store.withJob (job.markStarted e.now)),
        .ok (some ((e.withStore (e.store.withJob (job.markStarted e.now))).runJob executor isSaved
          pipeline (job.markStarted e.now) waiting previous results))) := by
  unfold startJob
  dsimp only
  rw [Store.updateJob_stored (j := job.markStarted e.now) open_ stored]

theorem accords_of_current {began : Instant} (current : x.current = job.markStarted began)
    (open_ : e.store.isClosed = false) (stored : (e.store.jobs.get? job.id).isSome = true)
    (fresh : e.store.transactions.get? (.issued e.issued) = none) (fate : Fate) :
    e.Accords (e.concludeJob x (fate.result x)).1 x job began (fate.result x)
      (keptResults (e.concludeJob x (fate.result x)).2) := by
  obtain ⟨jobs, transactions⟩ := store_concludeJob e x (fate.result x)
  rw [current] at jobs transactions
  have recurs := intervalEnabled_markFinished (job.markStarted began) (fate.result x) e.now
  have key : (markFinished (job.markStarted began) (fate.result x) e.now).id = job.id :=
    Job.id_of_origin (keeps_markFinished job (fate.result x) e.now).origin
  refine ⟨?_, sends_concludeJob e x _, fun once => ?_, fun interval => ?_⟩
  · rw [Fate.jobId_result, current]
    rfl
  · have settled := settleJob_once (recurs.trans once) open_ (key ▸ stored)
    rw [settled] at jobs transactions
    refine ⟨transactions, _, ?_, keeps_markFinished job (fate.result x) e.now⟩
    rw [jobs, ← key]
    exact Table.get?_put_self _ _ _
  · rw [settleJob_recurring (recurs.trans interval) open_] at transactions
    refine ⟨_, ?_, records_ofJob (.issued e.issued) job (fate.result x) e.now e.now⟩
    rw [transactions]
    exact Table.rows_put_absent _ fresh

/-- A stored job can be started, alone or as any job of a pipeline, and that writes only its row.
However its run ends, and whatever has happened meanwhile, one result is sent, and the row of the
job agrees with it or, if the job recurs, one new transaction. -/
theorem startJob_accords (executor : Executor) (isSaved : Bool) (pipeline : Option Pipeline)
    (waiting : List Job) (previous : Option Json) (results : List JobResult)
    (open₀ : e₀.store.isClosed = false) (stored₀ : (e₀.store.jobs.get? job.id).isSome = true) :
    ∃ x, e₀.startJob executor isSaved pipeline (job :: waiting) previous results =
        (e₀.withStore (e₀.store.withJob (job.markStarted e₀.now)), .ok (some x)) ∧
      x.isSaved = isSaved ∧ x.results = results ∧
      ∀ (e : Engine) (fate : Fate), e.store.isClosed = false →
        (e.store.jobs.get? job.id).isSome = true →
        e.store.transactions.get? (.issued e.issued) = none →
        ((fate.result x).error = none ↔ ∃ v, fate = .answered (.value v)) ∧
          e.Accords (e.concludeJob x (fate.result x)).1 x job e₀.now (fate.result x)
            (keptResults (e.concludeJob x (fate.result x)).2) := by
  refine ⟨_, startJob_open executor isSaved pipeline waiting previous results open₀ stored₀,
    rfl, rfl, fun e fate open_ stored fresh => ⟨?_, ?_⟩⟩
  · exact Option.isNone_iff_eq_none.symm.trans (Fate.isSuccess_result _ fate)
  · exact accords_of_current rfl open_ stored fresh fate

/-- The first job of the report recurs. It is started and does not answer in time. -/
theorem startJob_accords_report : ∃ job x, withReport.store.jobs.get? (.issued 1) = some job ∧
    job.intervalEnabled = true ∧
    (withReport.startJob .worker true none [job] none []).2 = .ok (some x) ∧
    (((withReport.withStore (withReport.store.withJob (job.markStarted withReport.now))).advance
      300000).concludeJob x (Fate.overdue.result x)).1.store.transactions.rows.map (fun row =>
        (row.2.status, row.2.startedAt)) = [(.failed, some withReport.now)] := by
  have reads : (withReport.store.jobs.get? (.issued 1)).any (fun job =>
      job.id = .issued 1 ∧ job.intervalEnabled = true) = true := by
    decide +kernel
  have none_ : withReport.store.transactions.rows.isEmpty = true := by decide +kernel
  have open_ : withReport.store.isClosed = false := by decide +kernel
  obtain ⟨job, read, holds⟩ := (Option.any_eq_true _ _).mp reads
  obtain ⟨key, recurs⟩ := of_decide_eq_true holds
  have stored : (withReport.store.jobs.get? job.id).isSome = true := by rw [key, read]; rfl
  obtain ⟨x, starts, _, _, then_⟩ := startJob_accords .worker true none [] none []
    open_ stored
  obtain ⟨failed, accords⟩ := then_
    ((withReport.withStore (withReport.store.withJob (job.markStarted withReport.now))).advance
      300000) .overdue open_
    (by
      show ((withReport.store.jobs.put job.id _).get? job.id).isSome = true
      rw [Table.get?_put_self]
      rfl)
    (by
      show withReport.store.transactions.get? _ = none
      rw [Table.get?, List.isEmpty_iff.mp none_]
      rfl)
  obtain ⟨t, rows, records⟩ := accords.recurring recurs
  refine ⟨job, x, read, recurs, by rw [starts], ?_⟩
  have before : ((withReport.withStore (withReport.store.withJob
    (job.markStarted withReport.now))).advance 300000).store.transactions.rows = [] :=
    List.isEmpty_iff.mp none_
  rw [rows, before, List.nil_append, List.map_cons, List.map_nil, records.startedAt,
    (records.outcome.failed fun none_ => ?_).1]
  obtain ⟨_, other⟩ := failed.mp none_
  cases other

end Engine

end Rota
