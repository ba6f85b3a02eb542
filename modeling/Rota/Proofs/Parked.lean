import Rota.Proofs.Audit
import Rota.Proofs.Onward
/-! What a recurring job is stored as when a run of it has ended.
It is armed, one interval after the run has ended, and then the run is counted; or it is parked
because its interval cannot be read or leads out of the supported years, and then it is not. Of the
run itself only the reason of its failure is left, and all else is as in the copy that was run. -/
namespace Rota

namespace Job

variable {job : Job} {r : JobResult} {began ended : Instant}

def returned (job : Job) (r : JobResult) (runAt : Option Instant) : Job :=
  { job with
    status := .pending
    failureReason := r.error
    runAt := runAt
    scheduledAt := none
    startedAt := none
    completedAt := none
    duration := none }

/-- The job waits for its next run at `next`, and the run with the result `r` is counted. -/
structure ArmedFor (job row : Job) (r : JobResult) (next : Instant) : Prop where
  runs : row.runCount.toNat = job.runCount.toNat + 1
  fails : row.failCount.toNat = job.failCount.toNat + if r.error = none then 0 else 1
  rest : row = { job.returned r (some next) with
    runCount := row.runCount
    failCount := row.failCount }

/-- When a run of the job ends, there is a date for the next one. -/
def Recurs (job : Job) (ended next : Instant) : Prop :=
  ∃ i, job.interval = .ok (some i) ∧ i.adjust ended = .ok next

/-- What the row of a job that recurs says when a run of it has ended with the result `r`. -/
def Returns (job row : Job) (r : JobResult) (ended : Instant) : Prop :=
  (∃ next, job.Recurs ended next ∧ ended < next ∧ job.ArmedFor row r next) ∨
    (∀ next, ¬job.Recurs ended next) ∧ row = job.returned r none

theorem Recurs.unique {next next' : Instant} (recurs : job.Recurs ended next)
    (recurs' : job.Recurs ended next') : next = next' := by
  obtain ⟨i, parsed, moved⟩ := recurs
  obtain ⟨i', parsed', moved'⟩ := recurs'
  cases parsed.symm.trans parsed'
  exact Except.ok.inj (moved.symm.trans moved')

theorem Recurs.later {next : Instant} (recurs : job.Recurs ended next) : ended < next := by
  obtain ⟨i, parsed, moved⟩ := recurs
  exact Interval.lt_adjust (Interval.amount_of_parseOptional parsed) moved

private theorem reset_markFinished (job : Job) (r : JobResult) (t : Option Instant) :
    (Engine.markFinished (job.markStarted began) r ended).reset t = job.returned r t := by
  unfold Engine.markFinished
  split
  next success =>
    rw [returned, success]
    rfl
  next failure =>
    rw [returned, failure]
    rfl

private theorem interval_markFinished (job : Job) (r : JobResult) :
    (Engine.markFinished (job.markStarted began) r ended).interval = job.interval := by
  unfold Engine.markFinished
  split <;> rfl

private theorem toNat_succ {n : UInt32} (few : n.toNat < 4294967295) :
    (n + 1).toNat = n.toNat + 1 := by
  rw [UInt32.toNat_add, show (1 : UInt32).toNat = 1 from rfl]
  omega

private theorem armedFor_markFinished (next : Instant) (runs : job.runCount.toNat < 4294967295)
    (fails : job.failCount.toNat < 4294967295) :
    job.ArmedFor
      ((Engine.markFinished (job.markStarted began) r ended).countRun.reset (some next))
      r next := by
  unfold Engine.markFinished
  split
  next success =>
    refine ⟨toNat_succ runs, by rw [if_pos success]; rfl, ?_⟩
    rw [returned, success]
    rfl
  next reason failure =>
    have other : r.error ≠ none := by simp [failure]
    refine ⟨toNat_succ runs, by rw [if_neg other]; exact toNat_succ fails, ?_⟩
    rw [returned, failure]
    rfl

end Job

namespace Store

variable {s : Store} {id : Id} {job : Job} {now : Instant} {due : List Job}

/-- A job that recurs and has no next date cannot be armed. -/
theorem recycleJob_stuck (s : Store) (recurs : job.intervalEnabled = true)
    (stuck : ∀ next, ¬job.Recurs (job.completedAt.getD now) next) :
    ∃ err, s.recycleJob job now = .error err := by
  cases parsed : job.interval with
  | error e => exact ⟨.schedule e, by simp [recycleJob, parsed, Except.mapError, bind, Except.bind]⟩
  | ok interval =>
    cases interval with
    | none =>
      exfalso
      unfold Job.intervalEnabled at recurs
      unfold Job.interval Interval.parseOptional at parsed
      split at recurs
      next text enabled =>
        rw [enabled] at parsed
        dsimp only at parsed
        rw [if_neg (by simpa using recurs)] at parsed
        revert parsed
        cases Interval.parse (String.ofList (Text.trim text.toList)) <;> rintro ⟨⟩
      next => cases recurs
    | some i =>
      cases moved : i.adjust (job.completedAt.getD now) with
      | ok next => exact absurd ⟨i, parsed, moved⟩ (stuck next)
      | error e =>
        exact ⟨.schedule e, by
          simp [recycleJob, parsed, Except.mapError, bind, Except.bind, Job.recycle, moved]⟩

private theorem not_due_of_parked (indexed : s.Indexed)
    (parked : ∀ j, s.jobs.get? id = some j → j.runAt = none) (read : s.getDueJobs now = .ok due) :
    ∀ c ∈ due, c.id ≠ id := by
  rintro c inside rfl
  obtain ⟨row, stored, rereads, isDue⟩ := indexed.stored_due read inside
  have never := parked row stored
  rw [← Job.runAt_reread rereads] at never
  simp [Job.isDue, never] at isDue

end Store

namespace Engine

variable {e e₀ : Engine} {job : Job}

private theorem settleJob_parked (recurs : job.intervalEnabled = true)
    (open_ : e.store.isClosed = false)
    (stored : (e.store.jobs.get? job.id).isSome = true)
    (stuck : ∀ next, ¬job.Recurs (job.completedAt.getD e.now) next) :
    (e.settleJob job).1.store = { e.store with
      transactions := e.store.transactions.put (.issued e.issued)
        (.ofJob (.issued e.issued) job e.now) }.withJob (job.reset none) := by
  obtain ⟨feed, announced⟩ := announce_eq e jobTopic (Job.layout.write job)
  obtain ⟨_, _, records, _⟩ := recordTransaction_eq { e with feed := feed } job
  have recorded := recordTransaction_open (e := { e with feed := feed }) job open_
  have now := congrArg Engine.now records
  unfold settleJob parkJob
  rw [if_pos recurs, announced]
  generalize Engine.recordTransaction { e with feed := feed } job = e' at recorded now
  obtain ⟨err, failed⟩ := e'.store.recycleJob_stuck recurs stuck
  have parked : e'.store.updateJob (job.reset none) = .ok (e'.store.withJob (job.reset none)) := by
    rw [recorded]
    exact Store.updateJob_stored (j := job.reset none) open_ stored
  dsimp only
  rw [show e'.now = e.now from now, failed]
  dsimp only
  rw [parked]
  exact congrArg (·.withJob (job.reset none)) recorded

private theorem returns_of_current {x : Execution} {began : Instant} {r : JobResult}
    (current : x.current = job.markStarted began) (recurs : job.intervalEnabled = true)
    (runs : job.runCount.toNat < 4294967295) (fails : job.failCount.toNat < 4294967295)
    (open_ : e.store.isClosed = false) (stored : (e.store.jobs.get? job.id).isSome = true) :
    ∃ row, (e.concludeJob x r).1.store.jobs.get? job.id = some row ∧ job.Returns row r e.now := by
  rw [(store_concludeJob e x r).1, current]
  have key : (markFinished (job.markStarted began) r e.now).id = job.id :=
    Job.id_of_origin (keeps_markFinished job r e.now).origin
  have ended : (markFinished (job.markStarted began) r e.now).completedAt.getD e.now = e.now := by
    rw [completedAt_markFinished]
    rfl
  have enabled := (intervalEnabled_markFinished (job.markStarted began) r e.now).trans recurs
  have interval : (markFinished (job.markStarted began) r e.now).interval = job.interval :=
    job.interval_markFinished r
  by_cases goes : ∃ next, job.Recurs e.now next
  · obtain ⟨next, recurs⟩ := goes
    obtain ⟨i, parsed, moved⟩ := id recurs
    have armed := settleJob_armed enabled open_ (key ▸ stored) (interval.trans parsed)
      (ended ▸ moved)
    refine ⟨(markFinished (job.markStarted began) r e.now).countRun.reset (some next), ?_,
      Or.inl ⟨next, recurs, recurs.later, Job.armedFor_markFinished next runs fails⟩⟩
    have same : ((markFinished (job.markStarted began) r e.now).countRun.reset (some next)).id =
        job.id :=
      (Job.id_of_origin ((Job.origin_reset _ _).trans (Job.origin_countRun _))).trans key
    rw [armed, ← same]
    exact Table.get?_put_self _ _ _
  · have stuck : ∀ next, ¬job.Recurs e.now next := fun next recurs => goes ⟨next, recurs⟩
    have parked := settleJob_parked enabled open_ (key ▸ stored) (by
      rintro next ⟨i, parsed, moved⟩
      exact stuck next ⟨i, interval.symm.trans parsed, ended ▸ moved⟩)
    rw [parked, Job.reset_markFinished]
    exact ⟨_, Table.get?_put_self _ _ _, Or.inr ⟨stuck, rfl⟩⟩

/-- A stored job that recurs can be started, alone or as any job of a pipeline. However its run
ends, it is then armed for a later date or parked, and as long as nothing gives a parked job a run
time it is in no scan. -/
theorem startJob_returns (executor : Executor) (isSaved : Bool) (pipeline : Option Pipeline)
    (waiting : List Job) (previous : Option Json) (results : List JobResult)
    (open₀ : e₀.store.isClosed = false) (stored₀ : (e₀.store.jobs.get? job.id).isSome = true)
    (recurs : job.intervalEnabled = true) (runs : job.runCount.toNat < 4294967295)
    (fails : job.failCount.toNat < 4294967295) :
    ∃ x, (e₀.startJob executor isSaved pipeline (job :: waiting) previous results).2 =
        .ok (some x) ∧
      (∀ (e : Engine) (fate : Fate), e.store.isClosed = false →
        (e.store.jobs.get? job.id).isSome = true →
        ((fate.result x).error = none ↔ ∃ v, fate = .answered (.value v)) ∧
          ∃ row, (e.concludeJob x (fate.result x)).1.store.jobs.get? job.id = some row ∧
            job.Returns row (fate.result x) e.now) ∧
      ∀ (s : Store) (now : Instant) (due : List Job), s.Indexed →
        (∀ j, s.jobs.get? job.id = some j → j.runAt = none) →
        s.getDueJobs now = .ok due → ∀ c ∈ due, c.id ≠ job.id := by
  refine ⟨_, congrArg Prod.snd (startJob_open executor isSaved pipeline waiting previous results
    open₀ stored₀), fun e fate open_ stored => ⟨?_, ?_⟩, ?_⟩
  · exact Option.isNone_iff_eq_none.symm.trans (Fate.isSuccess_result _ fate)
  · exact returns_of_current rfl recurs runs fails open_ stored
  · intro s now due indexed parked read
    exact Store.not_due_of_parked indexed parked read

/-- The first job of the report recurs after a second. It does not answer within five minutes. -/
theorem startJob_returns_report : ∃ job x row, withReport.store.jobs.get? (.issued 1) = some job ∧
    (withReport.startJob .worker true none [job] none []).2 = .ok (some x) ∧
    ((withReport.advance 300000).concludeJob x (Fate.overdue.result x)).1.store.jobs.get?
      (.issued 1) = some row ∧
    row.status = .pending ∧ row.runAt = some ⟨301, 0, by decide, by decide, by decide⟩ ∧
    row.runCount.toNat = 1 ∧ row.failCount.toNat = 1 ∧ row.failureReason.isSome = true := by
  have reads : (withReport.store.jobs.get? (.issued 1)).any (fun job =>
      job.id = .issued 1 ∧ job.options.runOnInterval = some "1 sec" ∧ job.runCount.toNat = 0 ∧
        job.failCount.toNat = 0) = true := by
    decide +kernel
  obtain ⟨job, read, holds⟩ := (Option.any_eq_true _ _).mp reads
  obtain ⟨key, interval, runs, fails⟩ := of_decide_eq_true holds
  have open_ : withReport.store.isClosed = false := by decide +kernel
  have stored : (withReport.store.jobs.get? job.id).isSome = true := by rw [key, read]; rfl
  have recurs : job.intervalEnabled = true := by rw [Job.intervalEnabled, interval]; decide +kernel
  obtain ⟨x, starts, ends, _⟩ := startJob_returns .worker true none [] none [] open_ stored recurs
    (by omega) (by omega)
  obtain ⟨_, row, found, returns⟩ := ends (withReport.advance 300000) .overdue open_ stored
  have goes : job.Recurs (withReport.advance 300000).now
      ⟨301, 0, by decide, by decide, by decide⟩ := by
    refine ⟨⟨1, .second⟩, ?_, by decide +kernel⟩
    rw [Job.interval, interval]
    decide +kernel
  rw [key] at found
  rcases returns with ⟨next, recurs, _, armed⟩ | ⟨stuck, _⟩
  · obtain rfl := goes.unique recurs
    have failed : (Fate.overdue.result x).error ≠ none := by simp [Fate.result, JobResult.failure]
    have counted := armed.runs
    have counted' := armed.fails
    rw [runs] at counted
    rw [if_neg failed, fails] at counted'
    refine ⟨job, x, row, read, starts, found, ?_, ?_, counted, counted', ?_⟩
    all_goals rw [armed.rest]; rfl
  · exact absurd goes (stuck _)

end Engine

end Rota
