import Rota.Proofs.Accord
import Rota.Proofs.Accounts
/-! What operations and steps leave in the rows of jobs and pipelines.
A row that is stored after a step was stored before it, or the step has made it of the copy that it
was given. -/
namespace Rota

/-- Nothing has happened to the job yet. -/
structure Job.IsBlank (j : Job) : Prop where
  status : j.status = .pending
  runCount : j.runCount = 0
  failCount : j.failCount = 0
  failureReason : j.failureReason = none
  startedAt : j.startedAt = none
  completedAt : j.completedAt = none
  duration : j.duration = none

structure Pipeline.IsBlank (p : Pipeline) : Prop where
  status : p.status = .pending
  startedAt : p.startedAt = none
  completedAt : p.completedAt = none
  duration : p.duration = none

private theorem Pipeline.isBlank_recycle {p q : Pipeline} {now : Instant} {v : Unit}
    (recycled : p.recycle now = (q, .ok v)) : q.IsBlank := by
  unfold recycle at recycled
  dsimp only at recycled
  split at recycled
  next => cases recycled
  next =>
    split at recycled
    next => cases recycled
    next =>
      cases recycled
      exact ⟨rfl, rfl, rfl, rfl⟩

private theorem Job.isBlank_ofStep (id pipelineId : Id) (position : Nat) (interval : Option String)
    (r : CreatePipelineJob) (now : Instant) :
    (Engine.jobOfStep id pipelineId position interval r now).IsBlank := by
  unfold Engine.jobOfStep
  dsimp only
  split <;> exact ⟨rfl, rfl, rfl, rfl, rfl, rfl, rfl⟩

private theorem Job.isBlank_ofSteps {pipelineId : Id} {interval : Option String} {now : Instant}
    {position issued : Nat} {steps : List CreatePipelineJob} {j : Job}
    (inside : j ∈ Engine.jobsOfSteps pipelineId interval now position issued steps) : j.IsBlank := by
  induction steps generalizing position issued with
  | nil => cases inside
  | cons r rest ih =>
    rcases List.mem_cons.mp inside with rfl | later
    · exact { Job.isBlank_ofStep (Id.issued issued) pipelineId position interval r now with }
    · exact ih later

theorem Job.isBlank_ofRequest {issued : Nat} {r : CreatePipeline} {runAt : Option Instant}
    {now : Instant} {j : Job} (inside : j ∈ (Engine.pipelineOfRequest issued r runAt now).jobs) :
    j.IsBlank := by
  have all : ∀ k ∈ Engine.jobsOfSteps (Id.issued issued) r.options.runOnInterval now 0 (issued + 1)
      r.jobs, k.IsBlank := fun k => Job.isBlank_ofSteps
  simp only [Engine.pipelineOfRequest, Pipeline.new] at inside
  generalize Engine.jobsOfSteps (Id.issued issued) r.options.runOnInterval now 0 (issued + 1) r.jobs =
    jobs at all inside
  cases jobs with
  | nil => cases inside
  | cons first rest =>
    rcases List.mem_cons.mp inside with rfl | behind
    · exact { all first List.mem_cons_self with }
    · exact all j (List.mem_cons_of_mem first behind)

namespace Store

variable {s s' : Store} {id : Id} {j k : Job} {p q : Pipeline} {row : PipelineRow} {now : Instant}

/-! ### Rows after an operation -/

theorem updateJob_rows (updated : s.updateJob k = .ok s') (stored : s'.jobs.get? id = some j) :
    k.id = id ∧ j = k ∨ s.jobs.get? id = some j := by
  rw [(updateJob_ok updated).2] at stored
  rcases Table.get?_put_cases stored with ⟨same, here⟩ | ⟨_, before⟩
  · exact Or.inl ⟨same.symm, here⟩
  · exact Or.inr before

theorem updatePipeline_rows (updated : s.updatePipeline p = .ok s')
    (found : s'.pipelines.get? id = some row) :
    p.id = id ∧ row.record = { p with jobs := [] } ∨ s.pipelines.get? id = some row := by
  obtain ⟨before, _, rfl⟩ := updatePipeline_eq updated
  rcases Table.get?_put_cases found with ⟨same, rfl⟩ | ⟨_, before⟩
  · exact Or.inl ⟨same.symm, rfl⟩
  · exact Or.inr before

theorem pipelines_updateJob (updated : s.updateJob k = .ok s') : s'.pipelines = s.pipelines := by
  rw [(updateJob_ok updated).2]

theorem jobs_updatePipeline (updated : s.updatePipeline p = .ok s') : s'.jobs = s.jobs := by
  obtain ⟨_, _, rfl⟩ := updatePipeline_eq updated
  rfl

private theorem updateJobs_rows {jobs : List Job} {answer : Except StoreError Unit}
    (done : s.updateJobs jobs = (s', answer)) :
    s'.pipelines = s.pipelines ∧ ∀ id j, s'.jobs.get? id = some j →
      (∃ k ∈ jobs, k.id = id ∧ j = k) ∨ s.jobs.get? id = some j := by
  obtain ⟨written, early, edited⟩ := updateJobs_edited done
  refine ⟨edited.pipelines, fun id j stored => ?_⟩
  rw [edited.jobs] at stored
  rcases putJobs_cases stored with ⟨member, same⟩ | ⟨before, _⟩
  · exact Or.inl ⟨j, early.subset member, same, rfl⟩
  · exact Or.inr before

/-- Arming a pipeline again writes its jobs and its record as they are when it has been armed. -/
theorem recyclePipeline_rows {answer : Except (Stop StoreError) Unit}
    (recycled : s.recyclePipeline p now = (s', q, answer)) :
    (∀ id j, s'.jobs.get? id = some j → (∃ d ∈ p.jobs, d.id = id ∧ ∃ t, j = d.reset (some t)) ∨
        s.jobs.get? id = some j) ∧
      ∀ id row, s'.pipelines.get? id = some row →
        (p.id = id ∧ row.record.IsBlank) ∨ s.pipelines.get? id = some row := by
  unfold recyclePipeline at recycled
  rcases recycles : p.recycle now with ⟨armed, (e | _) | _⟩
  all_goals simp only [recycles] at recycled
  · cases recycled
    exact ⟨fun _ _ => Or.inr, fun _ _ => Or.inr⟩
  · cases recycled
    exact ⟨fun _ _ => Or.inr, fun _ _ => Or.inr⟩
  · obtain ⟨resets, key, _⟩ := Pipeline.recycle_ok recycles
    have written {t : Store} {e : Except StoreError Unit} (updates : s.updateJobs armed.jobs = (t, e))
        (id : Id) (j : Job) (stored : t.jobs.get? id = some j) :
        (∃ d ∈ p.jobs, d.id = id ∧ ∃ t, j = d.reset (some t)) ∨ s.jobs.get? id = some j := by
      rcases (updateJobs_rows updates).2 id j stored with ⟨k, member, rfl, rfl⟩ | before
      · obtain ⟨d, inside, t, rfl⟩ := forall₂_mem_right resets member
        exact Or.inl ⟨d, inside, rfl, t, rfl⟩
      · exact Or.inr before
    split at recycled
    next updates =>
      cases recycled
      refine ⟨written updates, fun id row found => Or.inr ?_⟩
      rwa [(updateJobs_rows updates).1] at found
    next t updates =>
      split at recycled
      next updated =>
        cases recycled
        refine ⟨fun id j stored => written updates id j ?_, fun id row found => ?_⟩
        · rwa [jobs_updatePipeline updated] at stored
        · rcases updatePipeline_rows updated found with ⟨same, record⟩ | before
          · exact Or.inl ⟨key.symm.trans same,
              record ▸ { Pipeline.isBlank_recycle recycles with }⟩
          · rw [(updateJobs_rows updates).1] at before
            exact Or.inr before
      next =>
        cases recycled
        refine ⟨written updates, fun id row found => Or.inr ?_⟩
        rwa [(updateJobs_rows updates).1] at found

end Store

namespace Engine

variable {e e' : Engine} {job : Job} {p : Pipeline} {x : Execution} {result : JobResult}

/-! ### Rows after a step of a worker -/

private theorem startJob_rows {executor : Executor} {isSaved : Bool} {pipeline : Option Pipeline}
    {jobs : List Job} {previous : Option Json} {results : List JobResult}
    {answer : Except StoreError (Option Execution)}
    (done : e.startJob executor isSaved pipeline jobs previous results = (e', answer)) :
    e'.store.pipelines = e.store.pipelines ∧ ∀ id j, e'.store.jobs.get? id = some j →
      (∃ c waiting, jobs = c :: waiting ∧ c.id = id ∧ j = c.markStarted e.now) ∨
        e.store.jobs.get? id = some j := by
  unfold startJob at done
  split at done
  next =>
    cases done
    exact ⟨rfl, fun _ _ => Or.inr⟩
  next c waiting =>
    dsimp only at done
    split at done
    next =>
      cases done
      exact ⟨rfl, fun _ _ => Or.inr⟩
    next updated =>
      cases done
      refine ⟨Store.pipelines_updateJob updated, fun id j stored => ?_⟩
      rcases Store.updateJob_rows (k := c.markStarted e.now) updated stored with ⟨same, rfl⟩ | before
      · exact Or.inl ⟨c, waiting, rfl, same, rfl⟩
      · exact Or.inr before

theorem beginWork_rows {executor : Executor} {h : Handover}
    {answer : Except StoreError (Option Execution)}
    (done : e.beginWork executor h = (e', answer)) :
    (∀ id j, e'.store.jobs.get? id = some j →
      (∃ c waiting, h.work.jobs = c :: waiting ∧ c.id = id ∧ j = c.markStarted e.now) ∨
        e.store.jobs.get? id = some j) ∧
    ∀ id row, e'.store.pipelines.get? id = some row →
      (∃ pipelineId q, e.store.getPipeline pipelineId = .ok q ∧ q.id = id ∧
        row.record = { q.markStarted e.now with jobs := [] }) ∨
        e.store.pipelines.get? id = some row := by
  unfold beginWork at done
  split at done
  next isTask =>
    rw [isTask]
    obtain ⟨pipelines, jobs⟩ := startJob_rows done
    exact ⟨jobs, fun id row found => Or.inr (pipelines ▸ found)⟩
  next isPipeline =>
    rw [isPipeline]
    split at done
    next =>
      cases done
      exact ⟨fun _ _ => Or.inr, fun _ _ => Or.inr⟩
    next q read =>
      dsimp only at done
      split at done
      next =>
        cases done
        exact ⟨fun _ _ => Or.inr, fun _ _ => Or.inr⟩
      next marked =>
        obtain ⟨pipelines, jobs⟩ := startJob_rows done
        refine ⟨fun id j stored => ?_, fun id row found => ?_⟩
        · rw [← Store.jobs_updatePipeline marked]
          exact jobs id j stored
        · rw [pipelines] at found
          rcases Store.updatePipeline_rows (p := q.markStarted e.now) marked found with
            ⟨same, record⟩ | before
          · exact Or.inl ⟨_, q, read, same, record⟩
          · exact Or.inr before

theorem goOn_rows {i : Interlude} {answer : Execution ⊕ Ended} (done : e.goOn i = (e', answer)) :
    e'.store.pipelines = e.store.pipelines ∧ ∀ id j, e'.store.jobs.get? id = some j →
      (∃ c waiting, i.jobs = c :: waiting ∧ c.id = id ∧ j = c.markStarted e.now) ∨
        e.store.jobs.get? id = some j := by
  unfold goOn at done
  split at done
  all_goals
    next started =>
      cases done
      exact startJob_rows started

/-- The time of a run goes from when its job is started. -/
theorem startJob_startedAt {executor : Executor} {isSaved : Bool} {pipeline : Option Pipeline}
    {jobs : List Job} {previous : Option Json} {results : List JobResult}
    (started : e.startJob executor isSaved pipeline jobs previous results = (e', .ok (some x))) :
    x.startedAt = e.time := by
  unfold startJob at started
  split at started
  next => cases started
  next =>
    dsimp only at started
    split at started
    next => cases started
    next =>
      cases started
      rfl

theorem beginWork_startedAt {executor : Executor} {h : Handover}
    (begun : e.beginWork executor h = (e', .ok (some x))) :
    x.startedAt = e.time := by
  unfold beginWork at begun
  split at begun
  next => exact startJob_startedAt begun
  next =>
    split at begun
    next => cases begun
    next =>
      dsimp only at begun
      split at begun
      next => cases begun
      next =>
        have timed := startJob_startedAt begun
        exact timed

theorem goOn_startedAt {i : Interlude} (done : e.goOn i = (e', .inl x)) :
    x.startedAt = e.time := by
  unfold goOn at done
  split at done
  next started =>
    cases done
    exact startJob_startedAt started
  next => cases done
  next => cases done

inductive Settles (now : Instant) (job : Job) : Job → Prop
  | once (once : job.intervalEnabled = false) : Settles now job job
  | armed (recurs : job.intervalEnabled = true) (i : Interval) (t : Instant)
      (parsed : job.interval = .ok (some i)) (next : i.adjust (job.completedAt.getD now) = .ok t) :
      Settles now job (job.countRun.reset (some t))
  | parked (recurs : job.intervalEnabled = true)
      (stuck : ∀ i t, job.interval = .ok (some i) → i.adjust (job.completedAt.getD now) ≠ .ok t) :
      Settles now job (job.reset none)

theorem recycleJob_settles {s s' : Store} {k : Job} (recurs : job.intervalEnabled = true)
    (recycled : s.recycleJob job e.now = .ok (s', k)) :
    Settles e.now job k ∧ s.updateJob k = .ok s' := by
  obtain ⟨interval, parsed, rest⟩ := bind_ok recycled
  have parsed := mapError_ok parsed
  cases interval with
  | none =>
    obtain ⟨_, reset, last⟩ := bind_ok rest
    obtain ⟨_, updated, same⟩ := bind_ok last
    cases reset
    cases same
    refine ⟨.parked recurs fun i t some_ => ?_, updated⟩
    cases parsed.symm.trans some_
  | some i =>
    obtain ⟨_, changed, last⟩ := bind_ok rest
    obtain ⟨_, updated, same⟩ := bind_ok last
    cases same
    obtain ⟨t, next, armed⟩ := bind_ok (mapError_ok changed)
    cases armed
    exact ⟨.armed recurs i t parsed next, updated⟩

/-- A job that could be stored could be armed, unless its next date cannot be told. -/
theorem stuck_of_recycleJob {s s' : Store} {err : StoreError} {t₀ : Option Instant}
    (failed : s.recycleJob job e.now = .error err) (parks : s.updateJob (job.reset t₀) = .ok s')
    (i : Interval) (t : Instant) (parsed : job.interval = .ok (some i)) :
    i.adjust (job.completedAt.getD e.now) ≠ .ok t := by
  intro next
  have known := (Store.updateJob_ok parks).1.known _ (List.mem_singleton_self _)
  have open_ : s.isClosed = false := by
    obtain ⟨_, opened, _⟩ := bind_ok parks
    exact Store.ensureOpen_ok opened
  have present : (s.jobs.get? (job.countRun.reset (some t)).id).isSome = true := by
    rw [Job.id_of_origin ((Job.origin_reset _ _).trans (Job.origin_countRun job))]
    exact known
  have updated := Store.updateJob_stored open_ present
  simp [Store.recycleJob, parsed, Except.mapError, bind, Except.bind, Job.recycle, next, updated]
    at failed

private theorem settleJob_rows {answer : Except StoreError Unit}
    (done : e.settleJob job = (e', answer)) :
    e'.store.pipelines = e.store.pipelines ∧ ∀ id j, e'.store.jobs.get? id = some j →
      (job.id = id ∧ Settles e.now job j) ∨ e.store.jobs.get? id = some j := by
  have written {s s' : Store} {k : Job} (jobs : s.jobs = e.store.jobs) (settles : Settles e.now job k)
      (key : k.origin = job.origin) (updated : s.updateJob k = .ok s') (id : Id) (j : Job)
      (stored : s'.jobs.get? id = some j) :
      (job.id = id ∧ Settles e.now job j) ∨ e.store.jobs.get? id = some j := by
    rcases Store.updateJob_rows updated stored with ⟨same, rfl⟩ | before
    · exact Or.inl ⟨(Job.id_of_origin key).symm.trans same, settles⟩
    · exact Or.inr (jobs ▸ before)
  unfold settleJob at done
  split at done
  next recurs =>
    obtain ⟨feed, announced⟩ := announce_eq e jobTopic (Job.layout.write job)
    obtain ⟨store, feed', recorded, edited⟩ := recordTransaction_eq { e with feed := feed } job
    have jobs : store.jobs = e.store.jobs := edited.jobs
    have pipelines : store.pipelines = e.store.pipelines := edited.pipelines
    dsimp only at done
    rw [announced, recorded] at done
    dsimp only at done
    split at done
    next s' k recycled =>
      cases done
      have key := (Store.recycleJob_ok recycled).2.1
      obtain ⟨settles, updated⟩ := recycleJob_settles (e := e) recurs recycled
      exact ⟨(Store.pipelines_updateJob updated).trans pipelines, written jobs settles key updated⟩
    next err failed =>
      unfold parkJob at done
      dsimp only at done
      split at done
      next parked =>
        cases done
        exact ⟨(Store.pipelines_updateJob parked).trans pipelines,
          written jobs (.parked recurs (stuck_of_recycleJob (e := e) failed parked)) rfl parked⟩
      next =>
        cases done
        exact ⟨pipelines, fun id j stored => Or.inr (jobs ▸ stored)⟩
  next once =>
    split at done
    next updated =>
      cases done
      exact ⟨Store.pipelines_updateJob updated,
        written rfl (.once (by simpa using once)) rfl updated⟩
    next =>
      cases done
      exact ⟨rfl, fun _ _ => Or.inr⟩

theorem concludeJob_rows {answer : Interlude ⊕ Ended}
    (done : e.concludeJob x result = (e', answer)) :
    (∀ id j, e'.store.jobs.get? id = some j →
      (x.current.id = id ∧ Settles e.now (markFinished x.current result e.now) j) ∨
        e.store.jobs.get? id = some j) ∧
    ∀ id row, e'.store.pipelines.get? id = some row →
      (∃ p q, x.pipeline = some p ∧ p.id = id ∧
        q = pipelineAfter p result x.waiting.isEmpty e.now ∧ q.status.isTerminal = true ∧
        row.record = { q with jobs := [] }) ∨
      e.store.pipelines.get? id = some row := by
  have jobs := (store_concludeJob e x result).1
  obtain ⟨store, _, _, _, _, _, _, _, rfl, _, edited, _, settled, _⟩ := concludeJob_spec done
  refine ⟨fun id j stored => ?_, fun id row found => ?_⟩
  · rw [done] at jobs
    rw [jobs] at stored
    have rows := settleJob_rows (Prod.eta (e.settleJob (markFinished x.current result e.now))).symm
    rcases rows.2 id j stored with ⟨same, settles⟩ | before
    · exact Or.inl ⟨(Job.id_of_origin (Job.origin_markFinished _ _ _)).symm.trans same, settles⟩
    · exact Or.inr before
  · change store.pipelines.get? id = some row at found
    obtain ⟨r, before, listed, ⟨kept, _⟩ | ⟨q, member, same, record⟩⟩ := edited.record_cases found
    · refine Or.inr (before.trans (congrArg some ?_))
      cases r
      cases row
      cases kept
      cases listed
      rfl
    · cases settled with
      | stored =>
        obtain ⟨known, terminal⟩ := List.mem_filter.mp member
        obtain ⟨p, whole, rfl⟩ := Option.map_eq_some_iff.mp (Option.mem_toList.mp known)
        exact Or.inl ⟨p, _, whole, (id_pipelineAfter _ _ _ _).symm.trans same, rfl, terminal, record⟩
      | missing => cases member

/-! ### Rows after a submission -/

/-- A submission runs the job or passes it over, or arms its pipeline again. -/
theorem resolve_cases {r : Resolution} (done : e.resolve job = (e', r)) :
    (e' = e ∧ ∀ c, r = .run c → c.head = job) ∨ (∀ c, r ≠ .run c) ∧
      ∃ id p, job.pipelineId = some id ∧ e.store.getPipeline id = .ok p ∧ p.isRearmed = true ∧
        e.rearm p = (e', r) := by
  have head (c : Chain) (runs : r = .run c) : c.head = job := by
    subst runs
    exact (resolve_resolved done).head
  unfold resolve at done
  split at done
  next =>
    cases done
    exact Or.inl ⟨rfl, head⟩
  next id owner =>
    split at done
    next =>
      cases done
      exact Or.inl ⟨rfl, head⟩
    next p read =>
      have rearms (holds : p.isRearmed = true) (done : e.rearm p = (e', r)) :
          (∀ c, r ≠ .run c) ∧ ∃ id p, job.pipelineId = some id ∧ e.store.getPipeline id = .ok p ∧
            p.isRearmed = true ∧ e.rearm p = (e', r) := by
        obtain ⟨_, _, _, _, _, _, _, noRun⟩ := rearm_spec done
        exact ⟨noRun, id, p, owner, read, holds, done⟩
      split at done
      next disabled => exact Or.inr (rearms (by simp [Pipeline.isRearmed, disabled]) done)
      next =>
        split at done
        next failed => exact Or.inr (rearms (by simp [Pipeline.isRearmed, failed]) done)
        next =>
          refine Or.inl ⟨?_, head⟩
          repeat' split at done
          all_goals
            cases done
            rfl

inductive SubmittedRow (e : Engine) (job : Job) (id : Id) (j : Job) : Prop
  | kept (stored : e.store.jobs.get? id = some j)
  | rearmed (pipelineId : Id) (p : Pipeline) (d : Job) (t : Instant)
      (owner : job.pipelineId = some pipelineId) (read : e.store.getPipeline pipelineId = .ok p)
      (holds : p.isRearmed = true) (inside : d ∈ p.jobs) (key : d.id = id)
      (same : j = d.reset (some t))
  | scheduled (key : job.id = id) (same : j = job.markScheduled e.now)
  | returned (key : job.id = id) (stopped : e.pool.isAccepting = false)
      (same : j = (job.markScheduled e.now).markPending)

private theorem rearm_rows {r : Resolution} {pipelineId : Id}
    (owner : job.pipelineId = some pipelineId)
    (read : e.store.getPipeline pipelineId = .ok p) (holds : p.isRearmed = true)
    (done : e.rearm p = (e', r)) :
    (∀ id j, e'.store.jobs.get? id = some j → SubmittedRow e job id j) ∧
      ∀ id row, e'.store.pipelines.get? id = some row →
        (p.id = id ∧ row.record.IsBlank) ∨ e.store.pipelines.get? id = some row := by
  unfold rearm at done
  split at done
  all_goals
    next recycled =>
      cases done
      obtain ⟨jobs, records⟩ := Store.recyclePipeline_rows recycled
      refine ⟨fun id j stored => ?_, records⟩
      rcases jobs id j stored with ⟨d, inside, key, t, same⟩ | before
      · exact .rearmed pipelineId p d t owner read holds inside key same
      · exact .kept before

theorem submit_rows {answer : Submission} (done : e.submit job = (e', answer)) :
    (∀ id j, e'.store.jobs.get? id = some j → SubmittedRow e job id j) ∧
      ∀ id row, e'.store.pipelines.get? id = some row →
        (∃ pipelineId p, job.pipelineId = some pipelineId ∧
          e.store.getPipeline pipelineId = .ok p ∧ p.isRearmed = true ∧ p.id = id ∧
          row.record.IsBlank) ∨
        e.store.pipelines.get? id = some row := by
  unfold submit at done
  obtain ⟨e₁, r, resolves⟩ : ∃ e₁ r, e.resolve job = (e₁, r) := ⟨_, _, rfl⟩
  rw [resolves] at done
  rcases resolve_cases resolves with ⟨rfl, head⟩ | ⟨noRun, pipelineId, p, owner, read, holds, rearms⟩
  · cases r with
    | run c =>
      dsimp only at done
      rw [head c rfl] at done
      split at done
      next =>
        cases done
        exact ⟨fun _ _ => .kept, fun _ _ => Or.inr⟩
      next store updated =>
        have scheduled (id : Id) (j : Job) (stored : store.jobs.get? id = some j) :
            SubmittedRow e₁ job id j := by
          rcases Store.updateJob_rows updated stored with ⟨same, rfl⟩ | before
          · exact .scheduled same rfl
          · exact .kept before
        have pipelines := Store.pipelines_updateJob updated
        unfold sendChain at done
        split at done
        next =>
          cases done
          exact ⟨scheduled, fun id row found => Or.inr (pipelines ▸ found)⟩
        next =>
          split at done
          next =>
            cases done
            exact ⟨scheduled, fun id row found => Or.inr (pipelines ▸ found)⟩
          next =>
            cases done
            exact ⟨scheduled, fun id row found => Or.inr (pipelines ▸ found)⟩
          next refused =>
            have stopped : e₁.pool.isAccepting = false := by
              unfold Pool.send at refused
              split at refused
              next closed => simpa [withStore] using closed
              next => split at refused <;> cases refused
            unfold unschedule at done
            rw [Chain.head_withHead] at done
            split at done
            next undone =>
              cases done
              refine ⟨fun id j stored => ?_, fun id row found => Or.inr ?_⟩
              · rcases Store.updateJob_rows undone stored with ⟨same, rfl⟩ | before
                · exact .returned same stopped rfl
                · exact scheduled id j before
              · rw [← pipelines]
                exact Store.pipelines_updateJob undone ▸ found
            next =>
              cases done
              exact ⟨scheduled, fun id row found => Or.inr (pipelines ▸ found)⟩
    | _ =>
      cases done
      exact ⟨fun _ _ => .kept, fun _ _ => Or.inr⟩
  · have rows := rearm_rows owner read holds rearms
    have own : ∀ id row, e₁.store.pipelines.get? id = some row →
        (∃ pipelineId p, job.pipelineId = some pipelineId ∧
          e.store.getPipeline pipelineId = .ok p ∧ p.isRearmed = true ∧ p.id = id ∧
          row.record.IsBlank) ∨
        e.store.pipelines.get? id = some row := by
      intro id row found
      rcases rows.2 id row found with ⟨same, blank⟩ | before
      · exact Or.inl ⟨pipelineId, p, owner, read, holds, same, blank⟩
      · exact Or.inr before
    cases r with
    | run c => exact absurd rfl (noRun c)
    | _ =>
      cases done
      exact ⟨rows.1, own⟩

end Engine

end Rota
