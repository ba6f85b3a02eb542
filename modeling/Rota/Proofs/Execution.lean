import Rota.Proofs.Store
/-! What the steps of a worker read and write.
Starting a job writes it as in progress, concluding it writes a copy that is not active any more.
A step that stops with an error has found no record to write over. -/
namespace Rota

def Work.pipelineId? : Work → Option Id
  | .task _ => none
  | .pipeline id _ => some id

def Execution.pipelineId? (x : Execution) : Option Id := x.pipeline.map (·.id)

theorem Status.not_isActive_of_isTerminal {status : Status} (terminal : status.isTerminal = true) :
    status.isActive = false := by
  cases status <;> first | rfl | cases terminal

namespace Engine

variable {e e' : Engine} {executor : Executor} {isSaved : Bool} {pipeline : Option Pipeline}
  {jobs : List Job} {job : Job} {previous : Option Json} {results : List JobResult}
  {x : Execution} {err : StoreError} {result : JobResult}

@[simp] theorem store_endExecution (e : Engine) (executor : Executor) (ended : Ended) :
    (e.endExecution executor ended).store = e.store := by cases executor <;> rfl

@[simp] theorem pool_endExecution (e : Engine) (executor : Executor) (ended : Ended) :
    (e.endExecution executor ended).pool = e.pool := by cases executor <;> rfl

@[simp] theorem queue_endExecution (e : Engine) (executor : Executor) (ended : Ended) :
    (e.endExecution executor ended).queue = e.queue := by cases executor <;> rfl

@[simp] theorem issued_endExecution (e : Engine) (executor : Executor) (ended : Ended) :
    (e.endExecution executor ended).issued = e.issued := by cases executor <;> rfl

/-! ### Starting -/

/-- What runs is the first of the jobs, as it has been marked and stored. -/
theorem startJob_runs
    (started : e.startJob executor isSaved pipeline jobs previous results = (e', .ok (some x))) :
    ∃ job waiting store, jobs = job :: waiting ∧
      e.store.updateJob (job.markStarted e.now) = .ok store ∧ e' = e.withStore store ∧
      x = e'.runJob executor isSaved pipeline (job.markStarted e.now) waiting previous results := by
  unfold startJob at started
  split at started
  next => cases started
  next job waiting =>
    dsimp only at started
    split at started
    next => cases started
    next store updated =>
      cases started
      exact ⟨job, waiting, store, rfl, updated, rfl, rfl⟩

private theorem startJob_some
    (started : e.startJob executor isSaved pipeline jobs previous results = (e', .ok (some x))) :
    ∃ job store, jobs = job :: x.waiting ∧ x.current = job.markStarted e.now ∧
      x.pipeline = pipeline ∧ x.executor = executor ∧
      e.store.updateJob x.current = .ok store ∧ e' = e.withStore store := by
  obtain ⟨job, waiting, store, listed, updated, rfl, rfl⟩ := startJob_runs started
  exact ⟨job, store, listed, rfl, rfl, rfl, updated, rfl⟩

private theorem startJob_lost {answer : Except StoreError (Option Execution)}
    (done : e.startJob executor isSaved pipeline jobs previous results = (e', answer))
    (lost : ∀ x, answer ≠ .ok (some x)) :
    e' = e ∧ (jobs = [] ∨ ∃ job waiting, jobs = job :: waiting ∧
      (e.store.isClosed = false → e.store.jobs.get? job.id = none)) := by
  unfold startJob at done
  split at done
  next =>
    cases done
    exact ⟨rfl, Or.inl rfl⟩
  next job waiting =>
    dsimp only at done
    split at done
    next err failed =>
      cases done
      have missing := Store.updateJob_error (j := job.markStarted e.now) failed
      exact ⟨rfl, Or.inr ⟨job, waiting, rfl, missing⟩⟩
    next =>
      cases done
      exact absurd rfl (lost _)

def Began (e : Engine) (w : Work) (pipeline : Option Pipeline) : Prop :=
  match w with
  | .task _ => pipeline = none
  | .pipeline id _ => ∃ q, e.store.getPipeline id = .ok q ∧ pipeline = some (q.markStarted e.now)

/-- A work that begins writes its first job and the record of its pipeline as in progress. -/
theorem beginWork_some {h : Handover} (begun : e.beginWork executor h = (e', .ok (some x))) :
    ∃ job store, h.work.jobs = job :: x.waiting ∧ x.current = job.markStarted e.now ∧
      x.executor = executor ∧ e.Began h.work x.pipeline ∧ e' = e.withStore store ∧
      Store.Edited e.store store [x.current] x.pipeline.toList := by
  unfold beginWork at begun
  split at begun
  next job isTask =>
    obtain ⟨job, store, same, current, noPipeline, who, updated, rfl⟩ := startJob_some begun
    refine ⟨job, store, ?_, current, who, ?_, rfl, ?_⟩
    · rw [isTask]
      exact same
    · rw [isTask]
      exact noPipeline
    · rw [noPipeline]
      exact (Store.updateJob_ok updated).1
  next id jobs isPipeline =>
    split at begun
    next => cases begun
    next q read =>
      dsimp only at begun
      split at begun
      next => cases begun
      next store marked =>
        obtain ⟨job, store', same, current, whole, who, updated, rfl⟩ := startJob_some begun
        refine ⟨job, store', ?_, current, who, ?_, rfl, ?_⟩
        · rw [isPipeline]
          exact same
        · rw [isPipeline]
          exact ⟨q, read, whole⟩
        · rw [whole]
          exact (Store.updatePipeline_ok marked).1.trans (Store.updateJob_ok updated).1

theorem beginWork_runs {h : Handover} (begun : e.beginWork executor h = (e', .ok (some x))) :
    ∃ pipeline job waiting store, h.work.jobs = job :: waiting ∧ e' = e.withStore store ∧
      x = e'.runJob executor h.isSaved pipeline (job.markStarted e.now) waiting none [] := by
  unfold beginWork at begun
  split at begun
  next job isTask =>
    obtain ⟨first, waiting, store, jobs, _, same, runs⟩ := startJob_runs begun
    refine ⟨none, first, waiting, store, ?_, same, runs⟩
    rw [isTask]
    exact jobs
  next id jobs isPipeline =>
    split at begun
    next => cases begun
    next q read =>
      dsimp only at begun
      split at begun
      next => cases begun
      next marked _ =>
        obtain ⟨first, waiting, store, jobs, _, same, runs⟩ := startJob_runs begun
        refine ⟨_, first, waiting, store, ?_, same, runs⟩
        rw [isPipeline]
        exact jobs

/-- Why a work could not be begun: it is empty, or its pipeline cannot be read, or a record that it
would write over does not exist. -/
inductive Lost (e : Engine) (w : Work) : List Pipeline → Prop
  | empty (records : List Pipeline) (noJobs : w.jobs = []) : Lost e w records
  | unread (id : Id) (err : StoreError) (ofPipeline : w.pipelineId? = some id)
      (failed : e.store.getPipeline id = .error err) : Lost e w []
  | unmarked (id : Id) (q : Pipeline) (read : e.store.getPipeline id = .ok q)
      (missing : e.store.isClosed = false → e.store.pipelines.get? q.id = none) : Lost e w []
  | unstarted (records : List Pipeline) (job : Job) (waiting : List Job)
      (first : w.jobs = job :: waiting)
      (missing : e.store.isClosed = false → e.store.jobs.get? job.id = none) : Lost e w records

theorem beginWork_lost {h : Handover} {answer : Except StoreError (Option Execution)}
    (begun : e.beginWork executor h = (e', answer)) (lost : ∀ x, answer ≠ .ok (some x)) :
    ∃ store records, e' = e.withStore store ∧ Store.Edited e.store store [] records ∧
      e.Lost h.work records ∧
      ∀ r ∈ records, ∃ id q, h.work.pipelineId? = some id ∧ e.store.getPipeline id = .ok q ∧
        r = q.markStarted e.now := by
  unfold beginWork at begun
  split at begun
  next job isTask =>
    obtain ⟨same, reason⟩ := startJob_lost begun lost
    refine ⟨e.store, [], same, .refl _, ?_, by simp⟩
    rcases reason with noJobs | ⟨first, waiting, listed, missing⟩
    · cases noJobs
    · cases listed
      exact .unstarted _ job [] (by rw [isTask]; rfl) missing
  next id jobs isPipeline =>
    split at begun
    next err failed =>
      cases begun
      exact ⟨e.store, [], rfl, .refl _, .unread id err (by rw [isPipeline]; rfl) failed, by simp⟩
    next q read =>
      dsimp only at begun
      split at begun
      next err failed =>
        cases begun
        have missing := Store.updatePipeline_error (p := q.markStarted e.now) failed
        exact ⟨e.store, [], rfl, .refl _, .unmarked id q read missing, by simp⟩
      next store marked =>
        have edited := (Store.updatePipeline_ok marked).1
        obtain ⟨same, reason⟩ := startJob_lost begun lost
        refine ⟨store, [q.markStarted e.now], same, edited, ?_, ?_⟩
        · rcases reason with noJobs | ⟨first, waiting, listed, missing⟩
          · exact .empty _ (by rw [isPipeline]; exact noJobs)
          · refine .unstarted _ first waiting (by rw [isPipeline]; exact listed) fun open_ => ?_
            have found := missing (by rw [store_withStore, edited.closed]; exact open_)
            rwa [store_withStore, edited.jobs] at found
        · intro r member
          rw [List.mem_singleton.mp member]
          exact ⟨id, q, by rw [isPipeline]; rfl, read, rfl⟩

/-! ### Finishing -/

private theorem isActive_markFinished (job : Job) (result : JobResult) (t : Instant) :
    (markFinished job result t).status.isActive = false := by
  unfold markFinished
  split <;> rfl

theorem announce_eq (e : Engine) (topic : String) (payload : Json) :
    ∃ feed, e.announce topic payload = { e with feed := feed } := by
  unfold announce publish Store.ensureOpen
  cases e.store.isClosed <;> exact ⟨_, rfl⟩

theorem recordTransaction_eq (e : Engine) (job : Job) :
    ∃ store feed, e.recordTransaction job =
        { e with issued := e.issued + 1, store := store, feed := feed } ∧
      Store.Edited e.store store [] [] := by
  unfold recordTransaction issueId
  dsimp only
  split
  next => exact ⟨e.store, e.feed, rfl, .refl _⟩
  next store created =>
    obtain ⟨_, _, same⟩ := bind_ok created
    cases same
    obtain ⟨feed, announced⟩ := announce_eq (withStore { e with issued := e.issued + 1 }
      { e.store with transactions := _ }) transactionTopic _
    exact ⟨_, feed, announced, rfl, by simp, rfl, rfl⟩

/-- How a finished job was stored: as a copy that is not active, unless its record is missing. -/
inductive Settled (store : Store) (job : Job) : Except StoreError Unit → List Job → Prop
  | stored (k : Job) (sameOrigin : k.origin = job.origin) (passive : k.status.isActive = false)
      (details : k.details = job.details) : Settled store job (.ok ()) [k]
  | missing (err : StoreError) (absent : store.isClosed = false → store.jobs.get? job.id = none) :
      Settled store job (.error err) []

private theorem settleJob_settled {answer : Except StoreError Unit}
    (passive : job.status.isActive = false)
    (done : e.settleJob job = (e', answer)) :
    ∃ store feed issued written, e' = { e with store := store, feed := feed, issued := issued } ∧
      e.issued ≤ issued ∧ Store.Edited e.store store written [] ∧
      Settled e.store job answer written := by
  unfold settleJob at done
  split at done
  next recurs =>
    obtain ⟨feed, announced⟩ := announce_eq e jobTopic (Job.layout.write job)
    obtain ⟨store, feed', recorded, edited⟩ := recordTransaction_eq { e with feed := feed } job
    dsimp only at done
    rw [announced, recorded] at done
    dsimp only at done
    split at done
    next written k recycled =>
      cases done
      obtain ⟨armed, sameOrigin, pending, details⟩ := Store.recycleJob_ok recycled
      refine ⟨written, feed', e.issued + 1, [k], rfl, Nat.le_succ _, edited.trans armed, ?_⟩
      exact .stored k sameOrigin (by rw [pending]; rfl) details
    next =>
      unfold parkJob at done
      dsimp only at done
      split at done
      next written parked =>
        cases done
        have reset := (Store.updateJob_ok parked).1
        exact ⟨written, feed', e.issued + 1, _, rfl, Nat.le_succ _, edited.trans reset,
          .stored _ (Job.origin_reset job none) rfl rfl⟩
      next err failed =>
        cases done
        refine ⟨store, feed', e.issued + 1, [], rfl, Nat.le_succ _, edited, .missing err ?_⟩
        intro open_
        have absent := Store.updateJob_error (j := job.reset none) failed
          (edited.closed.trans open_)
        rwa [edited.jobs] at absent
  next =>
    split at done
    next written updated =>
      cases done
      exact ⟨written, e.feed, e.issued, [job], rfl, Nat.le_refl _, (Store.updateJob_ok updated).1,
        .stored job rfl passive rfl⟩
    next err failed =>
      cases done
      exact ⟨e.store, e.feed, e.issued, [], rfl, Nat.le_refl _, .refl _,
        .missing err (Store.updateJob_error failed)⟩

inductive SettledPipeline (store : Store) (pipeline : Option Pipeline) :
    Except StoreError Unit → List Pipeline → Prop
  | stored : SettledPipeline store pipeline (.ok ())
      (pipeline.toList.filter fun p => p.status.isTerminal)
  | missing (p : Pipeline) (err : StoreError) (whole : pipeline = some p)
      (absent : store.isClosed = false → store.pipelines.get? p.id = none) :
      SettledPipeline store pipeline (.error err) []

theorem settlePipeline_settled {answer : Except StoreError Unit}
    (done : e.settlePipeline pipeline = (e', answer)) :
    ∃ store records, e' = e.withStore store ∧ Store.Edited e.store store [] records ∧
      SettledPipeline e.store pipeline answer records := by
  unfold settlePipeline at done
  split at done
  next =>
    cases done
    exact ⟨e.store, [], rfl, .refl _, .stored⟩
  next p =>
    split at done
    next terminal =>
      split at done
      next store updated =>
        cases done
        have written : [p] = (some p).toList.filter fun p => p.status.isTerminal := by
          simp [terminal]
        exact ⟨store, [p], rfl, (Store.updatePipeline_ok updated).1, written ▸ .stored⟩
      next err failed =>
        cases done
        exact ⟨e.store, [], rfl, .refl _, .missing p err rfl (Store.updatePipeline_error failed)⟩
    next running =>
      cases done
      have written : [] = (some p).toList.filter fun p => p.status.isTerminal := by
        simp [running]
      exact ⟨e.store, [], rfl, .refl _, written ▸ .stored⟩

def pipelineThen (e : Engine) (x : Execution) (result : JobResult) : Option Pipeline :=
  x.pipeline.map fun p => pipelineAfter p result x.waiting.isEmpty e.now

theorem id_pipelineAfter (p : Pipeline) (result : JobResult) (isLast : Bool) (t : Instant) :
    (pipelineAfter p result isLast t).id = p.id := by
  unfold pipelineAfter
  split
  next => rfl
  next => split <;> rfl

/-- After a failure, and after its last job, a pipeline is not active any more. -/
theorem isTerminal_pipelineAfter {p : Pipeline} {isLast : Bool} {t : Instant}
    (ends : result.isSuccess = false ∨ isLast = true) :
    (pipelineAfter p result isLast t).status.isTerminal = true := by
  unfold pipelineAfter
  split
  next => rfl
  next success =>
    split
    next => rfl
    next notLast =>
      rcases ends with failed | last
      · simp [failed] at success
      · exact absurd last notLast

def Sends (isSaved : Bool) (before after : List JobResult × List JobResult)
    (sent : List JobResult) : Prop :=
  after = if isSaved then (before.1 ++ sent, before.2) else (before.1, before.2 ++ sent)

theorem sendResult_eq (e : Engine) (x : Execution) (result : JobResult) :
    ∃ unsaved results, e.sendResult x result =
        ({ e with pool := { e.pool with unsaved := unsaved } }, results) ∧
      Sends x.isSaved (e.pool.unsaved, x.results) (unsaved, results) [result] := by
  unfold sendResult Sends
  split <;> exact ⟨_, _, rfl, rfl⟩

/-- What concluding a job does: the job is settled, then its pipeline, and the result is sent. -/
theorem concludeJob_eq (e : Engine) (x : Execution) (result : JobResult) :
    ∃ store feed issued unsaved results written records jobAnswer pipelineAnswer,
      e.concludeJob x result =
        ({ e with
            store := store, feed := feed, issued := issued
            pool := { e.pool with unsaved := unsaved } },
          conclusion x (e.pipelineThen x result) result results jobAnswer pipelineAnswer) ∧
      e.issued ≤ issued ∧ Sends x.isSaved (e.pool.unsaved, x.results) (unsaved, results) [result] ∧
      Store.Edited e.store store written records ∧
      Settled e.store (markFinished x.current result e.now) jobAnswer written ∧
      SettledPipeline e.store (e.pipelineThen x result) pipelineAnswer records := by
  obtain ⟨e₁, jobAnswer, jobDone⟩ : ∃ e₁ a, e.settleJob (markFinished x.current result e.now) =
      (e₁, a) := ⟨_, _, rfl⟩
  obtain ⟨store₁, feed, issued, written, rfl, later, edited₁, settled⟩ :=
    settleJob_settled (isActive_markFinished _ _ _) jobDone
  obtain ⟨e₂, pipelineAnswer, pipelineDone⟩ : ∃ e₂ a,
      settlePipeline { e with store := store₁, feed := feed, issued := issued }
        (e.pipelineThen x result) = (e₂, a) := ⟨_, _, rfl⟩
  obtain ⟨store₂, records, rfl, edited₂, settled₂⟩ := settlePipeline_settled pipelineDone
  obtain ⟨unsaved, results, sent, sends⟩ := sendResult_eq (withStore { e with
    store := store₁, feed := feed, issued := issued } store₂) x result
  refine ⟨store₂, feed, issued, unsaved, results, written, records, jobAnswer, pipelineAnswer, ?_,
    later, sends, by simpa using edited₁.trans edited₂, settled, ?_⟩
  · rw [pipelineThen] at pipelineDone
    unfold concludeJob
    simp only [jobDone, pipelineDone, sent]
    rfl
  · cases settled₂ with
    | stored => exact .stored
    | missing p err whole absent =>
      refine .missing p err whole fun open_ => ?_
      have found := absent (edited₁.closed.trans open_)
      rwa [edited₁.pipelines] at found

theorem unsaved_concludeJob (e : Engine) (x : Execution) (result : JobResult) :
    (e.concludeJob x result).1.pool.unsaved =
      e.pool.unsaved ++ if x.isSaved then [result] else [] := by
  obtain ⟨_, _, _, unsaved, _, _, _, _, _, concludes, _, sends, _⟩ := concludeJob_eq e x result
  rw [concludes]
  show unsaved = _
  unfold Sends at sends
  split at sends
  next isSaved => simpa [isSaved] using congrArg Prod.fst sends
  next kept => simpa [kept] using congrArg Prod.fst sends

theorem conclusion_ok (x : Execution) (pipeline : Option Pipeline) (result : JobResult)
    (results : List JobResult) : conclusion x pipeline result results (.ok ()) (.ok ()) =
      if result.isSuccess && pipeline.isSome && !x.waiting.isEmpty then
        .inl ⟨x.executor, x.isSaved, pipeline, x.waiting, result.metadata, results⟩
      else .inr ⟨results, none⟩ := rfl

/-- A worker goes on if job and pipeline are stored, the job has succeeded and more jobs wait in its
pipeline. -/
theorem concludeJob_spec {answer : Interlude ⊕ Ended}
    (done : e.concludeJob x result = (e', answer)) :
    ∃ store feed issued unsaved written records jobAnswer pipelineAnswer,
      e' = { e with
        store := store, feed := feed, issued := issued
        pool := { e.pool with unsaved := unsaved } } ∧
      e.issued ≤ issued ∧ Store.Edited e.store store written records ∧
      Settled e.store (markFinished x.current result e.now) jobAnswer written ∧
      SettledPipeline e.store (e.pipelineThen x result) pipelineAnswer records ∧
      ((∃ p i, x.pipeline = some p ∧ answer = .inl i ∧ result.isSuccess = true ∧ x.waiting ≠ [] ∧
          i.executor = x.executor ∧ i.pipeline = some p ∧ i.jobs = x.waiting ∧
          i.previous = result.metadata ∧ jobAnswer = .ok ()) ∨
        ∃ ended, answer = .inr ended ∧
          (jobAnswer = .ok () → pipelineAnswer = .ok () → x.pipeline.isSome = true →
            result.isSuccess = false ∨ x.waiting = [])) := by
  obtain ⟨store, feed, issued, unsaved, results, written, records, jobAnswer, pipelineAnswer,
    concludes, later, _, edited, settled, settledPipeline⟩ := concludeJob_eq e x result
  rw [done] at concludes
  obtain ⟨rfl, same⟩ := Prod.mk.inj concludes
  refine ⟨store, feed, issued, unsaved, written, records, jobAnswer, pipelineAnswer, rfl, later,
    edited, settled, settledPipeline, ?_⟩
  subst same
  cases jobAnswer with
  | error err => exact Or.inr ⟨_, rfl, by simp⟩
  | ok _ =>
    cases pipelineAnswer with
    | error err => exact Or.inr ⟨_, rfl, by simp⟩
    | ok _ =>
      rw [conclusion_ok, pipelineThen]
      split
      next goes =>
        simp only [Option.isSome_map, Bool.and_eq_true, Bool.not_eq_true',
          List.isEmpty_eq_false_iff] at goes
        obtain ⟨⟨success, inPipeline⟩, more⟩ := goes
        obtain ⟨p, whole⟩ := Option.isSome_iff_exists.mp inPipeline
        refine Or.inl ⟨p, _, whole, rfl, success, more, rfl, ?_, rfl, rfl, rfl⟩
        simp [whole, pipelineAfter, success, more]
      next stops =>
        refine Or.inr ⟨_, rfl, fun _ _ inPipeline => ?_⟩
        by_contra neither
        simp only [not_or, Bool.not_eq_false] at neither
        simp [neither, inPipeline] at stops

/-- Between two jobs a worker has the jobs that waited, and what the result hands on. -/
theorem concludeJob_hands {i : Interlude} (done : e.concludeJob x result = (e', .inl i)) :
    i.executor = x.executor ∧ i.jobs = x.waiting ∧ i.previous = result.metadata := by
  obtain ⟨_, _, _, _, _, _, _, _, _, _, _, _, _, goes | stops⟩ := concludeJob_spec done
  · obtain ⟨_, _, _, same, _, _, executor, _, jobs, previous, _⟩ := goes
    cases same
    exact ⟨executor, jobs, previous⟩
  · obtain ⟨_, same, _⟩ := stops
    cases same

theorem executor_concludeJob {i : Interlude} (done : e.concludeJob x result = (e', .inl i)) :
    i.executor = x.executor := (concludeJob_hands done).1

theorem goOn_runs {i : Interlude} (goes : e.goOn i = (e', .inl x)) :
    ∃ job waiting store, i.jobs = job :: waiting ∧
      e.store.updateJob (job.markStarted e.now) = .ok store ∧ e' = e.withStore store ∧
      x = e'.runJob i.executor i.isSaved i.pipeline (job.markStarted e.now) waiting i.previous
        i.results := by
  unfold goOn at goes
  split at goes
  next begun =>
    cases goes
    exact startJob_runs begun
  next => cases goes
  next => cases goes

theorem goOn_inl {i : Interlude} (started : e.goOn i = (e', .inl x)) :
    ∃ job store, i.jobs = job :: x.waiting ∧ x.current = job.markStarted e.now ∧
      x.pipeline = i.pipeline ∧ x.executor = i.executor ∧
      e.store.updateJob x.current = .ok store ∧ e' = e.withStore store := by
  obtain ⟨job, waiting, store, listed, updated, rfl, rfl⟩ := goOn_runs started
  exact ⟨job, store, listed, rfl, rfl, rfl, updated, rfl⟩

theorem goOn_inr {i : Interlude} {ended : Ended} (done : e.goOn i = (e', .inr ended)) :
    e' = e ∧ (i.jobs = [] ∨ ∃ job waiting, i.jobs = job :: waiting ∧
      (e.store.isClosed = false → e.store.jobs.get? job.id = none)) := by
  unfold goOn at done
  split at done
  next => cases done
  next e₁ none_ =>
    cases done
    exact startJob_lost none_ (by simp)
  next e₁ err failed =>
    cases done
    exact startJob_lost failed (by simp)

/-! ### The pool while a work is executed -/

private theorem pool_startJob :
    (e.startJob executor isSaved pipeline jobs previous results).1.pool = e.pool := by
  unfold startJob
  split
  next => rfl
  next =>
    dsimp only
    split <;> rfl

theorem pool_beginWork (e : Engine) (executor : Executor) (h : Handover) :
    (e.beginWork executor h).1.pool = e.pool := by
  unfold beginWork
  split
  next => exact pool_startJob
  next =>
    split
    next => rfl
    next =>
      dsimp only
      split
      next => rfl
      next => exact pool_startJob

theorem pool_goOn (e : Engine) (i : Interlude) : (e.goOn i).1.pool = e.pool := by
  have same : (e.startJob i.executor i.isSaved i.pipeline i.jobs i.previous i.results).1.pool =
    e.pool := pool_startJob
  unfold goOn
  split <;> next started => exact (congrArg (fun a => a.1.pool) started).symm.trans same

end Engine

end Rota
