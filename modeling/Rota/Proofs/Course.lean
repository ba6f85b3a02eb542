import Rota.Proofs.Clock
import Rota.Proofs.Execution
import Rota.Proofs.System
/-! The course of a work that nobody disturbs.
Every job of a pipeline can end in any of the ways in which jobs end. Whatever happens, the jobs are
executed in the order of the chain up to the first that fails, each gives one result, and the
record of the pipeline says in the end whether all of them have succeeded. -/
namespace Rota

inductive Fate where
  /-- Its task answers, with a value or an error, or crashes. -/
  | answered (outcome : Outcome)
  /-- There is no task of that name. -/
  | unregistered
  /-- Its task does not answer in time. -/
  | overdue
  | cancelled

namespace Fate

def result (x : Execution) : Fate → JobResult
  | answered outcome => outcome.result x.current.id
  | unregistered =>
    (Outcome.failure (TaskError.notRegistered x.current.taskName).messages).result x.current.id
  | overdue => .failure x.current.id ("deadline exceeded after " ++ spanText x.limit)
  | cancelled => .failure x.current.id "execution cancelled"

theorem jobId_result (x : Execution) (fate : Fate) : (fate.result x).jobId = x.current.id := by
  cases fate with
  | answered outcome =>
    cases outcome with
    | value v => cases v <;> rfl
    | failure _ => rfl
    | crash _ => rfl
  | unregistered => rfl
  | overdue => rfl
  | cancelled => rfl

theorem isSuccess_result (x : Execution) (fate : Fate) :
    (fate.result x).isSuccess = true ↔ ∃ v, fate = .answered (.value v) := by
  cases fate with
  | answered outcome =>
    cases outcome with
    | value v => cases v <;> exact ⟨fun _ => ⟨_, rfl⟩, fun _ => rfl⟩
    | failure _ => simp [result, Outcome.result, JobResult.failure, JobResult.isSuccess]
    | crash _ => simp [result, Outcome.result, JobResult.failure, JobResult.isSuccess]
  | unregistered => simp [result, Outcome.result, JobResult.failure, JobResult.isSuccess]
  | overdue => simp [result, JobResult.failure, JobResult.isSuccess]
  | cancelled => simp [result, JobResult.failure, JobResult.isSuccess]

end Fate

/-- A running job ends in no other way. -/
theorem Execution.verdict?_fate {x : Execution} {isCancelled : Bool} {time : Nat} {result : JobResult}
    (verdict : x.verdict? isCancelled time = some result) : ∃ fate : Fate, fate.result x = result := by
  unfold verdict? at verdict
  split at verdict
  next =>
    cases verdict
    exact ⟨.cancelled, rfl⟩
  next =>
    split at verdict
    next =>
      split at verdict
      next =>
        cases verdict
        exact ⟨.overdue, rfl⟩
      next => cases verdict
    next =>
      split at verdict
      next =>
        cases verdict
        exact ⟨.answered x.run.outcome, rfl⟩
      next => cases verdict

structure Turn where
  /-- Milliseconds until the job has its result. -/
  millis : Nat
  fate : Fate
  /-- Milliseconds until its worker goes on. -/
  pause : Nat

/-- A job that has been executed. -/
structure Stint where
  /-- The job as it has ended. -/
  job : Job
  result : JobResult

structure Course where
  stints : List Stint
  engine : Engine
  /-- What the execution has left, if it has ended. -/
  ended : Option Engine.Ended

namespace Engine

def runOut (e : Engine) (x : Execution) : List Turn → Course
  | [] => ⟨[], e, none⟩
  | turn :: turns =>
    let e := e.advance turn.millis
    let result := turn.fate.result x
    let stint : Stint := ⟨markFinished x.current result e.now, result⟩
    match e.concludeJob x result with
    | (e, .inr ended) => ⟨[stint], e.endExecution x.executor ended, some ended⟩
    | (e, .inl i) =>
      match (e.advance turn.pause).goOn i with
      | (e, .inr ended) => ⟨[stint], e.endExecution i.executor ended, some ended⟩
      | (e, .inl x) =>
        let course := e.runOut x turns
        { course with stints := stint :: course.stints }

def carryOut (e : Engine) (executor : Executor) (h : Handover) (turns : List Turn) : Course :=
  match e.beginWork executor h with
  | (e, .ok (some x)) => e.runOut x turns
  | (e, .ok none) => ⟨[], e.endExecution executor ⟨[], none⟩, some ⟨[], none⟩⟩
  | (e, .error err) => ⟨[], e.endExecution executor ⟨[], some err⟩, some ⟨[], some err⟩⟩

end Engine

namespace Stint

def EndsBefore (s t : Stint) : Prop :=
  ∃ finished started, s.job.completedAt = some finished ∧ t.job.startedAt = some started ∧
    finished.le started = true

def verdict (stints : List Stint) : Status :=
  if stints.all (·.result.isSuccess) then .completed else .failed

/-- The stints of a chain of jobs: one for each job, in their order, up to the first that fails. -/
inductive Follows : List Id → List Stint → Prop
  | last (ids : List Id) (s : Stint) (own : s.result.jobId = s.job.id)
      (ends : s.result.isSuccess = false ∨ ids = []) : Follows (s.job.id :: ids) [s]
  | more (ids : List Id) (s t : Stint) (stints : List Stint) (own : s.result.jobId = s.job.id)
      (success : s.result.isSuccess = true) (before : s.EndsBefore t)
      (follows : Follows ids (t :: stints)) : Follows (s.job.id :: ids) (s :: t :: stints)

namespace Follows

variable {ids : List Id} {stints : List Stint}

theorem nonempty (follows : Follows ids stints) : ∃ s rest, stints = s :: rest := by
  cases follows <;> exact ⟨_, _, rfl⟩

theorem executed (follows : Follows ids stints) : stints.map (·.job.id) <+: ids := by
  induction follows with
  | last ids s => exact (List.prefix_cons_inj _).mpr List.nil_prefix
  | more ids s t stints _ _ _ _ ih => exact (List.prefix_cons_inj _).mpr ih

theorem results (follows : Follows ids stints) : ∀ s ∈ stints, s.result.jobId = s.job.id := by
  induction follows with
  | last ids s own => simpa using own
  | more ids s t stints own _ _ _ ih =>
    rintro u (_ | ⟨_, behind⟩)
    · exact own
    · exact ih u behind

theorem succeeded (follows : Follows ids stints) :
    ∀ s ∈ stints.dropLast, s.result.isSuccess = true := by
  induction follows with
  | last => simp
  | more ids s t stints _ success _ _ ih =>
    rw [List.dropLast_cons_cons]
    rintro u (_ | ⟨_, behind⟩)
    · exact success
    · exact ih u behind

theorem stops (follows : Follows ids stints) :
    (∃ s, stints.getLast? = some s ∧ s.result.isSuccess = false) ∨ stints.length = ids.length := by
  induction follows with
  | last ids s _ ends =>
    rcases ends with failed | none_
    · exact Or.inl ⟨s, rfl, failed⟩
    · exact Or.inr (by simp [none_])
  | more ids s t stints _ _ _ _ ih =>
    rcases ih with ⟨u, last, failed⟩ | all
    · exact Or.inl ⟨u, by rw [List.getLast?_cons_cons, last], failed⟩
    · exact Or.inr (congrArg Nat.succ all)

theorem chained (follows : Follows ids stints) : stints.IsChain EndsBefore := by
  induction follows with
  | last ids s => exact .singleton s
  | more ids s t stints _ _ before _ ih => exact .cons_cons before ih

theorem length_le (follows : Follows ids stints) : stints.length ≤ ids.length := by
  simpa using follows.executed.length_le

theorem unexecuted (follows : Follows ids stints) (distinct : ids.Nodup) {id : Id}
    (behind : id ∈ ids.drop stints.length) : ∀ s ∈ stints, s.job.id ≠ id := by
  rintro s member rfl
  have taken := List.prefix_iff_eq_take.mp follows.executed
  rw [List.length_map] at taken
  have first : s.job.id ∈ ids.take stints.length := by
    rw [← taken]
    exact List.mem_map_of_mem member
  exact List.disjoint_take_drop distinct (Nat.le_refl _) first behind

end Follows

end Stint

/-! ### Executing what is stored -/

namespace Engine

variable {e : Engine} {x : Execution} {p : Pipeline}

private theorem startJob_stored {job : Job} (executor : Executor) (isSaved : Bool)
    (pipeline : Option Pipeline) (waiting : List Job) (previous : Option Json)
    (results : List JobResult) (open_ : e.store.isClosed = false)
    (stored : (e.store.jobs.get? job.id).isSome = true) : ∃ store,
    e.startJob executor isSaved pipeline (job :: waiting) previous results =
      (e.withStore store, .ok (some ((e.withStore store).runJob executor isSaved pipeline
        (job.markStarted e.now) waiting previous results))) ∧
      Store.Edited e.store store [job.markStarted e.now] [] := by
  unfold startJob
  dsimp only
  split
  next err failed =>
    have missing := Store.updateJob_error failed open_
    rw [show (job.markStarted e.now).id = job.id from rfl] at missing
    rw [missing] at stored
    cases stored
  next store updated => exact ⟨store, rfl, (Store.updateJob_ok updated).1⟩

private theorem concludeJob_stored (open_ : e.store.isClosed = false)
    (stored : (e.store.jobs.get? x.current.id).isSome = true) (whole : x.pipeline = some p)
    (found : (e.store.pipelines.get? p.id).isSome = true) (result : JobResult) :
    ∃ e' results k, e.concludeJob x result =
        (e', conclusion x (e.pipelineThen x result) result results (.ok ()) (.ok ())) ∧
      e'.now = e.now ∧
      Sends x.isSaved (e.pool.unsaved, x.results) (e'.pool.unsaved, results) [result] ∧
      k.id = x.current.id ∧ Store.Edited e.store e'.store [k]
        ((e.pipelineThen x result).toList.filter fun q => q.status.isTerminal) := by
  obtain ⟨store, feed, issued, unsaved, results, written, records, jobAnswer, pipelineAnswer,
    concludes, _, sends, edited, settled, settledPipeline⟩ := concludeJob_eq e x result
  have sameId : (markFinished x.current result e.now).id = x.current.id :=
    Job.id_of_origin (Job.origin_markFinished _ _ _)
  cases settled with
  | missing err absent =>
    have missing := absent open_
    rw [sameId] at missing
    rw [missing] at stored
    cases stored
  | stored k origin =>
    cases settledPipeline with
    | missing q err same absent =>
      have missing := absent open_
      rw [pipelineThen, whole] at same
      cases same
      rw [id_pipelineAfter] at missing
      rw [missing] at found
      cases found
    | stored =>
      exact ⟨_, results, k, concludes, rfl, sends, (Job.id_of_origin origin).trans sameId, edited⟩

end Engine

/-- What comes of executing what the execution `x` of the pipeline `id` has left. -/
structure Course.Completes (c : Course) (e : Engine) (x : Execution) (turns : List Turn)
    (id : Id) : Prop where
  fates : ∀ (i : Nat) (s : Stint), c.stints[i]? = some s → ∃ turn : Turn, turns[i]? = some turn ∧
    (s.result.isSuccess = true ↔ ∃ v, turn.fate = .answered (.value v))
  follows : Stint.Follows (x.current.id :: x.waiting.map (·.id)) c.stints
  first : ∀ s, c.stints.head? = some s → s.job.startedAt = x.current.startedAt
  ended : ∃ ended, c.ended = some ended ∧ ended.error = none ∧
    Engine.Sends x.isSaved (e.pool.unsaved, x.results) (c.engine.pool.unsaved, ended.results)
      (c.stints.map (·.result))
  others : ∀ jobId, (∀ s ∈ c.stints, s.job.id ≠ jobId) →
    c.engine.store.jobs.get? jobId = e.store.jobs.get? jobId
  status : ∃ row, c.engine.store.pipelines.get? id = some row ∧
    row.record.status = Stint.verdict c.stints

namespace Engine

variable {e : Engine} {x : Execution} {p : Pipeline} {turns : List Turn}

theorem Sends.trans {isSaved : Bool} {before between after : List JobResult × List JobResult}
    {sent sent' : List JobResult} (first : Sends isSaved before between sent)
    (second : Sends isSaved between after sent') : Sends isSaved before after (sent ++ sent') := by
  unfold Sends at *
  rw [second, first]
  cases isSaved <;> simp

private theorem status_pipelineAfter {result : JobResult} {isLast : Bool} {t : Instant}
    (ends : result.isSuccess = false ∨ isLast = true) :
    (pipelineAfter p result isLast t).status =
      if result.isSuccess then .completed else .failed := by
  unfold pipelineAfter
  cases success : result.isSuccess with
  | false => rfl
  | true =>
    rw [success] at ends
    rw [ends.resolve_left (by simp)]
    rfl

theorem startedAt_markFinished (job : Job) (result : JobResult) (t : Instant) :
    (markFinished job result t).startedAt = job.startedAt := by
  unfold markFinished
  split <;> rfl

theorem completedAt_markFinished (job : Job) (result : JobResult) (t : Instant) :
    (markFinished job result t).completedAt = some t := by
  unfold markFinished
  split <;> rfl

/-- The last job that is executed leaves the record of its pipeline with the verdict. -/
theorem completes_last {e' : Engine} {k : Job} {results : List JobResult} {result : JobResult}
    {t : Instant} {turn : Turn} (fate : turn.fate.result x = result) (whole : x.pipeline = some p)
    (found : (e.store.pipelines.get? p.id).isSome = true)
    (ends : result.isSuccess = false ∨ x.waiting = [])
    (sends : Sends x.isSaved (e.pool.unsaved, x.results) (e'.pool.unsaved, results) [result])
    (key : k.id = x.current.id) (edited : Store.Edited e.store e'.store [k]
      ((x.pipeline.map fun p => pipelineAfter p result x.waiting.isEmpty t).toList.filter
        fun q => q.status.isTerminal)) :
    Course.Completes ⟨[⟨markFinished x.current result t, result⟩],
      e'.endExecution x.executor ⟨results, none⟩, some ⟨results, none⟩⟩ e x (turn :: turns) p.id := by
  have sameId : (markFinished x.current result t).id = x.current.id :=
    Job.id_of_origin (Job.origin_markFinished _ _ _)
  have ends' : result.isSuccess = false ∨ x.waiting.isEmpty = true := by simpa using ends
  have own : result.jobId = x.current.id := fate ▸ Fate.jobId_result x turn.fate
  refine ⟨?_, ?_, ?_, ⟨_, rfl, rfl, ?_⟩, fun jobId others => ?_, ?_⟩
  · rintro (_ | i) s ⟨⟩
    exact ⟨turn, rfl, fate ▸ Fate.isSuccess_result x turn.fate⟩
  · rw [← sameId]
    exact .last _ ⟨markFinished x.current result t, result⟩ (own.trans sameId.symm)
      (by simpa using ends)
  · rintro s ⟨⟩
    exact startedAt_markFinished _ _ _
  · rw [pool_endExecution]
    exact sends
  · rw [store_endExecution]
    refine edited.get?_unwritten fun k' member => ?_
    rw [List.mem_singleton.mp member, key, ← sameId]
    exact others _ (List.mem_singleton_self _)
  · have terminal := isTerminal_pipelineAfter (p := p) (t := t) ends'
    simp only [whole, Option.map_some, Option.toList_some, terminal, List.filter_cons_of_pos,
      List.filter_nil] at edited
    obtain ⟨row, before⟩ := Option.isSome_iff_exists.mp found
    rw [store_endExecution, edited.pipelines, List.foldl_cons, List.foldl_nil,
      Store.get?_putRecord, id_pipelineAfter, if_pos rfl, before]
    refine ⟨_, rfl, ?_⟩
    rw [Stint.verdict, List.all_cons, List.all_nil, Bool.and_true]
    exact status_pipelineAfter ends'

/-- A job that succeeds comes before the course of the jobs behind it. -/
theorem completes_more {c : Course} {e' : Engine} {x' : Execution} {result : JobResult} {id : Id}
    {t started : Instant} {turn : Turn} (course : c.Completes e' x' turns id)
    (fate : turn.fate.result x = result)
    (same : x'.current.id :: x'.waiting.map (·.id) = x.waiting.map (·.id))
    (saved : x'.isSaved = x.isSaved) (success : result.isSuccess = true)
    (begins : x'.current.startedAt = some started)
    (before : t.le started = true)
    (sends : Sends x.isSaved (e.pool.unsaved, x.results) (e'.pool.unsaved, x'.results) [result])
    (others : ∀ jobId, jobId ≠ x.current.id → jobId ≠ x'.current.id →
      e'.store.jobs.get? jobId = e.store.jobs.get? jobId) :
    Course.Completes { c with stints := ⟨markFinished x.current result t, result⟩ :: c.stints }
      e x (turn :: turns) id := by
  have own : result.jobId = x.current.id := fate ▸ Fate.jobId_result x turn.fate
  have sameId : (markFinished x.current result t).id = x.current.id :=
    Job.id_of_origin (Job.origin_markFinished _ _ _)
  obtain ⟨fates, follows, first, ⟨ended, ends, noError, sends'⟩, others', row, found, status⟩ := course
  rw [saved] at sends'
  obtain ⟨s, stints, listed⟩ := follows.nonempty
  rw [listed] at follows
  have next : s.job.id = x'.current.id := (List.cons_prefix_cons.mp follows.executed).1
  rw [same] at follows
  refine ⟨?_, ?_, ?_, ⟨ended, ends, noError, sends.trans sends'⟩, fun jobId outside => ?_, row,
    found, ?_⟩
  · rintro (_ | i) u here
    · cases here
      exact ⟨turn, rfl, fate ▸ Fate.isSuccess_result x turn.fate⟩
    · exact fates i u here
  · rw [← sameId]
    dsimp only
    rw [listed]
    refine .more _ ⟨markFinished x.current result t, result⟩ s stints (own.trans sameId.symm)
      success ⟨t, started, completedAt_markFinished _ _ _, ?_, before⟩ follows
    exact (first s (by rw [listed]; rfl)).trans begins
  · rintro s' ⟨⟩
    exact startedAt_markFinished _ _ _
  · have later : ∀ u ∈ c.stints, u.job.id ≠ jobId := fun u member =>
      outside u (List.mem_cons_of_mem _ member)
    refine (others' jobId later).trans (others jobId ?_ ?_)
    · rw [← sameId]
      exact (outside _ List.mem_cons_self).symm
    · rw [← next]
      exact (later s (by rw [listed]; exact List.mem_cons_self)).symm
  · rw [status]
    simp [Stint.verdict, success]

private theorem runOut_completes (open_ : e.store.isClosed = false) (whole : x.pipeline = some p)
    (stored : ∀ j ∈ x.current :: x.waiting, (e.store.jobs.get? j.id).isSome = true)
    (found : (e.store.pipelines.get? p.id).isSome = true)
    (enough : x.waiting.length < turns.length) : (e.runOut x turns).Completes e x turns p.id := by
  induction turns generalizing e x with
  | nil => cases enough
  | cons turn turns ih =>
    obtain ⟨e₁, results, k, concludes, clock, sends, key, edited⟩ :=
      concludeJob_stored (e := e.advance turn.millis) open_ (stored x.current List.mem_cons_self)
        whole found (turn.fate.result x)
    unfold runOut
    dsimp only
    rw [concludes, conclusion_ok]
    by_cases goes : (turn.fate.result x).isSuccess = true ∧ x.waiting ≠ []
    · obtain ⟨success, more⟩ := goes
      obtain ⟨job, waiting, listed⟩ := List.exists_cons_of_ne_nil more
      have then_ : (e.advance turn.millis).pipelineThen x (turn.fate.result x) = some p := by
        simp [pipelineThen, whole, pipelineAfter, success, listed]
      obtain ⟨store, starts, edited'⟩ := startJob_stored (e := e₁.advance turn.pause) x.executor
        x.isSaved (some p) waiting (turn.fate.result x).metadata results
        (edited.closed.trans open_) (edited.isSome_jobs.trans (stored job (by simp [listed])))
      have stored' (j : Job) (member : j ∈ job.markStarted (e₁.advance turn.pause).now :: waiting) :
          (store.jobs.get? j.id).isSome = true := by
        refine edited'.isSome_jobs.trans (edited.isSome_jobs.trans ?_)
        rcases List.mem_cons.mp member with rfl | behind
        · exact stored job (by simp [listed])
        · exact stored j (by simp [listed, behind])
      have found' : (store.pipelines.get? p.id).isSome = true :=
        edited'.isSome_pipelines.trans (edited.isSome_pipelines.trans found)
      have course := ih (e := (e₁.advance turn.pause).withStore store)
        (x := ((e₁.advance turn.pause).withStore store).runJob x.executor x.isSaved (some p)
          (job.markStarted (e₁.advance turn.pause).now) waiting (turn.fate.result x).metadata results)
        (edited'.closed.trans (edited.closed.trans open_)) rfl stored' found'
        (by rw [listed] at enough; exact Nat.lt_of_succ_lt_succ enough)
      rw [if_pos (by simp [success, then_, listed]), then_, listed]
      unfold goOn
      dsimp only
      rw [starts]
      dsimp only
      refine completes_more course rfl (by rw [listed]; rfl) rfl success rfl ?_ sends
        fun jobId notThis notNext => ?_
      · rw [← clock]
        exact le_now_advance e₁ turn.pause
      · refine (edited'.get?_unwritten fun k' member => ?_).trans
          (edited.get?_unwritten fun k' member => ?_)
        · rw [List.mem_singleton.mp member]
          exact notNext.symm
        · rw [List.mem_singleton.mp member, key]
          exact notThis.symm
    · have ends : (turn.fate.result x).isSuccess = false ∨ x.waiting = [] := by
        by_contra neither
        simp only [not_or, Bool.not_eq_false] at neither
        exact goes neither
      have stops : ((turn.fate.result x).isSuccess &&
          ((e.advance turn.millis).pipelineThen x (turn.fate.result x)).isSome &&
          !x.waiting.isEmpty) = false := by
        rcases ends with failed | none_
        · simp [failed]
        · simp [none_]
      rw [stops, if_neg Bool.false_ne_true]
      exact completes_last rfl whole found ends sends key edited

private theorem beginWork_stored {job : Job} (executor : Executor) (isSaved : Bool)
    (waiting : List Job)
    (read : e.store.getPipeline p.id = .ok p)
    (stored : (e.store.jobs.get? job.id).isSome = true) : ∃ store,
    e.beginWork executor ⟨.pipeline p.id (job :: waiting), isSaved⟩ =
      (e.withStore store, .ok (some ((e.withStore store).runJob executor isSaved
        (some (p.markStarted e.now)) (job.markStarted e.now) waiting none []))) ∧
      Store.Edited e.store store [job.markStarted e.now] [p.markStarted e.now] := by
  have open_ := Store.isClosed_of_getPipeline read
  obtain ⟨row, found, _⟩ := Store.getPipeline_ok read
  unfold beginWork
  dsimp only
  rw [read]
  dsimp only
  split
  next err failed =>
    have missing := Store.updatePipeline_error failed open_
    rw [show (p.markStarted e.now).id = p.id from rfl, found] at missing
    cases missing
  next store marked =>
    have edited := (Store.updatePipeline_ok marked).1
    obtain ⟨store', starts, edited'⟩ := startJob_stored (e := e.withStore store) executor isSaved
      (some (p.markStarted e.now)) waiting none [] (edited.closed.trans open_)
      (edited.isSome_jobs.trans stored)
    exact ⟨store', starts, edited.trans edited'⟩

end Engine

/-- What comes of executing the work of the pipeline `id` with these jobs. -/
structure Course.Executes (c : Course) (e : Engine) (id : Id) (jobs : List Job) (isSaved : Bool)
    (turns : List Turn) : Prop where
  ended : ∃ ended, c.ended = some ended ∧ ended.error = none ∧
    Engine.Sends isSaved (e.pool.unsaved, []) (c.engine.pool.unsaved, ended.results)
      (c.stints.map (·.result))
  results : ∀ s ∈ c.stints, s.result.jobId = s.job.id
  executed : c.stints.map (·.job.id) <+: jobs.map (·.id)
  fates : ∀ (i : Nat) (s : Stint), c.stints[i]? = some s → ∃ turn : Turn, turns[i]? = some turn ∧
    (s.result.isSuccess = true ↔ ∃ v, turn.fate = .answered (.value v))
  succeeded : ∀ s ∈ c.stints.dropLast, s.result.isSuccess = true
  stops : (∃ s, c.stints.getLast? = some s ∧ s.result.isSuccess = false) ∨
    c.stints.length = jobs.length
  fits : c.stints.length ≤ (Work.pipeline id jobs).resultCapacity
  chained : c.stints.IsChain Stint.EndsBefore
  others : ∀ jobId, (∀ s ∈ c.stints, s.job.id ≠ jobId) →
    c.engine.store.jobs.get? jobId = e.store.jobs.get? jobId
  behind : (jobs.map (·.id)).Nodup → ∀ j ∈ jobs.drop c.stints.length,
    c.engine.store.jobs.get? j.id = e.store.jobs.get? j.id
  status : ∃ row, c.engine.store.pipelines.get? id = some row ∧
    row.record.status = Stint.verdict c.stints

namespace Engine

variable {e : Engine} {p : Pipeline} {turns : List Turn}

/-- However the jobs of a stored chain end, they are executed in order up to the first failure. -/
theorem carryOut_chain {jobs : List Job} (executor : Executor) (isSaved : Bool)
    (several : 2 ≤ jobs.length) (read : e.store.getPipeline p.id = .ok p)
    (stored : ∀ j ∈ jobs, (e.store.jobs.get? j.id).isSome = true)
    (each : turns.length = jobs.length) :
    (e.carryOut executor ⟨.pipeline p.id jobs, isSaved⟩ turns).Executes e p.id jobs isSaved
      turns := by
  obtain ⟨job, waiting, rfl⟩ := List.exists_cons_of_length_pos (Nat.lt_of_lt_of_le (by decide) several)
  obtain ⟨store, begins, edited⟩ :=
    beginWork_stored executor isSaved waiting read (stored job List.mem_cons_self)
  obtain ⟨row, known, _⟩ := Store.getPipeline_ok read
  have stored' (j : Job) (member : j ∈ job.markStarted e.now :: waiting) :
      (store.jobs.get? j.id).isSome = true := by
    refine edited.isSome_jobs.trans ?_
    rcases List.mem_cons.mp member with rfl | later
    · exact stored job List.mem_cons_self
    · exact stored j (List.mem_cons_of_mem _ later)
  have found : (store.pipelines.get? p.id).isSome = true :=
    edited.isSome_pipelines.trans (Option.isSome_iff_exists.mpr ⟨row, known⟩)
  have enough : waiting.length < turns.length := by
    rw [each]
    exact Nat.lt_succ_self _
  have course := runOut_completes (e := e.withStore store)
    (x := (e.withStore store).runJob executor isSaved (some (p.markStarted e.now))
      (job.markStarted e.now) waiting none [])
      (edited.closed.trans (Store.isClosed_of_getPipeline read))
    rfl stored' found enough
  unfold carryOut
  rw [begins]
  dsimp only
  generalize runOut _ _ turns = c at course
  have follows : Stint.Follows ((job :: waiting).map (·.id)) c.stints := course.follows
  have others (jobId : Id) (outside : ∀ s ∈ c.stints, s.job.id ≠ jobId) :
      c.engine.store.jobs.get? jobId = e.store.jobs.get? jobId := by
    refine (course.others jobId outside).trans (edited.get?_unwritten fun k member => ?_)
    obtain ⟨s, rest, listed⟩ := follows.nonempty
    have heads := follows.executed
    rw [listed, List.map_cons, List.map_cons] at heads
    rw [List.mem_singleton.mp member]
    exact (List.cons_prefix_cons.mp heads).1 ▸ outside s (by rw [listed]; exact List.mem_cons_self)
  have behind (distinct : ((job :: waiting).map (·.id)).Nodup) (j : Job)
      (member : j ∈ (job :: waiting).drop c.stints.length) :
      c.engine.store.jobs.get? j.id = e.store.jobs.get? j.id := by
    refine others j.id (follows.unexecuted distinct ?_)
    rw [← List.map_drop]
    exact List.mem_map_of_mem member
  have few : c.stints.length ≤ (job :: waiting).length := by
    simpa using follows.length_le
  exact {
    ended := course.ended
    results := follows.results
    executed := follows.executed
    fates := course.fates
    succeeded := follows.succeeded
    stops := follows.stops.imp id fun all => all.trans (List.length_map _)
    fits := Nat.le_trans few (Nat.le_max_left _ _)
    chained := follows.chained
    others := others
    behind := behind
    status := course.status }

def withReport : Engine := (System.start.perform (.createPipeline System.exampleRequest)).engine

/-- The first job answers null, the second does not answer in time. -/
theorem carryOut_report : ∃ p, withReport.store.getPipeline p.id = .ok p ∧ p.jobs.length = 2 ∧
    (withReport.carryOut .worker ⟨.pipeline p.id p.jobs, true⟩
      [⟨5, .answered (.value .null), 1⟩, ⟨300000, .overdue, 0⟩]).Executes withReport p.id p.jobs true
      [⟨5, .answered (.value .null), 1⟩, ⟨300000, .overdue, 0⟩] := by
  have reads : (withReport.store.getPipeline (.issued 0)).toOption.any (fun p =>
      p.id = .issued 0 ∧ p.jobs.length = 2 ∧
        ∀ j ∈ p.jobs, (withReport.store.jobs.get? j.id).isSome = true) = true := by
    decide +kernel
  obtain ⟨p, some_, holds⟩ := (Option.any_eq_true _ _).mp reads
  obtain ⟨key, two, stored⟩ := of_decide_eq_true holds
  have read : withReport.store.getPipeline p.id = .ok p := by
    rw [key]
    cases found : withReport.store.getPipeline (.issued 0) with
    | error err => rw [found] at some_; cases some_
    | ok q => rw [found] at some_; cases some_; rfl
  exact ⟨p, read, two, carryOut_chain .worker true (Nat.le_of_eq two.symm) read stored two.symm⟩

end Engine

namespace System

variable {e : Engine} {x : Execution} {turns : List Turn} {ended : Engine.Ended}

private theorem finish_addExecution (e : Engine) (x : Execution) (ticks : List Tick)
    (held : List Held)
    (fate : Fate) :
    System.finish ⟨e.addExecution x, ticks, held⟩ e.pool.executing.length (fate.result x) =
      match e.concludeJob x (fate.result x) with
      | (e, .inl i) => ⟨e, ticks, held ++ [.rest i]⟩
      | (e, .inr ended) => ⟨e.endExecution x.executor ended, ticks, held⟩ := by
  have last : (e.pool.executing ++ [x])[e.pool.executing.length]? = some x := by simp
  have rest : (e.pool.executing ++ [x]).eraseIdx e.pool.executing.length = e.pool.executing := by
    simp [List.eraseIdx_append_of_length_le]
  unfold finish
  dsimp only [Engine.addExecution]
  rw [last]
  dsimp only
  rw [rest]
  exact if_pos (Fate.jobId_result x fate)

private theorem proceed_last (e : Engine) (ticks : List Tick) (held : List Held) (h : Held) :
    System.proceed ⟨e, ticks, held ++ [h]⟩ held.length =
      match h with
      | .work h =>
        match e.beginWork .worker h with
        | (e, .ok (some x)) => ⟨e.addExecution x, ticks, held⟩
        | (e, _) => ⟨e, ticks, held⟩
      | .rest i =>
        match e.goOn i with
        | (e, .inl x) => ⟨e.addExecution x, ticks, held⟩
        | (e, .inr ended) => ⟨e.endExecution i.executor ended, ticks, held⟩ := by
  have last : (held ++ [h])[held.length]? = some h := by simp
  have rest : (held ++ [h]).eraseIdx held.length = held := by
    simp [List.eraseIdx_append_of_length_le]
  unfold proceed
  dsimp only
  rw [last, rest]
  cases h <;> rfl

private theorem run_runOut (ticks : List Tick) (held : List Held)
    (ends : (e.runOut x turns).ended = some ended) : ∃ actions,
      System.run ⟨e.addExecution x, ticks, held⟩ actions =
        ⟨(e.runOut x turns).engine, ticks, held⟩ := by
  induction turns generalizing e x with
  | nil => cases ends
  | cons turn turns ih =>
    have first : System.run ⟨e.addExecution x, ticks, held⟩
        [.advance turn.millis, .finish e.pool.executing.length (turn.fate.result x)] = _ :=
      finish_addExecution (e.advance turn.millis) x ticks held turn.fate
    unfold Engine.runOut at ends ⊢
    dsimp only at ends ⊢
    split at first
    next e₁ i concludes =>
      have second : System.run ⟨e₁, ticks, held ++ [.rest i]⟩
          [.advance turn.pause, .proceed held.length] = _ :=
        proceed_last (e₁.advance turn.pause) ticks held (.rest i)
      rw [concludes] at ends ⊢
      dsimp only at ends second ⊢
      split at second
      next e₂ x' starts =>
        rw [starts] at ends ⊢
        obtain ⟨actions, rest⟩ := ih ends
        exact ⟨_ ++ (_ ++ actions), by rw [run_append, first, run_append, second, rest]⟩
      next e₂ ended' lost =>
        rw [lost]
        exact ⟨_ ++ _, by rw [run_append, first, second]⟩
    next e₁ ended' concludes =>
      rw [concludes]
      exact ⟨_, first⟩

/-- The course of a work is a run in which nothing happens but that work, and time. -/
theorem run_carryOut {h : Handover} (ticks : List Tick) (held : List Held)
    (ends : (e.carryOut .worker h turns).ended = some ended) : ∃ actions,
      System.run ⟨e, ticks, held ++ [.work h]⟩ actions =
        ⟨(e.carryOut .worker h turns).engine, ticks, held⟩ := by
  have begins := proceed_last e ticks held (.work h)
  unfold Engine.carryOut at ends ⊢
  dsimp only at begins
  split at begins
  next e₁ x starts =>
    rw [starts] at ends ⊢
    obtain ⟨actions, rest⟩ := run_runOut ticks held ends
    exact ⟨.proceed held.length :: actions, by rw [run_cons, perform, begins, rest]⟩
  next e₁ answer lost starts =>
    refine ⟨[.proceed held.length], ?_⟩
    rw [run_cons, run_nil, perform, begins, starts]
    rcases answer with err | (_ | x)
    · rfl
    · rfl
    · exact absurd rfl (lost x)

end System

end Rota
