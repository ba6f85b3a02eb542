import Rota.Proofs.Accord
import Rota.Proofs.Script
/-! The script of a work.
Tasks and the clock are not part of it: an episode says what the task of a job answers and what the
clock says whenever it is read. A work that is executed without a break follows its script. -/
namespace Rota

/-- What comes from outside while a job is executed. -/
structure Episode where
  metadata : Option Json
  error : Option String
  /-- The clock when the job is marked as started, and its pipeline with the first one. -/
  started : Instant
  finished : Instant
  /-- The clock when the pipeline is marked as ended. -/
  judged : Instant
  recorded : Instant
  rearmed : Instant

def Episode.result (ep : Episode) (job : Job) : JobResult := ⟨job.id, ep.metadata, ep.error⟩

def Episode.still (result : JobResult) (now : Instant) : Episode :=
  ⟨result.metadata, result.error, now, now, now, now, now⟩

def Episode.before (ep : Episode) (eps : Nat → Episode) : Nat → Episode
  | 0 => ep
  | n + 1 => eps n

def Job.rearm (job : Job) (now : Instant) : Except ScheduleError Job := do
  match ← job.interval with
  | some interval => job.recycle interval now
  | none => .ok (job.reset none)

namespace Script

def sendIf (isSaved : Bool) (result : JobResult) (next : Script) : Script :=
  if isSaved then .send result next else next

def settleJob (ep : Episode) (job : Job) (next : Except StoreError Unit → Script) : Script :=
  if job.intervalEnabled then
    .access (.record job ep.recorded) fun _ =>
      match job.rearm ep.rearmed with
      | .error _ => .access (.updateJob (job.reset none)) next
      | .ok armed => .access (.updateJob armed) fun (answer : Except StoreError Unit) =>
        match answer with
        | .error _ => .access (.updateJob (job.reset none)) next
        | .ok () => next (.ok ())
  else .access (.updateJob job) next

def settlePipeline (p : Option Pipeline) (next : Except StoreError Unit → Script) : Script :=
  match p with
  | none => next (.ok ())
  | some p => if p.status.isTerminal then .access (.updatePipeline p) next else next (.ok ())

def conclude (isSaved : Bool) (ep : Episode) (p : Option Pipeline) (job : Job) (isLast : Bool)
    (next : Option Pipeline → Script) : Script :=
  let result := ep.result job
  let p := p.map fun p => Engine.pipelineAfter p result isLast ep.judged
  settleJob ep (Engine.markFinished job result ep.finished) fun settled =>
    settlePipeline p fun judged =>
      sendIf isSaved result <|
        match settled, judged with
        | .ok (), .ok () => if result.isSuccess && p.isSome then next p else .finished
        | _, _ => .finished

def runJobs (isSaved : Bool) (eps : Nat → Episode) (p : Option Pipeline) : List Job → Script
  | [] => .finished
  | job :: waiting =>
    let job := job.markStarted (eps 0).started
    .access (.updateJob job) fun started =>
      match started with
      | .error _ => .finished
      | .ok () => conclude isSaved (eps 0) p job waiting.isEmpty fun p =>
        runJobs isSaved (fun n => eps (n + 1)) p waiting

def ofWork (isSaved : Bool) (eps : Nat → Episode) : Work → Script
  | .task job => runJobs isSaved eps none [job]
  | .pipeline id jobs =>
    .access (.getPipeline id) fun (found : Except StoreError Pipeline) =>
      match found, jobs with
      | .ok p, _ :: _ =>
        let p := p.markStarted (eps 0).started
        .access (.updatePipeline p) fun (marked : Except StoreError Unit) =>
          match marked with
          | .error _ => .finished
          | .ok () => runJobs isSaved eps (some p) jobs
      | _, _ => .finished

/-- The storage behind a script that runs alone, and what it has sent. -/
def leaves (s : Storage) (script : Script) : Storage × List JobResult :=
  ((script.runOut s).storage, (script.runOut s).sent)

private theorem leaves_access (s : Storage) (a : Access) (next : a.Answer → Script) :
    (access a next).leaves s = (next (s.access a).2).leaves (s.access a).1 := rfl

private theorem leaves_sendIf (s : Storage) (isSaved : Bool) (result : JobResult) (next : Script) :
    (sendIf isSaved result next).leaves s = ((next.leaves s).1,
      (if isSaved then [result] else []) ++ (next.leaves s).2) := by
  cases isSaved <;> rfl

end Script

namespace Engine

open Script

variable {e : Engine} {ep : Episode} {job : Job} {x : Execution}
  {next : Except StoreError Unit → Script}

def storage (e : Engine) : Storage := ⟨e.store, e.issued⟩

/-- The clock says the same whenever it is read while a job is concluded. -/
structure Reads (e : Engine) (ep : Episode) : Prop where
  finished : ep.finished = e.now
  judged : ep.judged = e.now
  recorded : ep.recorded = e.now
  rearmed : ep.rearmed = e.now

private theorem announce_aside (e : Engine) (topic : String) (payload : Json) :
    (e.announce topic payload).storage = e.storage ∧ (e.announce topic payload).now = e.now := by
  obtain ⟨feed, announced⟩ := announce_eq e topic payload
  rw [announced]
  exact ⟨rfl, rfl⟩

private theorem recycleJob_rearm (s : Store) (job : Job) (now : Instant) : s.recycleJob job now =
    match job.rearm now with
    | .error err => .error (.schedule err)
    | .ok armed => match s.updateJob armed with
      | .error err => .error err
      | .ok s => .ok (s, armed) := by
  unfold Store.recycleJob Job.rearm
  cases job.interval with
  | error err => rfl
  | ok interval =>
    cases interval with
    | none =>
      cases h : s.updateJob (job.reset none) <;> simp [Except.mapError, bind, Except.bind, h]
    | some i =>
      cases h : job.recycle i now with
      | error err => simp [Except.mapError, bind, Except.bind, h]
      | ok armed =>
        cases h' : s.updateJob armed <;> simp [Except.mapError, bind, Except.bind, h, h']

private theorem access_updateJob (e : Engine) (job : Job) :
    e.storage.access (.updateJob job) = e.storage.write (e.store.updateJob job) := rfl

private theorem access_record (e : Engine) (job : Job) :
    (e.storage.access (.record job e.now)).1 = (e.recordTransaction job).storage := by
  have accesses : e.storage.access (.record job e.now) = { e.storage with
      issued := e.issued + 1 }.write
        (e.store.createTransaction (.ofJob (.issued e.issued) job e.now)) := rfl
  rw [accesses]
  unfold recordTransaction issueId
  dsimp only
  cases e.store.createTransaction (.ofJob (.issued e.issued) job e.now) with
  | error err => rfl
  | ok store =>
    dsimp only
    rw [(announce_aside _ _ _).1]
    rfl

private theorem leaves_parkJob (e : Engine) (job : Job) :
    (Script.access (.updateJob (job.reset none)) next).leaves e.storage =
      (next (e.parkJob job).2).leaves (e.parkJob job).1.storage := by
  rw [leaves_access, access_updateJob]
  unfold parkJob
  cases e.store.updateJob (job.reset none) <;> rfl

private theorem leaves_settleJob (reads : e.Reads ep) :
    (Script.settleJob ep job next).leaves e.storage =
    (next (e.settleJob job).2).leaves (e.settleJob job).1.storage := by
  unfold Script.settleJob Engine.settleJob
  split
  next recurs =>
    obtain ⟨storage, now⟩ := announce_aside e jobTopic (Job.layout.write job)
    have recorded := access_record (e.announce jobTopic (Job.layout.write job)) job
    obtain ⟨_, _, records, _⟩ :=
      recordTransaction_eq (e.announce jobTopic (Job.layout.write job)) job
    have now' := (congrArg Engine.now records).trans now
    rw [storage, now] at recorded
    rw [leaves_access, reads.recorded, reads.rearmed, recorded]
    dsimp only
    generalize (e.announce jobTopic (Job.layout.write job)).recordTransaction job = e' at now' ⊢
    rw [recycleJob_rearm, now']
    cases job.rearm e.now with
    | error err => exact leaves_parkJob e' job
    | ok armed =>
      dsimp only
      rw [leaves_access, access_updateJob]
      cases e'.store.updateJob armed with
      | error err => exact leaves_parkJob e' job
      | ok store => rfl
  next once =>
    rw [leaves_access, access_updateJob]
    cases e.store.updateJob job <;> rfl

private theorem leaves_settlePipeline (e : Engine) (p : Option Pipeline) :
    (Script.settlePipeline p next).leaves e.storage =
      (next (e.settlePipeline p).2).leaves (e.settlePipeline p).1.storage := by
  unfold Script.settlePipeline Engine.settlePipeline
  cases p with
  | none => rfl
  | some p =>
    dsimp only
    split
    next =>
      have accesses : e.storage.access (.updatePipeline p) =
        e.storage.write (e.store.updatePipeline p) := rfl
      rw [leaves_access, accesses]
      cases e.store.updatePipeline p <;> rfl
    next => rfl

def thenScript (then_ : Option Pipeline → Script) : Interlude ⊕ Ended → Script
  | .inl i => then_ i.pipeline
  | .inr _ => .finished

private theorem thenScript_conclusion (then_ : Option Pipeline → Script) (p : Option Pipeline)
    (result : JobResult) (results : List JobResult) (settled judged : Except StoreError Unit)
    (last : x.waiting = [] → ∀ p, then_ p = .finished) :
    (match settled, judged with
      | .ok (), .ok () => if result.isSuccess && p.isSome then then_ p else .finished
      | _, _ => .finished) =
    thenScript then_ (conclusion x p result results settled judged) := by
  cases settled with
  | error err => rfl
  | ok _ =>
    cases judged with
    | error err => rfl
    | ok _ =>
      dsimp only [conclusion]
      cases waiting : x.waiting with
      | nil =>
        rw [last waiting]
        simp [thenScript]
      | cons job rest =>
        simp only [List.isEmpty_cons, Bool.not_false, Bool.and_true]
        split <;> rfl

private theorem leaves_conclude (reads : e.Reads ep) (then_ : Option Pipeline → Script)
    (last : x.waiting = [] → ∀ p, then_ p = .finished) :
    (Script.conclude x.isSaved ep x.pipeline x.current x.waiting.isEmpty then_).leaves e.storage =
      (Script.sendIf x.isSaved (ep.result x.current)
        (thenScript then_ (e.concludeJob x (ep.result x.current)).2)).leaves
          (e.concludeJob x (ep.result x.current)).1.storage := by
  unfold Script.conclude concludeJob
  dsimp only
  rw [reads.finished, reads.judged, leaves_settleJob reads, leaves_settlePipeline]
  generalize ep.result x.current = result
  generalize e.settleJob (markFinished x.current result e.now) = settled
  obtain ⟨e₁, answer⟩ := settled
  dsimp only
  generalize x.pipeline.map (fun p => pipelineAfter p result x.waiting.isEmpty e.now) = p
  generalize e₁.settlePipeline p = judged
  obtain ⟨e₂, answer'⟩ := judged
  dsimp only
  obtain ⟨_, _, sends, _⟩ := sendResult_eq e₂ x result
  rw [sends, thenScript_conclusion then_ p result _ answer answer' last]
  rfl

def scriptOf (ep : Episode) (eps : Nat → Episode) (x : Execution) : Script :=
  Script.conclude x.isSaved ep x.pipeline x.current x.waiting.isEmpty fun p =>
    Script.runJobs x.isSaved eps p x.waiting

private theorem leaves_startJob (e : Engine) (executor : Executor) (isSaved : Bool)
    (p : Option Pipeline)
    {jobs : List Job} (some_ : jobs ≠ []) (previous : Option Json) (results : List JobResult)
    (ep : Episode) (eps : Nat → Episode) :
    (Script.runJobs isSaved ({ ep with started := e.now }.before eps) p jobs).leaves e.storage =
      match e.startJob executor isSaved p jobs previous results with
      | (e', .ok (some x)) => (scriptOf ep eps x).leaves e'.storage
      | (e', _) => (e'.storage, []) := by
  cases jobs with
  | nil => exact absurd rfl some_
  | cons job waiting =>
    unfold Script.runJobs startJob
    rw [leaves_access, access_updateJob]
    dsimp only [Episode.before]
    cases e.store.updateJob (job.markStarted e.now) <;> rfl

private theorem leaves_goOn (e : Engine) (i : Interlude) (some_ : i.jobs ≠ []) (ep : Episode)
    (eps : Nat → Episode) :
    (Script.runJobs i.isSaved ({ ep with started := e.now }.before eps) i.pipeline i.jobs).leaves
        e.storage =
      match e.goOn i with
      | (e', .inl x) => (scriptOf ep eps x).leaves e'.storage
      | (e', .inr _) => (e'.storage, []) := by
  rw [leaves_startJob e i.executor i.isSaved i.pipeline some_ i.previous i.results]
  unfold goOn
  generalize e.startJob i.executor i.isSaved i.pipeline i.jobs i.previous i.results = started
  obtain ⟨e', _ | _ | x⟩ := started <;> rfl

private theorem leaves_beginWork (e : Engine) (executor : Executor) (h : Handover)
    (some_ : h.work.jobs ≠ []) (ep : Episode) (eps : Nat → Episode) :
    (Script.ofWork h.isSaved ({ ep with started := e.now }.before eps) h.work).leaves e.storage =
      match e.beginWork executor h with
      | (e', .ok (some x)) => (scriptOf ep eps x).leaves e'.storage
      | (e', _) => (e'.storage, []) := by
  obtain ⟨work, isSaved⟩ := h
  cases work with
  | task job => exact leaves_startJob e executor isSaved none some_ none [] ep eps
  | pipeline id jobs =>
    unfold Script.ofWork beginWork
    dsimp only
    have read : e.storage.access (.getPipeline id) = (e.storage, e.store.getPipeline id) := rfl
    rw [leaves_access, read]
    cases e.store.getPipeline id with
    | error err => rfl
    | ok p =>
      cases jobs with
      | nil => exact absurd rfl some_
      | cons job waiting =>
        have marked : e.storage.access (.updatePipeline (p.markStarted e.now)) =
          e.storage.write (e.store.updatePipeline (p.markStarted e.now)) := rfl
        dsimp only [Episode.before]
        rw [leaves_access, marked]
        cases e.store.updatePipeline (p.markStarted e.now) with
        | error err => rfl
        | ok store =>
          exact leaves_startJob (e.withStore store) executor isSaved _ some_ none [] ep eps

private theorem concludeJob_goes {e' : Engine} {r : JobResult} {i : Interlude}
    (done : e.concludeJob x r = (e', .inl i)) :
    i.isSaved = x.isSaved ∧ i.jobs = x.waiting ∧ i.jobs ≠ [] := by
  obtain ⟨_, _, _, _, _, _, _, _, _, concludes, _⟩ := concludeJob_eq e x r
  rw [done] at concludes
  have goes := (Prod.mk.inj concludes).2
  unfold conclusion at goes
  split at goes
  next => cases goes
  next => cases goes
  next =>
    split at goes
    next more =>
      cases goes
      exact ⟨rfl, rfl, by simpa using (Bool.and_eq_true_iff.mp more).2⟩
    next => cases goes

/-- A started job is concluded, and then the other jobs are executed. -/
theorem leaves_scriptOf (e : Engine) (x : Execution) {r : JobResult}
    (own : r.jobId = x.current.id) (eps : Nat → Episode) :
    (scriptOf (.still r e.now) eps x).leaves e.storage =
      match e.concludeJob x r with
      | (e', .inl i) =>
        let left := (Script.runJobs i.isSaved eps i.pipeline i.jobs).leaves e'.storage
        (left.1, (if x.isSaved then [r] else []) ++ left.2)
      | (e', .inr _) => (e'.storage, if x.isSaved then [r] else []) := by
  have answer : (Episode.still r e.now).result x.current = r := by
    rw [Episode.result, ← own]
    rfl
  unfold scriptOf
  rw [leaves_conclude ⟨rfl, rfl, rfl, rfl⟩ _ fun none_ _ => by rw [none_]; rfl, answer,
    leaves_sendIf]
  cases concluded : e.concludeJob x r with
  | mk e' after =>
    cases after with
    | inr ended => simp [thenScript, Script.leaves, Script.runOut]
    | inl i =>
      obtain ⟨isSaved, jobs, _⟩ := concludeJob_goes concluded
      dsimp only
      rw [isSaved, jobs]
      rfl

/-! ### Courses -/

/-- A course follows a script if it leaves what the script does. -/
structure Followed (e : Engine) (course : Course) (left : Storage × List JobResult) : Prop where
  storage : course.engine.storage = left.1
  unsaved : course.engine.pool.unsaved = e.pool.unsaved ++ left.2

variable {e' : Engine} {turns : List Turn} {course : Course} {left : Storage × List JobResult}

/-- What is sent before the course comes before what the course sends. -/
theorem Followed.behind {sent : List JobResult} (followed : e'.Followed course left)
    (unsaved : e'.pool.unsaved = e.pool.unsaved ++ sent) :
    e.Followed course (left.1, sent ++ left.2) where
  storage := followed.storage
  unsaved := by rw [followed.unsaved, unsaved, List.append_assoc]

private theorem followed_end (e : Engine) (stints : List Stint) (executor : Executor)
    (outcome : Ended) :
    e.Followed ⟨stints, e.endExecution executor outcome, some outcome⟩ (e.storage, []) where
  storage := by cases executor <;> rfl
  unsaved := by rw [pool_endExecution, List.append_nil]

private theorem runOut_followed (ended : (e.runOut x turns).ended.isSome = true) :
    ∃ ep eps, e.Followed (e.runOut x turns) ((scriptOf ep eps x).leaves e.storage) := by
  induction turns generalizing e x with
  | nil => cases ended
  | cons turn turns ih =>
    let ep : Episode := .still (turn.fate.result x) (e.advance turn.millis).now
    have left (eps : Nat → Episode) : (scriptOf ep eps x).leaves e.storage = _ :=
      leaves_scriptOf (e.advance turn.millis) x (Fate.jobId_result x turn.fate) eps
    have sent := unsaved_concludeJob (e.advance turn.millis) x (turn.fate.result x)
    unfold runOut at ended ⊢
    dsimp only at ended ⊢
    cases concluded : (e.advance turn.millis).concludeJob x (turn.fate.result x) with
    | mk e₁ after =>
      rw [concluded] at ended left sent
      cases after with
      | inr outcome =>
        refine ⟨ep, fun _ => ep, ?_⟩
        rw [left, ← List.append_nil (if x.isSaved then _ else _)]
        exact (followed_end e₁ _ _ outcome).behind sent
      | inl i =>
        obtain ⟨_, _, some_⟩ := concludeJob_goes concluded
        have goes (ep : Episode) (eps : Nat → Episode) :
            (Script.runJobs i.isSaved _ i.pipeline i.jobs).leaves e₁.storage = _ :=
          leaves_goOn (e₁.advance turn.pause) i some_ ep eps
        have same := pool_goOn (e₁.advance turn.pause) i
        dsimp only at ended left ⊢
        cases went : (e₁.advance turn.pause).goOn i with
        | mk e₂ next =>
          rw [went] at ended goes same
          have sent' := (congrArg Pool.unsaved same).trans sent
          cases next with
          | inr outcome =>
            refine ⟨ep, { ep with started := (e₁.advance turn.pause).now }.before fun _ => ep, ?_⟩
            rw [left, goes]
            exact (followed_end e₂ _ _ outcome).behind sent'
          | inl y =>
            obtain ⟨ep', eps, followed⟩ := ih ended
            refine ⟨ep, { ep' with started := (e₁.advance turn.pause).now }.before eps, ?_⟩
            rw [left, goes]
            obtain ⟨storage, unsaved⟩ := followed.behind sent'
            exact ⟨storage, unsaved⟩

/-- Whatever the tasks answer, a work that is executed without a break follows its script. -/
theorem carryOut_followed (executor : Executor) {h : Handover} (some_ : h.work.jobs ≠ [])
    (ended : (e.carryOut executor h turns).ended.isSome = true) : ∃ eps,
    e.Followed (e.carryOut executor h turns)
      ((Script.ofWork h.isSaved eps h.work).leaves e.storage) := by
  have begins := leaves_beginWork e executor h some_
  have same := pool_beginWork e executor h
  unfold carryOut at ended ⊢
  generalize e.beginWork executor h = begun at begins same ended ⊢
  obtain ⟨e', answer⟩ := begun
  have sent : e'.pool.unsaved = e.pool.unsaved ++ [] :=
    (congrArg Pool.unsaved same).trans (List.append_nil _).symm
  let idle : Episode := .still ⟨.issued 0, none, none⟩ e.now
  obtain err | _ | x := answer
  · refine ⟨{ idle with started := e.now }.before fun _ => idle, ?_⟩
    rw [begins]
    exact (followed_end e' _ _ _).behind sent
  · refine ⟨{ idle with started := e.now }.before fun _ => idle, ?_⟩
    rw [begins]
    exact (followed_end e' _ _ _).behind sent
  · obtain ⟨ep, eps, followed⟩ := runOut_followed ended
    refine ⟨{ ep with started := e.now }.before eps, ?_⟩
    rw [begins]
    exact followed.behind sent

end Engine

end Rota
