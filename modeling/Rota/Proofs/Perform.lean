import Rota.Proofs.Step
/-! Every action is a step.
A sound system takes only the steps that `Step` lists. Each operation is taken apart once here,
with all the ways in which it can stop. -/
namespace Rota

/-- A submission leaves the store consistent, and copies of jobs good. -/
theorem Engine.Submitted.keeps {e e' : Engine} {job : Job} {submission : Submission}
    (submitted : e.Submitted job e' submission)
    (consistent : e.store.Consistent e.issued) (copy : e.store.IsCopy e.issued job) :
    e'.store.Consistent e'.issued ∧ Store.Descends e.issued e.store e'.store ∧
      e'.issued = e.issued ∧ e'.now = e.now := by
  have written {store : Store} {jobs : List Job} {records : List Pipeline}
      (edited : Store.Edited e.store store jobs records)
      (copies : ∀ k ∈ jobs, e.store.IsCopy e.issued k) :
      store.Consistent e.issued ∧ Store.Descends e.issued e.store store :=
    ⟨edited.consistent copies consistent, edited.descends copies⟩
  cases submitted with
  | unsent => exact ⟨consistent, .refl _ _, rfl, rfl⟩
  | rearmed id p store jobs records _ _ read _ edited pendingJobs =>
    obtain ⟨row, loaded⟩ := consistent.loaded read
    obtain ⟨after, older⟩ := written edited fun k member => by
      obtain ⟨_, d, inside, origin, _⟩ := pendingJobs k member
      exact (loaded.copies d inside).1.of_origin origin
    exact ⟨after, older, rfl, rfl⟩
  | refused _ store _ undone _ edited back =>
    obtain ⟨after, older⟩ := written edited fun k member => by
      rcases List.mem_cons.mp member with rfl | behind
      · exact copy.of_origin rfl
      · rcases back with rfl | ⟨rfl, _⟩
        · cases List.mem_singleton.mp behind
          exact copy.of_origin rfl
        · cases behind
    exact ⟨after, older, rfl, rfl⟩
  | sent _ _ store _ _ _ _ _ edited =>
    obtain ⟨after, older⟩ := written edited fun k member => by
      cases List.mem_singleton.mp member
      exact copy.of_origin rfl
    exact ⟨after, older, rfl, rfl⟩

namespace System

variable {s : System} {a : Action}

theorem Step.refl (s : System) : Step s a s :=
  .quiet rfl rfl id (Nat.le_refl _) ⟨[], .refl _⟩ ⟨[], .refl _⟩ (.refl _)

/-- A step that leaves jobs, pipelines, ticks, queue and flights alone. -/
theorem Step.of_engine {e : Engine} (store : e.store = s.engine.store)
    (issued : e.issued = s.engine.issued) (queue : e.queue.jobs = s.engine.queue.jobs)
    (pool : e.pool.flights = s.engine.pool.flights) : Step s a (s.withEngine e) := by
  refine .quiet (congrArg _ store) (congrArg _ store) (fun closed => ?_)
    (Nat.le_of_eq issued.symm) ⟨[], .refl _⟩ ⟨[], ?_⟩ ?_
  · exact (congrArg Store.isClosed store).trans closed
  · unfold called withEngine
    rw [queue]
    exact .refl _
  · unfold System.flights withEngine
    rw [pool]

/-! ### Admission -/

private theorem issued_enqueueNew {e e' : Engine} {j : Job} {drop : Store → Except StoreError Store}
    {answer : Except AdmissionError Unit} (done : e.enqueueNew j drop = (e', answer)) :
    e'.issued = e.issued := by
  rcases Engine.enqueueNew_cases done with ⟨_, rfl, _⟩ | ⟨_, _, rfl⟩ | rfl <;> rfl

theorem issued_createJob (e : Engine) (r : CreateJob) :
    (e.createJob r).1.issued = e.issued + 1 := by
  unfold Engine.createJob Engine.issueId
  dsimp only
  split
  next => rfl
  next =>
    split
    next =>
      split <;>
        next enqueued => exact issued_enqueueNew enqueued
    next => rfl

theorem issued_createPipeline (e : Engine) (r : CreatePipeline) :
    (e.createPipeline r).1.issued = e.issued + r.jobs.length + 1 := by
  unfold Engine.createPipeline
  dsimp only
  split
  next => rfl
  next =>
    split
    next =>
      split <;>
        next enqueued => exact issued_enqueueNew enqueued
    next => rfl

private theorem createJob_step (sound : s.Sound) (r : CreateJob)
    (distinct : Id.Distinct (s.engine.createJob r).1.issued) :
    Step s a (s.withEngine (s.engine.createJob r).1) := by
  have more : s.engine.issued < (s.engine.createJob r).1.issued := by
    rw [issued_createJob]
    exact Nat.lt_succ_self _
  have fresh := distinct.fresh (Nat.le_refl s.engine.issued) more
  have managed : s.engine.Managed (s.engine.createJob r).1 :=
    Engine.createJob_managed rfl (sound.consistent.absent fresh).1
  exact .managed managed rfl rfl (managed.change.told distinct more)

private theorem createPipeline_step (sound : s.Sound) (r : CreatePipeline)
    (short : r.jobs.length < 4294967296)
    (distinct : Id.Distinct (s.engine.createPipeline r).1.issued) :
    Step s a (s.withEngine (s.engine.createPipeline r).1) := by
  have more := issued_createPipeline s.engine r
  have absent (n : Nat) (le : s.engine.issued ≤ n)
      (lt : n < s.engine.issued + r.jobs.length + 1) :=
    sound.consistent.absent (distinct.fresh le (more ▸ lt))
  have managed : s.engine.Managed (s.engine.createPipeline r).1 :=
    Engine.createPipeline_managed rfl short (fun i lt => (absent _ (by omega) (by omega)).1)
      (absent _ (Nat.le_refl _) (by omega)).2
  exact .managed managed rfl rfl (managed.change.told distinct (by omega))

/-! ### Ticks -/

private theorem scan_step (s : System) : Step s .scan s.scan := by
  unfold scan
  split
  next due read =>
    refine .scanned due rfl read rfl ?_ ?_ rfl
    · simp [scanned, Tick.allDue]
    · simp [called, Tick.allDue]
  next => exact .refl s

private theorem look_step (s : System) : Step s a s.look := by
  unfold look
  split
  next => exact .refl s
  next queued queue popped =>
    have taken : s.engine.queue.jobs = queued :: queue.jobs := by
      unfold JobQueue.pop at popped
      split at popped
      next => cases popped
      next =>
        split at popped
        next => cases popped
        next here =>
          cases popped
          exact here
    split
    next job read =>
      refine .looked queued job read rfl rfl ?_ ?_ rfl
      · simp [scanned, Tick.allDue]
      · refine ⟨queue.jobs ++ Tick.allDue false s.ticks, ?_, ?_⟩
        · simp [called, taken]
        · rw [called, Tick.allDue_append, ← List.append_assoc]
          exact List.perm_append_singleton _ _
    next =>
      refine .quiet rfl rfl id (Nat.le_refl _) ⟨[], .refl _⟩ ⟨[queued], ?_⟩ (.refl _)
      simp [called, withEngine, taken]

/-- A submission takes the job from the ones that its tick has still to submit; if the tick is gone
then, it takes them all. -/
theorem taken_afterSubmission {place : Nat} {isScan : Bool} {job : Job} {rest : List Job}
    {ticket : Option Nat} (here : s.ticks[place]? = some ⟨isScan, job :: rest, ticket⟩)
    {e : Engine} (queue : e.queue = s.engine.queue) (submission : Submission) :
    Taken s ⟨e, afterSubmission s.ticks place isScan rest submission, s.held⟩ job := by
  have before (kind : Bool) := Tick.allDue_perm kind (perm_eraseIdx here)
  have after : ∃ gone, (Tick.allDue isScan s.ticks).Perm (job :: gone ++
        Tick.allDue isScan (afterSubmission s.ticks place isScan rest submission)) ∧
      (Tick.allDue (!isScan) (afterSubmission s.ticks place isScan rest submission)).Perm
        (Tick.allDue (!isScan) s.ticks) := by
    have own := before isScan
    have other := before (!isScan)
    rw [Tick.allDue_cons, if_pos rfl] at own
    rw [Tick.allDue_cons, if_neg (by simp)] at other
    have stays (ticket' : Option Nat) (kind : Bool) := Tick.allDue_perm kind
      (List.set_perm_cons_eraseIdx (List.getElem?_eq_some_iff.mp here).1 ⟨isScan, rest, ticket'⟩)
    have set (ticket' : Option Nat) : ∃ gone, (Tick.allDue isScan s.ticks).Perm (job :: gone ++
          Tick.allDue isScan (s.ticks.set place ⟨isScan, rest, ticket'⟩)) ∧
        (Tick.allDue (!isScan) (s.ticks.set place ⟨isScan, rest, ticket'⟩)).Perm
          (Tick.allDue (!isScan) s.ticks) := by
      have own' := stays ticket' isScan
      have other' := stays ticket' (!isScan)
      rw [Tick.allDue_cons, if_pos rfl] at own'
      rw [Tick.allDue_cons, if_neg (by simp)] at other'
      exact ⟨[], own.trans (own'.symm.cons job), other'.trans other.symm⟩
    unfold afterSubmission
    split
    next => exact ⟨rest, own, other.symm⟩
    next => exact set _
    next => exact set _
  obtain ⟨gone, own, other⟩ := after
  unfold Taken scanned called
  rw [queue]
  cases isScan with
  | true => exact Or.inl ⟨⟨gone, own⟩, other.append_left _⟩
  | false => exact Or.inr ⟨other, gone, (own.append_left _).trans (List.perm_append_comm_assoc _ _ _)⟩

/-- The work that a submission sends carries copies of its pipeline's jobs. -/
theorem carries_sent {e e' : Engine} {job : Job} {c : Chain} {w : Work}
    (consistent : e.store.Consistent e.issued) (copy : e.store.IsCopy e.issued job)
    (resolved : e.Resolved job e' (.run c))
    (made : Work.ofChain (c.withHead (job.markScheduled e.now)) = .ok w) :
    (∃ rest, w.jobs = job.markScheduled e.now :: rest ∧
        ∀ d ∈ rest, ∃ id, e.store.getJob id = .ok d) ∧
      w.pipelineId? = job.pipelineId ∧ e.Carries ⟨.waiting, w.pipelineId?, none, w.jobs⟩ := by
  obtain ⟨jobs, owner⟩ := Work.ofChain_ok made
  rw [Chain.head_withHead] at owner
  rw [Chain.toList_withHead] at jobs owner
  have head : e.store.IsCopy e.issued (job.markScheduled e.now) :=
    copy.of_origin (Job.origin_markScheduled job e.now)
  cases resolved.runsThrough with
  | alone standalone =>
    have single : w.pipelineId? = none := by
      rcases owner with ⟨none_, _⟩ | ⟨id, _, owned, _⟩
      · exact none_
      · rw [show (job.markScheduled e.now).pipelineId = none from standalone] at owned
        cases owned
    refine ⟨⟨_, jobs, by simp [Chain.toList]⟩, single.trans standalone.symm,
      ⟨by simp [jobs], fun d member => ?_, by simp, ?_⟩⟩
    · rw [jobs] at member
      simp only [Chain.toList, List.tail_cons, List.mem_singleton] at member
      subst member
      exact ⟨head, standalone.trans single.symm⟩
    · rw [single]
      simp
  | whole id p chain _ owned read _ _ _ loaded covers linked =>
    obtain ⟨row, reads⟩ := consistent.loaded read
    have several := (consistent.linked.inPlace id row reads.found).several
    have toList := Chain.toList_ofList linked
    obtain ⟨rest, rfl⟩ := Engine.loadChain_cons loaded
    have whole : w.pipelineId? = some id := by
      rcases owner with ⟨_, single⟩ | ⟨id', found, owned', _⟩
      · have short := congrArg List.length single
        rw [toList, List.tail_cons] at short
        rw [reads.length_jobs] at covers
        simp only [List.length_cons, List.length_nil] at short covers
        omega
      · rw [found, ← owned', show (job.markScheduled e.now).pipelineId = some id from owned]
    have copies := Engine.loadChain_copies consistent copy owned (by simp [reads.found]) loaded
    refine ⟨⟨rest, by rw [jobs, toList, List.tail_cons], Engine.loadChain_read loaded⟩,
      whole.trans owned.symm, ⟨by simp [jobs], fun d member => ?_, by simp, ?_⟩⟩
    · rw [jobs, toList, List.tail_cons] at member
      rw [whole]
      rcases List.mem_cons.mp member with rfl | behind
      · exact ⟨head, owned⟩
      · exact copies d (List.mem_cons_of_mem _ behind)
    · rw [whole]
      rintro id' same
      cases same
      exact reads.shallow

private theorem isIdle_of_resolved {e' : Engine} {job : Job} {c : Chain}
    (consistent : s.engine.store.Consistent s.engine.issued)
    (resolved : s.engine.Resolved job e' (.run c)) : s.IsIdle job := by
  intro id owner
  obtain ⟨p, read, first, idle, _⟩ := resolved.idle owner
  obtain ⟨row, loaded⟩ := consistent.loaded read
  exact ⟨row, loaded.found, loaded.headId.symm.trans first, loaded.status ▸ idle⟩

private theorem submitNext_step (sound : s.Sound) (place : Nat) :
    Step s (.submit place) (s.submitNext place) := by
  unfold submitNext
  split
  next isScan job rest ticket here =>
    split
    next => exact .refl s
    next =>
      dsimp only
      cases done : s.engine.submit job with
      | mk e submission =>
        have submitted := Engine.submit_submitted done
        have copy : s.engine.store.IsCopy s.engine.issued job :=
          sound.copies job (taken_afterSubmission here rfl submission).mem
        have asked : ∃ place', Action.submit place = .submit place' ∧ s.next? place' = some job :=
          ⟨place, rfl, by simp [next?, here]⟩
        cases submitted with
        | unsent =>
          have gone := (taken_afterSubmission here rfl submission).gone
          exact .quiet rfl rfl id (Nat.le_refl _) gone.1 gone.2 (.refl _)
        | rearmed id p store jobs records _ owner read holds edited pendingJobs pendingRecords =>
          obtain ⟨row, reads⟩ := sound.consistent.loaded read
          have copies (k : Job) (member : k ∈ jobs) :
              s.engine.store.IsCopy s.engine.issued k ∧ k.pipelineId = some id := by
            obtain ⟨_, d, inside, origin, _⟩ := pendingJobs k member
            obtain ⟨copy, owned⟩ := reads.copies d inside
            exact ⟨copy.of_origin origin, (Job.pipelineId_of_origin origin).trans owned⟩
          refine .rearmed job id p jobs records (taken_afterSubmission here rfl submission) owner read
            holds ⟨edited, fun k member => (copies k member).1, Nat.le_refl _⟩
            (fun k member => ⟨(pendingJobs k member).1, (copies k member).2⟩) (fun q member => ?_)
            asked rfl (fun k member => (pendingJobs k member).2)
            fun q member => (pendingRecords q member).2.2
          obtain ⟨same, pending, _⟩ := pendingRecords q member
          exact ⟨same.trans reads.key, pending⟩
        | refused _ store _ undone resolved edited back =>
          have own (k : Job) (member : k ∈ job.markScheduled s.engine.now :: undone) :
              k.origin = job.origin ∧ k.details = job.details := by
            rcases List.mem_cons.mp member with rfl | behind
            · exact ⟨rfl, rfl⟩
            · rcases back with rfl | ⟨rfl, _⟩
              · cases List.mem_singleton.mp behind
                exact ⟨rfl, rfl⟩
              · cases behind
          refine .refused job _ (taken_afterSubmission here rfl submission)
            ⟨edited, fun k member => copy.of_origin (own k member).1, Nat.le_refl _⟩
            (fun k member => (own k member).1) (isIdle_of_resolved sound.consistent resolved)
            (fun open_ j stored => ?_) rfl (fun k member => (own k member).2) asked
          rcases back with rfl | ⟨rfl, missing⟩
          · have last : store.jobs.get? job.id =
                some (job.markScheduled s.engine.now).markPending := by
              rw [edited.jobs]
              exact Table.get?_put_self _ _ _
            cases last.symm.trans stored
            rfl
          · have known := edited.known _ (List.mem_singleton_self _)
            rw [show (job.markScheduled s.engine.now).id = job.id from rfl, missing open_] at known
            cases known
        | sent c w store pool answer _ resolved made edited sends accepted =>
          obtain ⟨⟨rest', jobs, read⟩, owner, carried⟩ :=
            carries_sent sound.consistent copy resolved made
          refine .sent job _ rest' (taken_afterSubmission here rfl submission)
            ⟨edited, fun k member => ?_, Nat.le_refl _⟩ rfl jobs rfl owner carried
            (isIdle_of_resolved sound.consistent resolved) ?_ read asked
          · cases List.mem_singleton.mp member
            exact copy.of_origin (Job.origin_markScheduled job _)
          · exact (Pool.flights_send sends accepted).append_right _
  next => exact .refl s

private theorem abandon_step (s : System) (place : Nat) :
    Step s (.abandon place) (s.abandon place) := by
  unfold abandon
  split
  next isScan due ticket here =>
    split
    next =>
      obtain ⟨gone, flights⟩ := Pool.flights_abandon s.engine.pool ticket
      have ticks (kind : Bool) : ∃ gone,
          (Tick.allDue kind s.ticks).Perm (gone ++ Tick.allDue kind (s.ticks.eraseIdx place)) := by
        have before := Tick.allDue_perm kind (perm_eraseIdx here)
        rw [Tick.allDue_cons] at before
        exact ⟨_, before⟩
      refine .abandoned place gone rfl rfl rfl (ticks true) ?_ ?_
      · obtain ⟨gone', looks⟩ := ticks false
        exact ⟨gone', (looks.append_left _).trans (List.perm_append_comm_assoc _ _ _)⟩
      · unfold System.flights
        rw [← List.append_assoc]
        exact flights.append_right _
    next => exact .refl s
  next => exact .refl s

/-! ### Workers -/

private theorem take_step (s : System) : Step s a s.take := by
  unfold take
  split
  next =>
    split
    next h pool taken =>
      refine .quiet rfl rfl id (Nat.le_refl _) ⟨[], .refl _⟩ ⟨[], .refl _⟩ ?_
      refine List.Perm.trans ?_ ((Pool.flights_take taken).append_right _).symm
      simp only [System.flights, withPool, withEngine, List.map_append, List.map_cons, List.map_nil]
      rw [← List.append_assoc]
      exact List.perm_append_singleton _ _
    next => exact .refl s
  next => exact .refl s

/-- A worker that proceeds takes what it holds out of its hands. -/
theorem flights_held {place : Nat} {h : Held} (here : s.held[place]? = some h) :
    s.flights.Perm (h.flight :: (s.engine.pool.flights ++ (s.held.eraseIdx place).map Held.flight)) :=
  (((perm_eraseIdx here).map Held.flight).append_left _).trans List.perm_middle

theorem flights_addExecution (e : Engine) (ticks : List Tick) (held : List Held) (x : Execution) :
    System.flights ⟨e.addExecution x, ticks, held⟩ |>.Perm
      (x.flight :: (e.pool.flights ++ held.map Held.flight)) :=
  (Pool.flights_addExecution e x).append_right _

private theorem owner_of_began {e : Engine} {w : Work} {pipeline : Option Pipeline}
    (consistent : e.store.Consistent e.issued) (began : e.Began w pipeline) :
    pipeline.map (·.id) = w.pipelineId? ∧ (∀ p, pipeline = some p → p.status = .inProgress) ∧
      ∀ p, pipeline = some p → ∃ q, e.store.getPipeline p.id = .ok q ∧ p.details = q.details := by
  cases w with
  | task job =>
    cases began
    exact ⟨rfl, by simp, by simp⟩
  | pipeline id jobs =>
    obtain ⟨q, read, rfl⟩ := began
    obtain ⟨row, reads⟩ := consistent.loaded read
    have key : (q.markStarted e.now).id = id := reads.key
    refine ⟨congrArg some key, fun p same => ?_, fun p same => ?_⟩ <;> cases same
    · rfl
    · exact ⟨q, key ▸ read, rfl⟩

/-- While no job is written, a flight whose first job is missing has no pipeline either. -/
theorem missing_of_unwritten {f : Flight} {job : Job} {waiting : List Job} {store : Store}
    {records : List Pipeline} (sound : s.Sound) (carried : s.engine.Carries f)
    (jobs : f.jobs = job :: waiting) (edited : Store.Edited s.engine.store store [] records)
    (missing : s.engine.store.jobs.get? job.id = none) :
    store.jobs.get? job.id = none ∧
      ∀ id, f.pipelineId = some id → store.pipelines.get? id = none := by
  refine ⟨by rw [edited.jobs]; exact missing, fun id owner => ?_⟩
  cases found : store.pipelines.get? id with
  | none => rfl
  | some row =>
    obtain ⟨r, before, _⟩ := edited.record_cases found
    obtain ⟨copy, owned⟩ := carried.copies job (by simp [jobs])
    obtain ⟨j, stored⟩ := sound.consistent.stored_of_owner copy (owned.trans owner) before
    rw [missing] at stored
    cases stored

/-- A work that cannot be begun in an open store has lost its first job. -/
theorem missing_of_lost {w : Work} {records : List Pipeline} {job : Job} {waiting : List Job}
    (sound : s.Sound) (carried : s.engine.Carries ⟨.waiting, w.pipelineId?, none, w.jobs⟩)
    (lost : s.engine.Lost w records) (jobs : w.jobs = job :: waiting)
    (open_ : s.engine.store.isClosed = false) : s.engine.store.jobs.get? job.id = none := by
  cases lost with
  | empty _ noJobs =>
    rw [noJobs] at jobs
    cases jobs
  | unread id err ofPipeline failed =>
    obtain ⟨copy, owned⟩ := carried.copies job (by simp [jobs])
    rcases Store.getPipeline_error failed open_ with
      absent | ⟨row, found, jobId, listed, j, stored, deep⟩
    · cases stored : s.engine.store.jobs.get? job.id with
      | none => rfl
      | some j =>
        obtain ⟨row, found⟩ :=
          sound.consistent.owner_of_stored copy (owned.trans ofPipeline) stored
        rw [absent] at found
        cases found
    · obtain ⟨j', stored', owner⟩ := (sound.consistent.linked.inPlace id row found).stored listed
      rw [stored] at stored'
      cases stored'
      exact absurd (carried.shallow id ofPipeline jobId j stored owner) (Nat.not_le_of_lt deep)
  | unmarked id q read missing =>
    obtain ⟨row, reads⟩ := sound.consistent.loaded read
    have absent := missing open_
    rw [reads.key, reads.found] at absent
    cases absent
  | unstarted _ first rest listed missing =>
    rw [jobs] at listed
    cases listed
    exact missing open_

/-- A flight that ends without writing a job has lost its first one, if the store is open. -/
theorem ended_of_missing {s' : System} {f : Flight} {others : List Flight} {job : Job}
    {waiting : List Job} {records : List Pipeline} (sound : s.Sound)
    (before : s.flights.Perm (f :: others)) (after : s'.flights.Perm others) (apart : Apart s s')
    (jobs : f.jobs = job :: waiting) (issued : s.engine.issued ≤ s'.engine.issued)
    (edited : Store.Edited s.engine.store s'.engine.store [] records)
    (ownRecords : ∀ r ∈ records, f.pipelineId = some r.id)
    (sameRecords : ∀ r ∈ records, (∃ p, f.record = some p ∧ r.details = p.details) ∨
      ∃ q, s.engine.store.getPipeline r.id = .ok q ∧ r.details = q.details)
    (missing : s.engine.store.isClosed = false → s.engine.store.jobs.get? job.id = none) :
    Step s a s' := by
  have carried := sound.flights f (before.mem_iff.mpr List.mem_cons_self)
  refine .ended f others job waiting [] records before after apart jobs
    ⟨edited, by simp, issued⟩ (by simp) ownRecords (fun open_ j stored => ?_)
    (fun open_ id row owner found => ?_) (by simp) sameRecords
  · rw [(missing_of_unwritten sound carried jobs edited (missing open_)).1] at stored
    cases stored
  · rw [(missing_of_unwritten sound carried jobs edited (missing open_)).2 id owner] at found
    cases found

section

variable {place : Nat} {x : Execution} {e : Engine}

private theorem begin_step (sound : s.Sound) {h : Handover} (here : s.held[place]? = some (.work h))
    (begun : s.engine.beginWork .worker h = (e, .ok (some x))) :
    Step s a ⟨e.addExecution x, s.ticks, s.held.eraseIdx place⟩ := by
  have before := flights_held here
  have carried := sound.flights h.flight (before.mem_iff.mpr List.mem_cons_self)
  obtain ⟨job, store, jobs, current, _, began, rfl, edited⟩ := Engine.beginWork_some begun
  obtain ⟨owner, inProgress, read⟩ := owner_of_began sound.consistent began
  refine .started _ x.flight _ job x.waiting x.pipeline.toList before
    (flights_addExecution _ _ _ x) ⟨rfl, rfl⟩ jobs (by rw [← current]; rfl) rfl owner rfl
    inProgress ⟨by rw [← current]; exact edited, fun k member => ?_, Nat.le_refl _⟩
    (Or.inl ⟨rfl, rfl⟩) fun p member => read p (Option.mem_toList.mp member)
  cases List.mem_singleton.mp member
  have inside : job ∈ h.work.jobs := by simp [jobs]
  exact (carried.copies job inside).1.of_origin (Job.origin_markStarted job _)

private theorem lose_step (sound : s.Sound) {h : Handover}
    {answer : Except StoreError (Option Execution)}
    (here : s.held[place]? = some (.work h)) (begun : s.engine.beginWork .worker h = (e, answer))
    (lost : ∀ x, answer ≠ .ok (some x)) : Step s a ⟨e, s.ticks, s.held.eraseIdx place⟩ := by
  have before := flights_held here
  have carried := sound.flights h.flight (before.mem_iff.mpr List.mem_cons_self)
  obtain ⟨store, records, rfl, edited, reason, own⟩ := Engine.beginWork_lost begun lost
  obtain ⟨job, waiting, jobs⟩ := List.exists_cons_of_ne_nil carried.nonempty
  refine ended_of_missing sound before (.refl _) ⟨rfl, rfl⟩ jobs (Nat.le_refl _) edited
    (fun r member => ?_) (fun r member => ?_) (missing_of_lost sound carried reason jobs)
  all_goals
    obtain ⟨id, q, owner, read, rfl⟩ := own r member
    obtain ⟨row, reads⟩ := sound.consistent.loaded read
    have key : (q.markStarted s.engine.now).id = id := reads.key
  · exact owner.trans (congrArg some key.symm)
  · exact Or.inr ⟨q, key ▸ read, rfl⟩

private theorem goOn_step (sound : s.Sound) {i : Engine.Interlude}
    (here : s.held[place]? = some (.rest i))
    (begun : s.engine.goOn i = (e, .inl x)) :
    Step s a ⟨e.addExecution x, s.ticks, s.held.eraseIdx place⟩ := by
  have before := flights_held here
  have carried := sound.flights i.flight (before.mem_iff.mpr List.mem_cons_self)
  obtain ⟨job, store, jobs, current, same, _, updated, rfl⟩ := Engine.goOn_inl begun
  rw [current] at updated
  refine .started _ x.flight _ job x.waiting [] before (flights_addExecution _ _ _ x) ⟨rfl, rfl⟩
    jobs (by rw [← current]; rfl) rfl ?_ rfl ?_
    ⟨(Store.updateJob_ok updated).1, fun k member => ?_, Nat.le_refl _⟩
    (Or.inr ⟨rfl, rfl, same⟩) (by simp)
  · exact congrArg (Option.map (·.id)) same
  · intro p whole
    exact (carried.begun p (same.symm.trans whole)).2
  · cases List.mem_singleton.mp member
    have inside : job ∈ i.jobs := by simp [jobs]
    exact (carried.copies job inside).1.of_origin (Job.origin_markStarted job _)

private theorem giveUp_step (sound : s.Sound) {i : Engine.Interlude} {ended : Engine.Ended}
    (here : s.held[place]? = some (.rest i)) (begun : s.engine.goOn i = (e, .inr ended)) :
    Step s a ⟨e.endExecution i.executor ended, s.ticks, s.held.eraseIdx place⟩ := by
  have before := flights_held here
  have carried := sound.flights i.flight (before.mem_iff.mpr List.mem_cons_self)
  obtain ⟨rfl, reason⟩ := Engine.goOn_inr begun
  obtain ⟨job, waiting, jobs⟩ := List.exists_cons_of_ne_nil carried.nonempty
  have edited : Store.Edited s.engine.store (s.engine.endExecution i.executor ended).store [] [] :=
    (Engine.store_endExecution _ _ _).symm ▸ .refl _
  refine ended_of_missing sound before ?_ ⟨rfl, Engine.queue_endExecution _ _ _⟩ jobs
    (by simp) edited (by simp) (by simp) fun open_ => ?_
  · simp [System.flights]
  · rcases reason with none_ | ⟨first, rest, listed, missing⟩
    · exact absurd none_ carried.nonempty
    · cases jobs.symm.trans listed
      exact missing open_

end

private theorem proceed_step (sound : s.Sound) (place : Nat) : Step s a (s.proceed place) := by
  unfold proceed
  split
  next => exact .refl s
  next h here =>
    dsimp only
    split
    next e x begun => exact begin_step sound here begun
    next e answer lost begun =>
      exact lose_step sound here begun fun x same => lost x (by rw [same])
  next i here =>
    dsimp only
    split
    next e x begun => exact goOn_step sound here begun
    next e ended begun => exact giveUp_step sound here begun

section

variable {x : Execution} {pool : Pool} {e : Engine} {result : JobResult}

private theorem pause_step (sound : s.Sound) {i : Engine.Interlude}
    (before : s.flights.Perm (x.flight :: (pool.flights ++ s.held.map Held.flight)))
    (concluded : { s.engine with pool := pool }.concludeJob x result = (e, .inl i)) :
    Step s a ⟨e, s.ticks, s.held ++ [.rest i]⟩ := by
  have carried := sound.flights x.flight (before.mem_iff.mpr List.mem_cons_self)
  obtain ⟨copy, owned⟩ := carried.copies x.current List.mem_cons_self
  obtain ⟨store, feed, issued, unsaved, written, records, jobAnswer, pipelineAnswer, rfl, later,
    edited, settled, settledPipeline, answer⟩ := Engine.concludeJob_spec concluded
  rcases answer with ⟨p, i', whole, same, success, more, _, record, jobs, _, rfl⟩ | ⟨_, same, _⟩
  · cases same
    cases settled with
    | stored k origin passive details =>
      have origin' : k.origin = x.current.origin := origin.trans (Job.origin_markFinished _ _ _)
      have running : Engine.pipelineThen { s.engine with pool := pool } x result = some p := by
        simp [Engine.pipelineThen, whole, Engine.pipelineAfter, success, more]
      have unwritten : records = [] := by
        cases settledPipeline with
        | missing => rfl
        | stored =>
          rw [running]
          simp [(carried.begun p whole).2, Status.isTerminal]
      subst unwritten
      refine .paused _ i.flight _ x.current k x.waiting before ?_ ⟨rfl, rfl⟩ rfl rfl rfl jobs more
        (record.trans whole.symm) ?_
        ⟨edited, fun k' member => ?_, later⟩ origin' passive
        (congrArg Option.isSome whole) (details.trans (Job.details_markFinished _ _ _))
      · simp only [System.flights, List.map_append, List.map_cons, List.map_nil]
        rw [← List.append_assoc]
        exact List.perm_append_singleton _ _
      · exact congrArg (Option.map (·.id)) (record.trans whole.symm)
      · cases List.mem_singleton.mp member
        exact copy.of_origin origin'
  · cases same

/-- A worker writes no record but that of its own pipeline. -/
theorem own_of_settledPipeline {store : Store} {now : Engine} {answer : Except StoreError Unit}
    {records : List Pipeline} (carried : s.engine.Carries x.flight)
    (settled : Engine.SettledPipeline store (now.pipelineThen x result) answer records) :
    ∀ r ∈ records, x.flight.pipelineId = some r.id ∧
      ∃ p, x.flight.record = some p ∧ r.details = p.details := by
  intro r member
  cases settled with
  | missing => cases member
  | stored =>
    have later := Option.mem_toList.mp (List.mem_filter.mp member).1
    obtain ⟨p, whole, rfl⟩ := Option.map_eq_some_iff.mp later
    refine ⟨?_, p, whole, Pipeline.details_pipelineAfter _ _ _ _⟩
    rw [Engine.id_pipelineAfter]
    exact (carried.begun p whole).1

/-- When no job is left to run, the record of the pipeline is written as terminal. -/
theorem passive_of_settledPipeline {store store' : Store} {now : Engine}
    {answer : Except StoreError Unit} {written : List Job} {records : List Pipeline} {id : Id}
    {row : PipelineRow} (open_ : store.isClosed = false)
    (edited : Store.Edited store store' written records)
    (settled : Engine.SettledPipeline store (now.pipelineThen x result) answer records)
    (ends : answer = .ok () → x.pipeline.isSome = true → result.isSuccess = false ∨ x.waiting = [])
    (owner : x.flight.pipelineId = some id) (found : store'.pipelines.get? id = some row) :
    row.record.status.isActive = false := by
  obtain ⟨r, known, _, record⟩ := edited.record_cases found
  obtain ⟨p, whole, same⟩ := Option.map_eq_some_iff.mp owner
  have then_ : now.pipelineThen x result =
      some (Engine.pipelineAfter p result x.waiting.isEmpty now.now) := by
    simp [Engine.pipelineThen, whole]
  have same' : (Engine.pipelineAfter p result x.waiting.isEmpty now.now).id = id :=
    (Engine.id_pipelineAfter _ _ _ _).trans same
  cases settled with
  | missing q err later absent =>
    cases then_.symm.trans later
    have none_ := absent open_
    rw [same'] at none_
    cases known.symm.trans none_
  | stored =>
    have finished : result.isSuccess = false ∨ x.waiting.isEmpty = true := by
      simpa using ends rfl (by simp [whole])
    have terminal := Engine.isTerminal_pipelineAfter (p := p) (t := now.now) finished
    rw [then_] at record
    simp only [Option.toList_some, terminal, List.filter_cons_of_pos, List.filter_nil,
      List.mem_singleton, forall_eq, exists_eq_left] at record
    rcases record with ⟨_, other⟩ | ⟨_, replaced⟩
    · exact absurd same' other
    · rw [replaced]
      exact Status.not_isActive_of_isTerminal terminal

private theorem end_step (sound : s.Sound) {ended : Engine.Ended}
    (before : s.flights.Perm (x.flight :: (pool.flights ++ s.held.map Held.flight)))
    (concluded : { s.engine with pool := pool }.concludeJob x result = (e, .inr ended)) :
    Step s a ⟨e.endExecution x.executor ended, s.ticks, s.held⟩ := by
  have carried := sound.flights x.flight (before.mem_iff.mpr List.mem_cons_self)
  obtain ⟨copy, owned⟩ := carried.copies x.current List.mem_cons_self
  obtain ⟨store, feed, issued, unsaved, written, records, jobAnswer, pipelineAnswer, rfl, later,
    edited, settled, settledPipeline, answer⟩ := Engine.concludeJob_spec concluded
  have ends : jobAnswer = .ok () → pipelineAnswer = .ok () → x.pipeline.isSome = true →
      result.isSuccess = false ∨ x.waiting = [] := by
    rcases answer with ⟨_, _, _, same, _⟩ | ⟨_, _, ends⟩
    · cases same
    · exact ends
  have own := own_of_settledPipeline carried settledPipeline
  -- Only the answer to a caller is left to note, which no record and no flight depends on.
  generalize last : (⟨Engine.endExecution _ x.executor ended, s.ticks, s.held⟩ : System) = s'
  have sameStore : s'.engine.store = store := by rw [← last, Engine.store_endExecution]
  have sameIssued : s'.engine.issued = issued := by rw [← last, Engine.issued_endExecution]
  have apart : Apart s s' := by
    rw [← last]
    exact ⟨rfl, Engine.queue_endExecution _ _ _⟩
  have after : s'.flights.Perm (pool.flights ++ s.held.map Held.flight) := by
    rw [← last, System.flights, Engine.pool_endExecution]
    exact .refl _
  cases settled with
  | missing err absent =>
    exact ended_of_missing sound before after apart rfl
      (sameIssued.symm ▸ later) (sameStore.symm ▸ edited) (fun r member => (own r member).1)
      (fun r member => Or.inl (own r member).2) fun open_ =>
        Job.id_of_origin (Job.origin_markFinished x.current result _) ▸ absent open_
  | stored k origin passive details =>
    have origin' : k.origin = x.current.origin := origin.trans (Job.origin_markFinished _ _ _)
    have key := Job.id_of_origin origin'
    refine .ended x.flight _ x.current x.waiting [k] records before after apart rfl
      ⟨sameStore.symm ▸ edited, fun k' member => ?_, sameIssued.symm ▸ later⟩ (fun k' member => ?_)
      (fun r member => (own r member).1) (fun open_ j stored => ?_)
      (fun open_ id row owner found => ?_) (fun k' member => ?_)
      fun r member => Or.inl (own r member).2
    · cases List.mem_singleton.mp member
      exact copy.of_origin origin'
    · cases List.mem_singleton.mp member
      exact origin'
    · rw [sameStore, edited.jobs, ← key] at stored
      cases (Table.get?_put_self s.engine.store.jobs k.id k).symm.trans stored
      exact passive
    · exact passive_of_settledPipeline open_ edited settledPipeline (ends rfl) owner
        (sameStore ▸ found)
    · cases List.mem_singleton.mp member
      exact details.trans (Job.details_markFinished _ _ _)

end

private theorem finish_step (sound : s.Sound) (place : Nat) (result : JobResult) :
    Step s a (s.finish place result) := by
  unfold finish
  split
  next => exact .refl s
  next x here =>
    have before := (Pool.flights_eraseIdx here).append_right (s.held.map Held.flight)
    split
    next =>
      dsimp only
      split
      next concluded => exact pause_step sound before concluded
      next concluded => exact end_step sound before concluded
    next => exact .refl s

private theorem save_step (s : System) (place : Nat) : Step s a (s.save place) := by
  unfold save
  split
  next => exact .refl s
  next result here =>
    dsimp only
    split
    next store created =>
      obtain ⟨_, _, same⟩ := bind_ok created
      cases same
      exact .quiet rfl rfl id (Nat.le_refl _) ⟨[], .refl _⟩ ⟨[], .refl _⟩ (.refl _)
    next => exact .quiet rfl rfl id (Nat.le_refl _) ⟨[], .refl _⟩ ⟨[], .refl _⟩ (.refl _)

/-! ### All actions -/

/-- A sound system takes only steps of the listed kinds. -/
theorem perform_step (sound : s.Sound) (a : Action) (short : a.IsShort)
    (distinct : Id.Distinct (s.perform a).engine.issued) : Step s a (s.perform a) := by
  cases a with
  | createJob r => exact createJob_step sound r distinct
  | updateJob id r =>
    exact .managed (Engine.updateJob_managed rfl sound.consistent) rfl rfl
      (Engine.updateJob_told sound.consistent r)
  | deleteJob id =>
    exact .managed (Engine.deleteJob_managed rfl) rfl rfl
      (Engine.deleteJob_erased _ id).told
  | dropJobs =>
    exact .managed (Engine.dropJobs_managed rfl sound.consistent) rfl rfl
      (Engine.dropJobs_erased _).told
  | createPipeline r => exact createPipeline_step sound r short distinct
  | updatePipeline id r =>
    exact .managed (Engine.updatePipeline_managed rfl sound.consistent) rfl rfl
      (Engine.updatePipeline_told sound.consistent r)
  | deletePipeline id =>
    exact .managed (Engine.deletePipeline_managed rfl) rfl rfl (Engine.deletePipeline_erased _ id).told
  | deleteResult id =>
    exact .managed (Engine.deleteResult_managed rfl) rfl rfl (Engine.deleteResult_erased _ id).told
  | scan => exact scan_step s
  | look => exact look_step s
  | submit place => exact submitNext_step sound place
  | abandon place => exact abandon_step s place
  | take => exact take_step s
  | proceed place => exact proceed_step sound place
  | finish place result => exact finish_step sound place result
  | save place => exact save_step s place
  | start =>
    refine .of_engine rfl rfl rfl ?_
    unfold Engine.start Pool.start
    split <;> rfl
  | stop => exact .of_engine rfl rfl rfl rfl
  | cancel => exact .of_engine rfl rfl rfl rfl
  | advance millis => exact .of_engine rfl rfl rfl rfl
  | closeQueue => exact .of_engine rfl rfl rfl rfl
  | closeStore =>
    exact .quiet rfl rfl (fun _ => rfl) (Nat.le_refl _) ⟨[], .refl _⟩ ⟨[], .refl _⟩ (.refl _)

end System

end Rota
