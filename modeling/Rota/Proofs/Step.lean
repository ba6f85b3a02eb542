import Rota.Proofs.Details
import Rota.Proofs.Flight
/-! What one step of a system can do.
`Step` lists the kinds of steps with all that they change: records, copies of jobs on their way to
be submitted, and flights. It is enough to look at these to see what every run keeps. -/
namespace Rota

namespace Store

def Shallow (s : Store) (id : Id) : Prop :=
  ∀ jobId j, s.jobs.get? jobId = some j → j.pipelineId = some id → j.depth ≤ maxDepth

theorem Descends.of_owner {s s' : Store} {n m : Nat} {id jobId : Id} {j : Job}
    (older : Descends n s s') (before : s.Consistent n) (after : s'.Consistent m)
    (issued : Id.IsIssued n id) (stored : s'.jobs.get? jobId = some j)
    (owner : j.pipelineId = some id) :
    ∃ i, s.jobs.get? jobId = some i ∧ j.origin = i.origin := by
  obtain ⟨row, found, listed⟩ := after.linked.owned jobId j id stored owner
  obtain ⟨r, found', same⟩ := older.pipelines id row issued found
  rw [same] at listed
  obtain ⟨i, stored', _⟩ := (before.linked.inPlace id r found').stored listed
  exact older.jobs jobId j (before.jobIssued jobId i stored') stored

theorem Shallow.descends {s s' : Store} {n m : Nat} {id : Id} (shallow : s.Shallow id)
    (older : Descends n s s') (before : s.Consistent n) (after : s'.Consistent m)
    (issued : Id.IsIssued n id) : s'.Shallow id := by
  intro jobId j stored owner
  obtain ⟨i, stored', same⟩ := older.of_owner before after issued stored owner
  rw [Job.depth_of_origin same]
  exact shallow jobId i stored' ((Job.pipelineId_of_origin same).symm.trans owner)

end Store

/-- What holds of a flight: its jobs are copies of jobs of its pipeline, which can be read, and a
worker's record of the pipeline says that it is in progress. -/
structure Engine.Carries (e : Engine) (f : Flight) : Prop where
  nonempty : f.jobs ≠ []
  copies : ∀ c ∈ f.jobs, e.store.IsCopy e.issued c ∧ c.pipelineId = f.pipelineId
  begun : ∀ p, f.record = some p → f.pipelineId = some p.id ∧ p.status = .inProgress
  shallow : ∀ id, f.pipelineId = some id → e.store.Shallow id

theorem Engine.Carries.ownerIssued {e : Engine} {f : Flight} {id : Id} (carries : e.Carries f)
    (owner : f.pipelineId = some id) : Id.IsIssued e.issued id := by
  obtain ⟨c, first⟩ := List.exists_mem_of_ne_nil _ carries.nonempty
  obtain ⟨copy, owner'⟩ := carries.copies c first
  exact copy.ownerIssued id (owner'.trans owner)

theorem Engine.Carries.descends {e e' : Engine} {f : Flight} (carries : e.Carries f)
    (before : e.store.Consistent e.issued) (after : e'.store.Consistent e'.issued)
    (older : Store.Descends e.issued e.store e'.store) (issued : e.issued ≤ e'.issued) :
    e'.Carries f where
  nonempty := carries.nonempty
  copies c member := by
    obtain ⟨copy, owner⟩ := carries.copies c member
    exact ⟨copy.descends older issued, owner⟩
  begun := carries.begun
  shallow id owner :=
    (carries.shallow id owner).descends older before after (carries.ownerIssued owner)

def Tick.allDue (isScan : Bool) (ticks : List Tick) : List Job :=
  (ticks.filter (·.isScan = isScan)).flatMap (·.due)

theorem Tick.allDue_cons (isScan : Bool) (t : Tick) (ticks : List Tick) :
    allDue isScan (t :: ticks) =
      (if t.isScan = isScan then t.due else []) ++ allDue isScan ticks := by
  unfold allDue
  rw [List.filter_cons]
  by_cases kind : t.isScan = isScan <;> simp [kind]

theorem Tick.allDue_perm (isScan : Bool) {ticks ticks' : List Tick} (same : ticks.Perm ticks') :
    (allDue isScan ticks).Perm (allDue isScan ticks') := (same.filter _).flatMap_right _

theorem Tick.allDue_append (isScan : Bool) (ticks ticks' : List Tick) :
    allDue isScan (ticks ++ ticks') = allDue isScan ticks ++ allDue isScan ticks' := by
  simp [allDue]

namespace System

def scanned (s : System) : List Job := Tick.allDue true s.ticks

def called (s : System) : List Job := s.engine.queue.jobs ++ Tick.allDue false s.ticks

structure Sound (s : System) : Prop where
  consistent : s.engine.store.Consistent s.engine.issued
  copies : ∀ c ∈ s.scanned ++ s.called, s.engine.store.IsCopy s.engine.issued c
  flights : ∀ f ∈ s.flights, s.engine.Carries f

def Taken (s s' : System) (job : Job) : Prop :=
  (∃ gone, s.scanned.Perm (job :: gone ++ s'.scanned)) ∧ s'.called.Perm s.called ∨
    s'.scanned.Perm s.scanned ∧ ∃ gone, s.called.Perm (job :: gone ++ s'.called)

/-- Copies of jobs, and records of pipelines, were written over stored ones. -/
structure Wrote (s s' : System) (written : List Job) (records : List Pipeline) : Prop where
  edited : Store.Edited s.engine.store s'.engine.store written records
  copies : ∀ k ∈ written, s.engine.store.IsCopy s.engine.issued k
  issued : s.engine.issued ≤ s'.engine.issued

/-- Ticks and queue have no part in the step. -/
structure Apart (s s' : System) : Prop where
  ticks : s'.ticks = s.ticks
  queue : s'.engine.queue = s.engine.queue

def IsIdle (s : System) (job : Job) : Prop :=
  ∀ id, job.pipelineId = some id → ∃ row, s.engine.store.pipelines.get? id = some row ∧
    row.jobIds.head? = some job.id ∧ row.record.status.isActive = false

/-- What the action `a` can do to the system `s`. -/
inductive Step (s : System) (a : Action) (s' : System) : Prop
  /-- No job or pipeline is written, and the flights stay. -/
  | quiet (jobs : s'.engine.store.jobs = s.engine.store.jobs)
      (pipelines : s'.engine.store.pipelines = s.engine.store.pipelines)
      (closed : s.engine.store.isClosed = true → s'.engine.store.isClosed = true)
      (issued : s.engine.issued ≤ s'.engine.issued)
      (scanned : ∃ gone, s.scanned.Perm (gone ++ s'.scanned))
      (called : ∃ gone, s.called.Perm (gone ++ s'.called)) (flights : s'.flights.Perm s.flights)
  | managed (change : s.engine.Managed s'.engine) (ticks : s'.ticks = s.ticks)
      (held : s'.held = s.held) (told : s.engine.Told a s'.engine)
  | scanned (due : List Job) (asked : a = .scan)
      (read : s.engine.store.getDueJobs s.engine.now = .ok due)
      (engine : s'.engine = s.engine) (scanned : s'.scanned = s.scanned ++ due)
      (called : s'.called = s.called) (flights : s'.flights = s.flights)
  | looked (queued job : Job) (read : s.engine.store.getJob queued.id = .ok job)
      (store : s'.engine.store = s.engine.store) (issued : s'.engine.issued = s.engine.issued)
      (scanned : s'.scanned = s.scanned)
      (called : ∃ rest, s.called.Perm (queued :: rest) ∧ s'.called.Perm (job :: rest))
      (flights : s'.flights = s.flights)
  | rearmed (job : Job) (id : Id) (p : Pipeline) (written : List Job) (records : List Pipeline)
      (taken : Taken s s' job) (owner : job.pipelineId = some id)
      (read : s.engine.store.getPipeline id = .ok p) (holds : p.isRearmed = true)
      (wrote : Wrote s s' written records)
      (pendingJobs : ∀ k ∈ written, k.status = .pending ∧ k.pipelineId = some id)
      (pendingRecords : ∀ q ∈ records, q.id = id ∧ q.status = .pending)
      (asked : ∃ place, a = .submit place ∧ s.next? place = some job)
      (flights : s'.flights = s.flights)
      (same : ∀ k ∈ written, ∃ c ∈ p.jobs, k.origin = c.origin ∧ k.details = c.details)
      (sameRecords : ∀ q ∈ records, q.details = p.details)
  /-- A job was marked as scheduled and marked back, because the pool takes no work. -/
  | refused (job : Job) (written : List Job) (taken : Taken s s' job)
      (wrote : Wrote s s' written []) (own : ∀ k ∈ written, k.origin = job.origin)
      (idle : s.IsIdle job) (undone : s.engine.store.isClosed = false →
        ∀ j, s'.engine.store.jobs.get? job.id = some j → j.status = .pending)
      (flights : s'.flights = s.flights) (same : ∀ k ∈ written, k.details = job.details)
      (asked : ∃ place, a = .submit place ∧ s.next? place = some job)
  | sent (job : Job) (f : Flight) (rest : List Job) (taken : Taken s s' job)
      (wrote : Wrote s s' [job.markScheduled s.engine.now] []) (stage : f.stage = .waiting)
      (jobs : f.jobs = job.markScheduled s.engine.now :: rest) (record : f.record = none)
      (owner : f.pipelineId = job.pipelineId) (carried : s.engine.Carries f) (idle : s.IsIdle job)
      (flights : s'.flights.Perm (f :: s.flights))
      (read : ∀ c ∈ rest, ∃ id, s.engine.store.getJob id = .ok c)
      (asked : ∃ place, a = .submit place ∧ s.next? place = some job)
  /-- A worker has started the first job of what it held. -/
  | started (f f' : Flight) (others : List Flight) (job : Job) (waiting : List Job)
      (records : List Pipeline) (before : s.flights.Perm (f :: others))
      (after : s'.flights.Perm (f' :: others)) (apart : Apart s s')
      (jobs : f.jobs = job :: waiting) (jobs' : f'.jobs = job.markStarted s.engine.now :: waiting)
      (stage : f'.stage = .running) (owner : f'.pipelineId = f.pipelineId)
      (known : f'.record.map (·.id) = f'.pipelineId)
      (inProgress : ∀ p, f'.record = some p → p.status = .inProgress)
      (wrote : Wrote s s' [job.markStarted s.engine.now] records)
      (begins : f.stage = .waiting ∧ records = f'.record.toList ∨
        f.stage = .between ∧ records = [] ∧ f'.record = f.record)
      (read : ∀ p ∈ records, ∃ q, s.engine.store.getPipeline p.id = .ok q ∧ p.details = q.details)
  /-- The running job has ended, and its worker goes on to the next. -/
  | paused (f f' : Flight) (others : List Flight) (job k : Job) (waiting : List Job)
      (before : s.flights.Perm (f :: others)) (after : s'.flights.Perm (f' :: others))
      (apart : Apart s s') (stage : f.stage = .running) (stage' : f'.stage = .between)
      (jobs : f.jobs = job :: waiting) (jobs' : f'.jobs = waiting) (more : waiting ≠ [])
      (record : f'.record = f.record) (owner : f'.pipelineId = f.pipelineId)
      (wrote : Wrote s s' [k] []) (origin : k.origin = job.origin)
      (passive : k.status.isActive = false) (whole : f.record.isSome = true)
      (same : k.details = job.details)
  /-- A flight has ended. In an open store it leaves neither its first job nor its pipeline
  active. -/
  | ended (f : Flight) (others : List Flight) (job : Job) (waiting written : List Job)
      (records : List Pipeline) (before : s.flights.Perm (f :: others))
      (after : s'.flights.Perm others) (apart : Apart s s') (jobs : f.jobs = job :: waiting)
      (wrote : Wrote s s' written records) (own : ∀ k ∈ written, k.origin = job.origin)
      (ownRecords : ∀ r ∈ records, f.pipelineId = some r.id)
      (passive : s.engine.store.isClosed = false →
        ∀ j, s'.engine.store.jobs.get? job.id = some j → j.status.isActive = false)
      (passivePipeline : s.engine.store.isClosed = false → ∀ id row, f.pipelineId = some id →
        s'.engine.store.pipelines.get? id = some row → row.record.status.isActive = false)
      (same : ∀ k ∈ written, k.details = job.details)
      (sameRecords : ∀ r ∈ records, (∃ p, f.record = some p ∧ r.details = p.details) ∨
        ∃ q, s.engine.store.getPipeline r.id = .ok q ∧ r.details = q.details)
  | abandoned (place : Nat) (gone : List Flight) (asked : a = .abandon place)
      (store : s'.engine.store = s.engine.store)
      (issued : s'.engine.issued = s.engine.issued)
      (scanned : ∃ gone, s.scanned.Perm (gone ++ s'.scanned))
      (called : ∃ gone, s.called.Perm (gone ++ s'.called))
      (flights : s.flights.Perm (gone ++ s'.flights))

variable {s s' : System} {a : Action}

theorem Wrote.descends {written : List Job} {records : List Pipeline}
    (wrote : Wrote s s' written records) :
    Store.Descends s.engine.issued s.engine.store s'.engine.store :=
  wrote.edited.descends wrote.copies

theorem Wrote.consistent {written : List Job} {records : List Pipeline}
    (wrote : Wrote s s' written records)
    (consistent : s.engine.store.Consistent s.engine.issued) :
    s'.engine.store.Consistent s'.engine.issued :=
  (wrote.edited.consistent wrote.copies consistent).mono wrote.issued

theorem Wrote.job_cases {written : List Job} {records : List Pipeline} {id : Id} {j : Job}
    (wrote : Wrote s s' written records) (stored : s'.engine.store.jobs.get? id = some j) :
    (j ∈ written ∧ j.id = id) ∨
      (s.engine.store.jobs.get? id = some j ∧ ∀ k ∈ written, k.id ≠ id) := by
  rw [wrote.edited.jobs] at stored
  exact Store.putJobs_cases stored

theorem ownRecords_of_begins {f f' : Flight} {records : List Pipeline}
    (owner : f'.pipelineId = f.pipelineId) (known : f'.record.map (·.id) = f'.pipelineId)
    (begins : f.stage = .waiting ∧ records = f'.record.toList ∨
      f.stage = .between ∧ records = [] ∧ f'.record = f.record) :
    ∀ r ∈ records, f.pipelineId = some r.id := by
  intro r member
  rcases begins with ⟨_, rfl⟩ | ⟨_, rfl, _⟩
  · rw [← owner, ← known, Option.mem_toList.mp member]
    rfl
  · cases member

theorem Apart.scanned (apart : Apart s s') : s'.scanned = s.scanned := by
  unfold System.scanned
  rw [apart.ticks]

theorem Apart.called (apart : Apart s s') : s'.called = s.called := by
  unfold System.called
  rw [apart.ticks, apart.queue]

theorem Taken.mem {job : Job} (taken : Taken s s' job) : job ∈ s.scanned ++ s.called := by
  rcases taken with ⟨⟨gone, scanned⟩, _⟩ | ⟨_, gone, called⟩
  · exact List.mem_append_left _ (scanned.mem_iff.mpr (by simp))
  · exact List.mem_append_right _ (called.mem_iff.mpr (by simp))

theorem Taken.subset {job c : Job} (taken : Taken s s' job) (member : c ∈ s'.scanned ++ s'.called) :
    c ∈ s.scanned ++ s.called := by
  rcases taken with ⟨⟨gone, scanned⟩, called⟩ | ⟨scanned, gone, called⟩ <;>
    rcases List.mem_append.mp member with inScan | inCall
  · exact List.mem_append_left _ (scanned.mem_iff.mpr (by simp [inScan]))
  · exact List.mem_append_right _ (called.mem_iff.mp inCall)
  · exact List.mem_append_left _ (scanned.mem_iff.mp inScan)
  · exact List.mem_append_right _ (called.mem_iff.mpr (by simp [inCall]))

theorem Taken.gone {job : Job} (taken : Taken s s' job) :
    (∃ gone, s.scanned.Perm (gone ++ s'.scanned)) ∧ ∃ gone, s.called.Perm (gone ++ s'.called) := by
  rcases taken with ⟨⟨gone, scanned⟩, called⟩ | ⟨scanned, gone, called⟩
  · exact ⟨⟨job :: gone, scanned⟩, [], called.symm⟩
  · exact ⟨⟨[], scanned.symm⟩, job :: gone, called⟩

/-! ### What every step keeps -/

namespace Step

theorem keeps (step : Step s a s') (consistent : s.engine.store.Consistent s.engine.issued)
    (distinct : Id.Distinct s'.engine.issued) :
    s'.engine.store.Consistent s'.engine.issued ∧
      Store.Descends s.engine.issued s.engine.store s'.engine.store ∧
      s.engine.issued ≤ s'.engine.issued := by
  have written {written : List Job} {records : List Pipeline} (wrote : Wrote s s' written records) :=
    And.intro (wrote.consistent consistent) (And.intro wrote.descends wrote.issued)
  have same (store : s'.engine.store = s.engine.store) (issued : s'.engine.issued = s.engine.issued) :
      s'.engine.store.Consistent s'.engine.issued ∧
        Store.Descends s.engine.issued s.engine.store s'.engine.store ∧
        s.engine.issued ≤ s'.engine.issued := by
    rw [store, issued]
    exact ⟨consistent, .refl _ _, Nat.le_refl _⟩
  cases step with
  | quiet jobs pipelines _ issued =>
    exact ⟨(consistent.of_eq jobs pipelines).mono issued, .of_eq _ jobs pipelines, issued⟩
  | managed change =>
    exact ⟨change.change.consistent distinct consistent,
      change.change.descends distinct consistent, change.change.issued⟩
  | scanned _ _ _ engine => exact same (by rw [engine]) (by rw [engine])
  | looked _ _ _ store issued => exact same store issued
  | rearmed _ _ _ _ _ _ _ _ _ wrote => exact written wrote
  | refused _ _ _ wrote => exact written wrote
  | sent _ _ _ _ wrote => exact written wrote
  | started _ _ _ _ _ _ _ _ _ _ _ _ _ _ _ wrote => exact written wrote
  | paused _ _ _ _ _ _ _ _ _ _ _ _ _ _ _ _ wrote => exact written wrote
  | ended _ _ _ _ _ _ _ _ _ _ wrote => exact written wrote
  | abandoned _ _ _ store issued => exact same store issued

theorem copies (step : Step s a s') (sound : s.Sound)
    (consistent : s'.engine.store.Consistent s'.engine.issued)
    (distinct : Id.Distinct s'.engine.issued) {c : Job}
    (member : c ∈ s'.scanned ++ s'.called) :
    c ∈ s.scanned ++ s.called ∨ s'.engine.store.IsCopy s'.engine.issued c := by
  have rest {gone gone' : List Job} (scanned : s.scanned.Perm (gone ++ s'.scanned))
      (called : s.called.Perm (gone' ++ s'.called)) : c ∈ s.scanned ++ s.called := by
    rcases List.mem_append.mp member with inScan | inCall
    · exact List.mem_append_left _ (scanned.mem_iff.mpr (List.mem_append_right _ inScan))
    · exact List.mem_append_right _ (called.mem_iff.mpr (List.mem_append_right _ inCall))
  cases step with
  | quiet _ _ _ _ scanned called => exact Or.inl (rest scanned.choose_spec called.choose_spec)
  | managed change ticks =>
    rw [System.scanned, System.called, ticks] at member
    rcases change.change.queue distinct sound.consistent with same | ⟨j, longer, stored, _⟩
    · rw [same] at member
      exact Or.inl member
    · rw [longer] at member
      simp only [List.mem_append, List.mem_singleton] at member
      rcases member with inScan | (inQueue | rfl) | inLook
      · exact Or.inl (List.mem_append_left _ inScan)
      · exact Or.inl (List.mem_append_right _ (List.mem_append_left _ inQueue))
      · exact Or.inr (consistent.isCopy stored)
      · exact Or.inl (List.mem_append_right _ (List.mem_append_right _ inLook))
  | scanned due _ read engine scanned called =>
    rw [scanned, called] at member
    simp only [List.mem_append] at member
    rcases member with (inScan | inDue) | inCall
    · exact Or.inl (List.mem_append_left _ inScan)
    · obtain ⟨row, stored, rereads, _⟩ := sound.consistent.stored_due read inDue
      rw [engine]
      exact Or.inr (sound.consistent.isCopy_reread stored rereads)
    · exact Or.inl (List.mem_append_right _ inCall)
  | looked queued job read store issued scanned called =>
    obtain ⟨rest, before, after⟩ := called
    rw [scanned] at member
    rcases List.mem_append.mp member with inScan | inCall
    · exact Or.inl (List.mem_append_left _ inScan)
    · rcases List.mem_cons.mp (after.mem_iff.mp inCall) with rfl | old
      · rw [store, issued]
        exact Or.inr (sound.consistent.isCopy_getJob read).1
      · exact Or.inl (List.mem_append_right _ (before.mem_iff.mpr (List.mem_cons_of_mem _ old)))
  | rearmed _ _ _ _ _ taken => exact Or.inl (taken.subset member)
  | refused _ _ taken => exact Or.inl (taken.subset member)
  | sent _ _ _ taken => exact Or.inl (taken.subset member)
  | started _ _ _ _ _ _ _ _ apart => exact Or.inl (by rwa [apart.scanned, apart.called] at member)
  | paused _ _ _ _ _ _ _ _ apart => exact Or.inl (by rwa [apart.scanned, apart.called] at member)
  | ended _ _ _ _ _ _ _ _ apart => exact Or.inl (by rwa [apart.scanned, apart.called] at member)
  | abandoned _ _ _ _ _ scanned called =>
    exact Or.inl (rest scanned.choose_spec called.choose_spec)

theorem flights (step : Step s a s') (sound : s.Sound) {f : Flight} (member : f ∈ s'.flights) :
    s.engine.Carries f := by
  have moved {f : Flight} {others : List Flight} (before : s.flights.Perm (f :: others)) :
      s.engine.Carries f ∧ ∀ g ∈ others, s.engine.Carries g :=
    ⟨sound.flights f (before.mem_iff.mpr List.mem_cons_self),
      fun g inside => sound.flights g (before.mem_iff.mpr (List.mem_cons_of_mem _ inside))⟩
  cases step with
  | quiet _ _ _ _ _ _ flights => exact sound.flights f (flights.mem_iff.mp member)
  | managed change ticks held =>
    refine sound.flights f ?_
    unfold System.flights at member ⊢
    rwa [change.pool, held] at member
  | scanned _ _ _ _ _ _ flights => exact sound.flights f (flights ▸ member)
  | looked _ _ _ _ _ _ _ flights => exact sound.flights f (flights ▸ member)
  | rearmed _ _ _ _ _ _ _ _ _ _ _ _ _ flights => exact sound.flights f (flights ▸ member)
  | refused _ _ _ _ _ _ _ flights => exact sound.flights f (flights ▸ member)
  | sent job g rest _ _ _ _ _ _ carried _ flights =>
    rcases List.mem_cons.mp (flights.mem_iff.mp member) with rfl | old
    · exact carried
    · exact sound.flights f old
  | started g g' others job waiting records before after _ jobs jobs' _ owner known inProgress =>
    obtain ⟨was, rest⟩ := moved before
    rcases List.mem_cons.mp (after.mem_iff.mp member) with rfl | old
    · refine ⟨by simp [jobs'], fun c inside => ?_, fun p whole => ?_, ?_⟩
      · rw [jobs'] at inside
        rw [owner]
        rcases List.mem_cons.mp inside with rfl | behind
        · obtain ⟨copy, owned⟩ := was.copies job (by simp [jobs])
          exact ⟨copy.of_origin (Job.origin_markStarted job _), owned⟩
        · exact was.copies c (by simp [jobs, behind])
      · rw [← known, whole]
        exact ⟨rfl, inProgress p whole⟩
      · rw [owner]
        exact was.shallow
    · exact rest f old
  | paused g g' others job k waiting before after _ _ _ jobs jobs' more record owner =>
    obtain ⟨was, rest⟩ := moved before
    rcases List.mem_cons.mp (after.mem_iff.mp member) with rfl | old
    · refine ⟨by rwa [jobs'], fun c inside => ?_, ?_, ?_⟩
      · rw [jobs'] at inside
        rw [owner]
        exact was.copies c (by simp [jobs, inside])
      · rw [record, owner]
        exact was.begun
      · rw [owner]
        exact was.shallow
    · exact rest f old
  | ended g others _ _ _ _ before after =>
    exact (moved before).2 f (after.mem_iff.mp member)
  | abandoned _ gone _ _ _ _ _ flights =>
    exact sound.flights f (flights.mem_iff.mpr (List.mem_append_right _ member))

theorem sound (step : Step s a s') (sound : s.Sound) (distinct : Id.Distinct s'.engine.issued) :
    s'.Sound := by
  obtain ⟨consistent, older, issued⟩ := step.keeps sound.consistent distinct
  refine ⟨consistent, fun c member => ?_, fun f member => ?_⟩
  · rcases step.copies sound consistent distinct member with old | new
    · exact (sound.copies c old).descends older issued
    · exact new
  · exact (step.flights sound member).descends sound.consistent consistent older issued

end Step

end System

end Rota
