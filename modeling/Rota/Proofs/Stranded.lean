import Rota.Proofs.Reserved
import Rota.Proofs.Scan
import Rota.Proofs.Recycle
import Rota.Proofs.Sources
/-! No job is stranded.
A job that is to run has a run time, or the queue has it, or a tick that took it out of the queue.
A tick that passes over a job out of the queue leaves nothing behind that would call for it again:
a standalone job that is disabled is lost so. Nothing else gets lost but what cannot be read, and
what is to be armed again and cannot be. -/
namespace Rota

def Job.IsFirst (j : Job) : Prop := j.pipelineId = none ∨ j.sequence = 0

private theorem Job.isFirst_of_origin {j k : Job} (same : j.origin = k.origin) :
    j.IsFirst ↔ k.IsFirst := by
  rw [IsFirst, IsFirst, Job.pipelineId_of_origin same, Job.sequence_of_origin same]

namespace Store

variable {s : Store} {id jobId : Id} {j : Job} {row : PipelineRow} {p : Pipeline}

private theorem Linked.first_iff (linked : s.Linked) (found : s.pipelines.get? id = some row)
    (stored : s.jobs.get? jobId = some j) (owner : j.pipelineId = some id) :
    j.sequence = 0 ↔ row.jobIds.head? = some jobId := by
  have inPlace := linked.inPlace id row found
  obtain ⟨row', found', listed⟩ := linked.owned jobId j id stored owner
  cases found.symm.trans found'
  obtain ⟨i, here⟩ := List.mem_iff_getElem?.mp listed
  obtain ⟨j', stored', _, place, _⟩ := inPlace.placed i jobId here
  cases stored.symm.trans stored'
  rw [List.head?_eq_getElem?]
  constructor
  · intro zero
    rw [zero] at place
    exact (show 0 = i from place) ▸ here
  · intro first
    obtain ⟨j', stored', _, place', _⟩ := inPlace.placed 0 jobId first
    cases stored.symm.trans stored'
    exact UInt32.toNat_inj.mp place'

/-- In an open store a pipeline that exists can only be unreadable. -/
theorem unreadable_of_getPipeline {e : StoreError} (open_ : s.isClosed = false)
    (found : s.pipelines.get? id = some row) (failed : s.getPipeline id = .error e) :
    e = .unreadable := by
  unfold getPipeline ensureOpen at failed
  simp only [open_, found, Bool.false_eq_true, if_false, bind, Except.bind] at failed
  unfold loadPipeline at failed
  cases mapped : (row.jobIds.filterMap s.jobs.get?).mapM Job.reread with
  | ok jobs =>
    rw [mapped] at failed
    cases failed
  | error e' =>
    obtain ⟨j, _, bad⟩ := mapM_error mapped
    rw [mapped] at failed
    cases failed
    exact (Job.reread_error_iff.mp bad).1

end Store

namespace Engine

variable {e e' : Engine} {job i j : Job} {p : Pipeline} {id : Id} {n : Nat} {answer : Submission}

/-! ### New jobs -/

theorem dated_firstRunAt {runAt : Option String} {now : Instant} {t : Option Instant}
    (asked : firstRunAt false runAt now = .ok t) : t.isSome = true := by
  unfold firstRunAt at asked
  simp only [Bool.false_eq_true, if_false] at asked
  split at asked
  next =>
    cases asked
    rfl
  next => cases asked

/-- A job that is not to run at once has a run time. -/
theorem dated_createJob {r : CreateJob} (answer : (e.createJob r).2 = .ok j)
    (later : r.runNow = false) : j.runAt.isSome = true := by
  obtain ⟨runAt, asked, rfl, _⟩ := passes_createJob answer
  rw [later] at asked
  exact dated_firstRunAt asked

private theorem dated_createPipeline {r : CreatePipeline} (answer : (e.createPipeline r).2 = .ok p)
    (later : r.runNow = false) (first : p.jobs.head? = some j) : j.runAt.isSome = true := by
  obtain ⟨runAt, asked, rfl, _⟩ := passes_createPipeline answer
  rw [List.head?_eq_getElem?, getElem?_pipelineOfRequest] at first
  obtain ⟨step, _, rfl⟩ := Option.map_eq_some_iff.mp first
  rw [later] at asked
  exact dated_firstRunAt asked

/-! ### Jobs out of the queue -/

/-- Whether a tick that submits the job gets nowhere: it is a disabled standalone job, or belongs
to a pipeline that cannot be read, or that is disabled and cannot be armed again. -/
def drops (e : Engine) (job : Job) : Bool :=
  match job.pipelineId with
  | none => job.disable
  | some id =>
    match e.store.getPipeline id with
    | .ok p => p.disable && !(p.recycle e.now).2.isOk
    | .error err => err = .unreadable

/-- A job that runs is stored as scheduled, wherever its work waits. -/
theorem stored_of_run {c : Chain} (runs : e.resolve job = (e, .run c))
    (open_ : e.store.isClosed = false) (known : (e.store.jobs.get? job.id).isSome = true)
    (accepts : e.pool.isAccepting = true) (done : e.submit job = (e', answer)) :
    e'.store.jobs.get? job.id = some (job.markScheduled e.now) := by
  have resolved := resolve_resolved runs
  obtain ⟨w, made⟩ := resolved.makes_work e.now
  have updated := Store.updateJob_stored (j := job.markScheduled e.now) open_ known
  simp only [submit, runs, resolved.head, updated, sendChain, made] at done
  have stored : (e.store.withJob (job.markScheduled e.now)).jobs.get? job.id =
      some (job.markScheduled e.now) := Table.get?_put_self _ _ _
  split at done
  next =>
    cases done
    exact stored
  next =>
    cases done
    exact stored
  next refused =>
    unfold Pool.send at refused
    rw [withStore, accepts, if_neg (by simp)] at refused
    split at refused <;> cases refused

/-- The first job of an idle pipeline runs it, however old the copy is. -/
theorem resolve_first (consistent : e.store.Consistent n) (open_ : e.store.isClosed = false)
    (copy : e.store.IsCopy n job) (owner : job.pipelineId = some id)
    (read : e.store.getPipeline id = .ok p) (runs : p.isRearmed = false)
    (first : p.headId = some job.id) (idle : p.status.isActive = false) :
    ∃ c, e.resolve job = (e, .run c) := by
  obtain ⟨head, rest, jobs⟩ : ∃ head rest, p.jobs = head :: rest := by
    cases listed : p.jobs with
    | nil => simp [Pipeline.headId, listed] at first
    | cons head rest => exact ⟨head, rest, rfl⟩
  have links := consistent.links open_ read
  have key : head.id = job.id := by simpa [Pipeline.headId, jobs] using first
  have next : head.nextJobId = job.nextJobId := by
    obtain ⟨row, stored, rereads⟩ := Store.getJob_ok (links 0 head (by simp [jobs])).1
    rw [← Job.nextJobId_of_origin (copy.agrees row (key ▸ stored)),
      Job.nextJobId_of_origin (Job.origin_reread rereads)]
  rw [jobs] at links
  have loaded : loadChain e.store p.id rest.length head = .ok (head :: rest) := loadChain_of_links links
  have chained := loadChain_congr next loaded
  obtain ⟨c, linked, _⟩ := Chain.ofList_cons job rest
  simp only [Pipeline.isRearmed, Bool.or_eq_false_iff] at runs
  refine ⟨c, ?_⟩
  simp [resolve, owner, read, runs.1, runs.2, first, idle, jobs, chained, linked]

/-- When a disabled pipeline is armed again, its first job has a run time. -/
theorem dated_of_disabled (consistent : e.store.Consistent n) (owner : job.pipelineId = some id)
    (read : e.store.getPipeline id = .ok p) (disabled : p.disable = true)
    (first : p.headId = some job.id) (served : e.drops job = false)
    (done : e.submit job = (e', answer)) (stored' : e'.store.jobs.get? job.id = some j) :
    j.runAt.isSome = true := by
  obtain ⟨q, arms⟩ : ∃ q, p.recycle e.now = (q, .ok ()) := by
    have armed : (p.recycle e.now).2.isOk = true := by
      simpa [drops, owner, read, disabled] using served
    cases recycled : p.recycle e.now with
    | mk q answer =>
      rw [recycled] at armed
      cases answer with
      | ok => exact ⟨q, rfl⟩
      | error => cases armed
  obtain ⟨_, _, recycled⟩ := Store.recyclePipeline_ok consistent read arms
  simp only [submit, resolve, owner, read, disabled, if_true, rearm, recycled] at done
  cases done
  rcases Store.putJobs_cases stored' with ⟨inside, _⟩ | ⟨_, others⟩
  · obtain ⟨d, _, t, rfl⟩ := forall₂_mem_right (Pipeline.recycle_ok arms).1 inside
    rfl
  · rw [Pipeline.headId, ← List.head?_map, ← Pipeline.ids_recycle arms] at first
    obtain ⟨k, inside, same⟩ := List.mem_map.mp (List.mem_of_head? first)
    exact absurd same (others k inside)

/-- A job out of the queue is scheduled by its submission, or has a run time then. -/
theorem submit_called (consistent : e.store.Consistent n) (open_ : e.store.isClosed = false)
    (accepts : e.pool.isAccepting = true) (copy : e.store.IsCopy n job)
    (stored : e.store.jobs.get? job.id = some i) (first : i.IsFirst)
    (idle : ∀ id row, job.pipelineId = some id → e.store.pipelines.get? id = some row →
      row.record.status = .pending)
    (served : e.drops job = false) (done : e.submit job = (e', answer))
    (stored' : e'.store.jobs.get? job.id = some j) :
    j.status ≠ .pending ∨ j.runAt.isSome = true := by
  have scheduled {c : Chain} (runs : e.resolve job = (e, .run c)) :
      j.status ≠ .pending ∨ j.runAt.isSome = true := by
    have row := stored_of_run runs open_ (by simp [stored]) accepts done
    cases row.symm.trans stored'
    exact Or.inl nofun
  cases owner : job.pipelineId with
  | none =>
    have enabled : job.disable = false := by simpa [drops, owner] using served
    exact scheduled (c := .single job) (by simp [resolve, owner, enabled])
  | some id =>
    have owned : i.pipelineId = some id :=
      (Job.pipelineId_of_origin (copy.agrees i stored)).trans owner
    obtain ⟨row, found, _⟩ := consistent.linked.owned job.id i id stored owned
    cases read : e.store.getPipeline id with
    | error err =>
      have unreadable := Store.unreadable_of_getPipeline open_ found read
      simp [drops, owner, read, unreadable] at served
    | ok p =>
      obtain ⟨_, loaded⟩ := consistent.loaded read
      cases found.symm.trans loaded.found
      have heads : p.headId = some job.id := by
        rw [loaded.headId, ← consistent.linked.first_iff found stored owned]
        simpa [Job.IsFirst, owned] using first
      cases disabled : p.disable with
      | false =>
        have pending : p.status = .pending := loaded.status.trans (idle id row owner found)
        obtain ⟨c, runs⟩ := resolve_first consistent open_ copy owner read
          (by simp [Pipeline.isRearmed, disabled, pending]) heads (by rw [pending]; rfl)
        exact scheduled runs
      | true =>
        exact Or.inr (dated_of_disabled consistent owner read disabled heads served done stored')

end Engine

def Action.isQueueing : Action → Bool
  | .createJob _ | .createPipeline _ | .look | .closeQueue => true
  | _ => false

namespace System

variable {s : System} {a : Action} {id : Id} {c j : Job}

def IsOpen (s : System) (_ : Action) : Prop :=
  s.engine.store.isClosed = false ∧ s.engine.pool.isAccepting = true

/-- Whether a tick loses a job out of the queue in this step: it cannot be read, or submitting it
gets nowhere. -/
def loses (s : System) : Action → Bool
  | .look =>
    match s.engine.queue.jobs.head?.bind fun c => s.engine.store.jobs.get? c.id with
    | some i => maxDepth < i.depth
    | none => false
  | .submit place =>
    match s.ticks[place]? with
    | some ⟨false, c :: _, _⟩ => s.engine.drops c
    | _ => false
  | _ => false

def Serves (s : System) (a : Action) : Prop := s.loses a = false

def Unexecuted (id : Id) (s : System) (_ : Action) : Prop :=
  ∀ x ∈ s.engine.pool.executing, x.current.id ≠ id

instance (s : System) (a : Action) : Decidable (s.IsOpen a) :=
  inferInstanceAs (Decidable (_ ∧ _))

instance (s : System) (a : Action) : Decidable (s.Serves a) :=
  inferInstanceAs (Decidable (_ = false))

instance (id : Id) (s : System) (a : Action) : Decidable (Unexecuted id s a) :=
  inferInstanceAs (Decidable (∀ x ∈ s.engine.pool.executing, x.current.id ≠ id))

/-- The job has a run time, or it is in the queue, or a tick that took it out of the queue has
still to submit it. -/
def Awaits (s : System) (id : Id) (j : Job) : Prop :=
  j.runAt.isSome = true ∨ ∃ c ∈ s.called, c.id = id

/-! ### What stays called -/

def LooksOnce (s : System) : Prop :=
  ∀ t ∈ s.ticks, t.isScan = false → t.due = [] ∨ t.ticket = none ∧ ∃ c, t.due = [c]

private theorem mem_called : c ∈ s.called ↔
    c ∈ s.engine.queue.jobs ∨ ∃ t ∈ s.ticks, t.isScan = false ∧ c ∈ t.due := by
  simp [called, Tick.allDue, and_assoc]

theorem LooksOnce.perform (looks : s.LooksOnce) (a : Action) : (s.perform a).LooksOnce := by
  have same (ticks : (s.perform a).ticks = s.ticks) : (s.perform a).LooksOnce := by
    unfold LooksOnce
    rwa [ticks]
  cases a with
  | scan =>
    simp only [System.perform, System.scan]
    split
    next =>
      intro t member kind
      rcases List.mem_append.mp member with old | new
      · exact looks t old kind
      · rw [List.mem_singleton.mp new] at kind
        cases kind
    next => exact looks
  | look =>
    simp only [System.perform, System.look]
    split
    next => exact looks
    next =>
      split
      next =>
        intro t member kind
        rcases List.mem_append.mp member with old | new
        · exact looks t old kind
        · rw [List.mem_singleton.mp new]
          exact Or.inr ⟨rfl, _, rfl⟩
      next => exact looks
  | submit place =>
    simp only [System.perform, submitNext]
    split
    next isScan job rest ticket here =>
      split
      next => exact looks
      next =>
        intro t member kind
        have set (ticket' : Option Nat) (inside : t ∈ s.ticks.set place ⟨isScan, rest, ticket'⟩) :
            t.due = [] ∨ t.ticket = none ∧ ∃ c, t.due = [c] := by
          rcases List.mem_or_eq_of_mem_set inside with old | rfl
          · exact looks t old kind
          · rcases looks _ (List.mem_of_getElem? here) kind with none_ | ⟨_, c, one⟩
            · cases none_
            · cases one
              exact Or.inl rfl
        unfold afterSubmission at member
        split at member
        next => exact looks t (List.mem_of_mem_eraseIdx member) kind
        next => exact set _ member
        next => exact set _ member
    next => exact looks
  | abandon place =>
    simp only [System.perform, System.abandon]
    split
    next =>
      split
      next => exact fun t member => looks t (List.mem_of_mem_eraseIdx member)
      next => exact looks
    next => exact looks
  | take => exact same (ticks_take s)
  | proceed place => exact same (ticks_proceed s place)
  | finish place result => exact same (ticks_finish s place result)
  | save place => exact same (ticks_save s place)
  | _ => exact same rfl

private theorem JobQueue.pop_some {q q' : JobQueue} (popped : q.pop = (some c, q')) :
    ∃ rest, q.jobs = c :: rest ∧ q' = { q with jobs := rest } := by
  unfold JobQueue.pop at popped
  split at popped
  next => cases popped
  next =>
    split at popped
    next => cases popped
    next listed =>
      cases popped
      exact ⟨_, listed, rfl⟩

/-- Only admissions, looks and closing touch the queue. -/
theorem queue_perform (quiet : a.isQueueing = false) :
    (s.perform a).engine.queue = s.engine.queue := by
  by_cases manages : a.isManagement = true
  · obtain ⟨store, kept⟩ := perform_management (s := s) manages
    rw [kept]
    rfl
  · cases a with
    | createJob | createPipeline | look | closeQueue => cases quiet
    | submit place => exact queue_submitNext s place
    | proceed place => exact queue_proceed s place
    | finish place result => exact queue_finish s place result
    | scan =>
      simp only [perform, scan]
      split <;> rfl
    | abandon place =>
      simp only [perform, abandon]
      split
      next => split <;> rfl
      next => rfl
    | take =>
      simp only [perform, take]
      split
      next => split <;> rfl
      next => rfl
    | save place =>
      simp only [perform, save]
      split
      next => rfl
      next => split <;> rfl
    | start | stop | cancel | advance => rfl
    | _ => exact absurd rfl manages

/-- Only a look takes something out of the queue, and that is the first. -/
theorem queued_stays (member : c ∈ s.engine.queue.jobs) :
    c ∈ (s.perform a).engine.queue.jobs ∨
      a = .look ∧ s.engine.queue.jobs.head? = some c ∧
        ∀ d, s.engine.store.getJob c.id = .ok d → d ∈ (s.perform a).called := by
  by_cases quiet : a.isQueueing = false
  · rw [queue_perform quiet]
    exact Or.inl member
  · cases a with
    | createJob r =>
      have done := Engine.createJob_created s.engine r
      simp only [perform, withEngine]
      generalize (s.engine.createJob r).1 = e', (s.engine.createJob r).2 = answer at done ⊢
      cases done with
      | created _ _ _ _ queued => exact Or.inl (queued ▸ List.mem_append_left _ member)
      | _ => exact Or.inl member
    | createPipeline r =>
      have done := Engine.createPipeline_created s.engine r
      simp only [perform, withEngine]
      generalize (s.engine.createPipeline r).1 = e', (s.engine.createPipeline r).2 = answer
        at done ⊢
      cases done with
      | created _ _ _ _ _ _ queued => exact Or.inl (queued ▸ List.mem_append_left _ member)
      | _ => exact Or.inl member
    | look =>
      simp only [perform, look]
      split
      next => exact Or.inl member
      next first queue popped =>
        obtain ⟨rest, listed, rfl⟩ := JobQueue.pop_some popped
        rw [listed] at member ⊢
        rcases List.mem_cons.mp member with rfl | behind
        · refine Or.inr ⟨trivial, rfl, fun d read => ?_⟩
          simp only [read]
          exact mem_called.mpr (Or.inr ⟨_, List.mem_append_right _ (List.mem_singleton_self _), rfl,
            List.mem_singleton_self _⟩)
        · left
          split <;> exact behind
    | closeQueue => exact Or.inl member
    | _ => exact absurd rfl quiet

/-- A look's tick goes only by submitting its job. -/
theorem looked_stays {t : Tick} (member : t ∈ s.ticks) (kind : t.isScan = false)
    (one : t.due = [c]) (free : t.ticket = none) :
    t ∈ (s.perform a).ticks ∨ ∃ place, a = .submit place ∧ s.ticks[place]? = some t := by
  have same (ticks : (s.perform a).ticks = s.ticks) : t ∈ (s.perform a).ticks := ticks ▸ member
  cases a with
  | scan =>
    simp only [perform, scan]
    split
    next => exact Or.inl (List.mem_append_left _ member)
    next => exact Or.inl member
  | look =>
    simp only [perform, look]
    split
    next => exact Or.inl member
    next =>
      split
      next => exact Or.inl (List.mem_append_left _ member)
      next => exact Or.inl member
  | submit place =>
    simp only [perform, submitNext]
    split
    next isScan job rest ticket here =>
      split
      next => exact Or.inl member
      next =>
        rcases List.mem_cons.mp ((perm_eraseIdx here).mem_iff.mp member) with own | other
        · exact Or.inr ⟨place, rfl, own ▸ here⟩
        · have lt := (List.getElem?_eq_some_iff.mp here).1
          have set (t' : Tick) : t ∈ s.ticks.set place t' :=
            (List.set_perm_cons_eraseIdx lt t').mem_iff.mpr (List.mem_cons_of_mem _ other)
          left
          unfold afterSubmission
          split
          next => exact other
          next => exact set _
          next => exact set _
    next => exact Or.inl member
  | abandon place =>
    simp only [perform, abandon]
    split
    next here =>
      split
      next =>
        rcases List.mem_cons.mp ((perm_eraseIdx here).mem_iff.mp member) with rfl | other
        · cases free
        · exact Or.inl other
      next => exact Or.inl member
    next => exact Or.inl member
  | take => exact Or.inl (same (ticks_take s))
  | proceed place => exact Or.inl (same (ticks_proceed s place))
  | finish place result => exact Or.inl (same (ticks_finish s place result))
  | save place => exact Or.inl (same (ticks_save s place))
  | _ => exact Or.inl (same rfl)

/-- A job that is called for stays so, if no tick loses it, until it is submitted. -/
theorem called_stays (sound : s.Sound) (looks : s.LooksOnce) (open_ : s.IsOpen a)
    (serves : s.Serves a) (stored : s.engine.store.jobs.get? c.id = some j) (member : c ∈ s.called) :
    (∃ d ∈ (s.perform a).called, d.id = c.id) ∨
      ∃ place, a = .submit place ∧ s.ticks[place]? = some ⟨false, [c], none⟩ := by
  rcases mem_called.mp member with queued | ⟨t, inside, kind, own⟩
  · rcases queued_stays (a := a) queued with still | ⟨rfl, first, looked⟩
    · exact Or.inl ⟨c, mem_called.mpr (Or.inl still), rfl⟩
    · have shallow : j.depth ≤ maxDepth := by
        simpa [Serves, loses, first, stored] using serves
      obtain ⟨d, rereads⟩ := Job.reread_ok_iff.mpr shallow
      have read := Store.getJob_of_reread open_.1 stored rereads
      exact Or.inl ⟨d, looked d read, (sound.consistent.isCopy_getJob read).2⟩
  · rcases looks t inside kind with none_ | ⟨free, d, one⟩
    · rw [none_] at own
      cases own
    · rw [one] at own
      cases List.mem_singleton.mp own
      rcases looked_stays (a := a) inside kind one free with still | ⟨place, asked, here⟩
      · exact Or.inl ⟨c, mem_called.mpr (Or.inr ⟨t, still, kind, by simp [one]⟩), rfl⟩
      · cases t
        cases kind
        cases one
        cases free
        exact Or.inr ⟨place, asked, here⟩

/-! ### New jobs wait -/

private theorem awaits_createJob {r : CreateJob}
    (stored : (s.engine.createJob r).1.store.jobs.get? id = some j) :
    s.engine.store.jobs.get? id = some j ∨ (s.perform (.createJob r)).Awaits id j := by
  have done := Engine.createJob_created s.engine r
  have dated := Engine.dated_createJob (e := s.engine) (r := r) (j := j)
  unfold Awaits called
  simp only [perform, withEngine]
  generalize (s.engine.createJob r).1 = e', (s.engine.createJob r).2 = answer at *
  cases done with
  | refused => exact Or.inl stored
  | undone _ k =>
    obtain ⟨different, there⟩ := Table.get?_of_erase stored
    rw [Store.withJob, Table.get?_put_ne _ _ different] at there
    exact Or.inl there
  | created k runAt queue asked queued =>
    rcases Table.get?_put_cases stored with ⟨same, rfl⟩ | ⟨_, before⟩
    · refine Or.inr ?_
      cases now : r.runNow with
      | false => exact Or.inl (dated rfl now)
      | true =>
        rw [now, if_pos rfl] at queued
        exact Or.inr ⟨j, by simp [queued], same.symm⟩
    · exact Or.inl before

private theorem awaits_createPipeline {r : CreatePipeline} (short : r.jobs.length < 4294967296)
    (stored : (s.engine.createPipeline r).1.store.jobs.get? id = some j) (first : j.IsFirst) :
    s.engine.store.jobs.get? id = some j ∨ (s.perform (.createPipeline r)).Awaits id j := by
  have done := Engine.createPipeline_created s.engine r
  have dated (p : Pipeline) := Engine.dated_createPipeline (e := s.engine) (r := r) (j := j) (p := p)
  unfold Awaits called
  simp only [perform, withEngine]
  generalize (s.engine.createPipeline r).1 = e', (s.engine.createPipeline r).2 = answer at *
  cases done with
  | refused => exact Or.inl stored
  | undone _ p =>
    obtain ⟨outside, there⟩ := Table.get?_of_eraseAll stored
    rcases Store.putJobs_cases there with ⟨inside, same⟩ | ⟨before, _⟩
    · exact absurd (List.mem_map.mpr ⟨j, inside, same⟩) outside
    · exact Or.inl before
  | created p runAt queue asked isNew length queued =>
    rcases Store.putJobs_cases stored with ⟨inside, same⟩ | ⟨before, _⟩
    · obtain ⟨i, here⟩ := List.mem_iff_getElem?.mp inside
      have lt := (List.getElem?_eq_some_iff.mp here).1
      obtain ⟨_, owner, sequence, _⟩ := isNew.placed i j here
      have zero : i = 0 := by
        have place : j.sequence = 0 := by simpa [Job.IsFirst, owner] using first
        have number := congrArg UInt32.toNat (sequence.symm.trans place)
        rwa [UInt32.toNat_ofNat_of_lt' (Nat.lt_trans lt (length ▸ short))] at number
      rw [zero, ← List.head?_eq_getElem?] at here
      refine Or.inr ?_
      cases now : r.runNow with
      | false => exact Or.inl (dated p rfl now here)
      | true =>
        rw [now, if_pos rfl, here] at queued
        exact Or.inr ⟨j, by simp [queued], same⟩
    · exact Or.inl before

/-! ### Runs -/

/-- The job `id` awaits its execution if it is the first of its kind. -/
structure Unstranded (s : System) (id : Id) : Prop where
  reserved : s.Reserved
  accounted : ∃ A, s.Accounted A
  looks : s.LooksOnce
  awaits : ∀ j, s.engine.store.jobs.get? id = some j → j.IsFirst → j.status = .pending →
    s.Awaits id j

private theorem Unstranded.awaits_perform (unstranded : s.Unstranded id) (sound : s.Sound)
    (open_ : s.IsOpen a) (serves : s.Serves a) (unexecuted : Unexecuted id s a) (short : a.IsShort)
    (stored : (s.perform a).engine.store.jobs.get? id = some j) (first : j.IsFirst)
    (pending : j.status = .pending) : (s.perform a).Awaits id j := by
  obtain ⟨reserved, ⟨A, accounted⟩, looks, awaits⟩ := unstranded
  have kept {i : Job} (before : s.engine.store.jobs.get? id = some i) (first : i.IsFirst)
      (unstarted : i.status = .pending) (runAt : i.runAt = j.runAt) :
      (s.perform a).Awaits id j := by
    rcases awaits i before first unstarted with dated | ⟨c, member, rfl⟩
    · exact Or.inl (runAt ▸ dated)
    · rcases called_stays sound looks open_ serves before member with still | ⟨place, rfl, here⟩
      · exact Or.inr still
      · have copy := sound.copies c (List.mem_append_right _ member)
        have served : s.engine.drops c = false := by simpa [Serves, loses, here] using serves
        have row : (s.engine.submit c).1.store.jobs.get? c.id = some j := by
          simpa [perform, submitNext, here, Tick.isBlocked] using stored
        rcases Engine.submit_called sound.consistent open_.1 open_.2 copy before first
          (fun id row owner found => (reserved.rests c member).idle id row
            (Job.target_of_owner owner) found) served rfl row with started | dated
        · exact absurd pending started
        · exact Or.inl dated
  cases (rows_perform accounted a).1 id j stored with
  | kept before => exact kept before first pending rfl
  | admitted _ _ admits =>
    cases a with
    | createJob r =>
      rcases awaits_createJob stored with before | waits
      · exact kept before first pending rfl
      · exact waits
    | createPipeline r =>
      rcases awaits_createPipeline short stored first with before | waits
      · exact kept before first pending rfl
      · exact waits
    | _ => cases admits
  | updated r i c _ before read same =>
    subst same
    refine kept before ((Job.isFirst_of_origin (Job.origin_reread read)).mp first) ?_
      (Job.runAt_reread read).symm
    exact (Job.status_reread read).symm.trans pending
  | submitted place c _ _ row =>
    cases row with
    | kept before => exact kept before first pending rfl
    | rearmed _ _ _ _ _ _ _ _ _ same =>
      subst same
      exact Or.inl rfl
    | scheduled _ same =>
      subst same
      cases pending
    | returned _ stopped => cases stopped.symm.trans open_.2
  | started _ _ _ _ _ _ _ _ same =>
    subst same
    cases pending
  | settled _ _ x _ here _ key => exact absurd key (unexecuted x (List.mem_of_getElem? here))

/-- Each step keeps what there is to know of the job, which does not run. -/
theorem Unstranded.perform (unstranded : s.Unstranded id) (sound : s.Sound)
    (step : Step s a (s.perform a)) (distinct : Id.Distinct (s.perform a).engine.issued)
    (open_ : s.IsOpen a) (serves : s.Serves a) (unexecuted : Unexecuted id s a)
    (short : a.IsShort) : (s.perform a).Unstranded id where
  reserved := step.reserved sound unstranded.reserved distinct
  accounted := by
    obtain ⟨A, accounted⟩ := unstranded.accounted
    exact ⟨_, accounted.perform distinct⟩
  looks := unstranded.looks.perform a
  awaits _ := unstranded.awaits_perform sound open_ serves unexecuted short

variable {now : Instant} {registry : Registry} {queueCapacity : Nat} {unit : TimeUnit}
  {workers poolCapacity : Nat} {actions : List Action}

private theorem unstranded_new
    (made : new? now registry queueCapacity unit workers poolCapacity = some s) :
    s.Unstranded id where
  reserved := reserved_new made
  accounted := ⟨[], accounted_new made⟩
  looks t member := by
    rw [(new_pool made).1] at member
    cases member
  awaits j stored := by simp [(new_eq made).1, Store.empty] at stored

/-- In every run from an empty store, with storage open and the pool accepting work, in which no
tick loses a job out of the queue: a pending job that has never been executed has a run time, or is
in the queue, or a tick has it, if it is a standalone job or the first one of a pipeline. -/
theorem unstranded_run (made : new? now registry queueCapacity unit workers poolCapacity = some s)
    (short : ∀ a ∈ actions, a.IsShort) (distinct : Id.Distinct (s.run actions).engine.issued)
    (open_ : Along IsOpen s actions) (serves : Along Serves s actions)
    (stored : (s.run actions).engine.store.jobs.get? id = some j) (pending : j.status = .pending)
    (unexecuted : Along (Unexecuted id) s actions)
    (first : j.pipelineId = none ∨ ∃ pipelineId row,
      (s.run actions).engine.store.pipelines.get? pipelineId = some row ∧
        row.jobIds.head? = some id) :
    (s.run actions).Awaits id j := by
  have isShort : Along (fun _ a => a.IsShort) s actions :=
    along_of_forall (fun a member _ => short a member) s
  obtain ⟨sound, unstranded⟩ := run_keeps (P := fun t => t.Unstranded id)
    (fun t a sound unstranded allowed distinct step => unstranded.perform sound step distinct
      allowed.1.1 allowed.1.2 allowed.2.1 allowed.2.2)
    (sound_new made) (unstranded_new made) ((open_.and serves).and (unexecuted.and isShort)) short
    distinct
  refine unstranded.awaits j stored ?_ pending
  rcases first with alone | ⟨pipelineId, row, found, heads⟩
  · exact Or.inl alone
  · have linked := sound.consistent.linked
    obtain ⟨i, stored', owner⟩ := (linked.inPlace pipelineId row found).stored (List.mem_of_head? heads)
    cases stored.symm.trans stored'
    exact Or.inr ((linked.first_iff found stored owner).mpr heads)

def watchRequest : CreateJob :=
  ⟨"watch", none, "noop", [], 0, none, true, false, .default⟩

def passedPipeline : List Action :=
  [.createPipeline { exampleRequest with disable := true }, .createJob watchRequest, .start, .look,
    .submit 0]

/-- The pipeline is armed again, and the job is still in the queue. -/
theorem unstranded_passedPipeline : ∃ first alone,
    (start.run passedPipeline).engine.store.jobs.get? (.issued 1) = some first ∧
    (start.run passedPipeline).Awaits (.issued 1) first ∧
    (start.run passedPipeline).engine.store.jobs.get? (.issued 3) = some alone ∧
    (start.run passedPipeline).Awaits (.issued 3) alone := by
  have short : ∀ a ∈ passedPipeline, a.IsShort := by
    simp [passedPipeline, Action.IsShort, exampleRequest]
  have distinct : Id.Distinct (start.run passedPipeline).engine.issued :=
    Id.distinct_of_le (by decide +kernel)
  have open_ : Along IsOpen start passedPipeline := by decide +kernel
  have serves : Along Serves start passedPipeline := by decide +kernel
  have row : ((start.run passedPipeline).engine.store.jobs.get? (.issued 1)).map (·.status) =
      some .pending := by decide +kernel
  have other : ((start.run passedPipeline).engine.store.jobs.get? (.issued 3)).map
      (fun j => (j.status, j.pipelineId)) = some (.pending, none) := by decide +kernel
  have heads : ((start.run passedPipeline).engine.store.pipelines.get? (.issued 0)).map
      (·.jobIds.head?) = some (some (.issued 1)) := by decide +kernel
  obtain ⟨first, stored, pending⟩ := Option.map_eq_some_iff.mp row
  obtain ⟨alone, stored', both⟩ := Option.map_eq_some_iff.mp other
  obtain ⟨pending', noPipeline⟩ := Prod.mk.inj both
  obtain ⟨record, found, ahead⟩ := Option.map_eq_some_iff.mp heads
  exact ⟨first, alone, stored,
    unstranded_run new_start short distinct open_ serves stored pending (by decide +kernel)
      (Or.inr ⟨_, record, found, ahead⟩), stored',
    unstranded_run new_start short distinct open_ serves stored' pending' (by decide +kernel)
      (Or.inl noPipeline)⟩

def passedJob : List Action :=
  [.createJob { watchRequest with disable := true }, .start, .look, .submit 0]

/-- Nothing calls for a disabled job that was passed over, not even when it is enabled again. -/
theorem stranded_passedJob : Along IsOpen start passedJob ∧
    Along (Unexecuted (.issued 0)) start passedJob ∧
    (start.run passedJob).engine.queue.isClosed = false ∧
    (∃ j, (start.run passedJob).engine.store.jobs.get? (.issued 0) = some j ∧
      j.status = .pending ∧ j.pipelineId = none ∧ ¬(start.run passedJob).Awaits (.issued 0) j) ∧
    ∃ j, ((start.run passedJob).engine.updateJob (.issued 0) ⟨none, none, some false, none⟩).2 =
        .ok j ∧
      j.disable = false ∧ j.runAt = none ∧
      (start.run (passedJob ++ [.updateJob (.issued 0) ⟨none, none, some false, none⟩])).called =
        [] := by
  refine ⟨by decide +kernel, by decide +kernel, by decide +kernel, ?_, ?_⟩
  · have row : ((start.run passedJob).engine.store.jobs.get? (.issued 0)).map
        (fun j => (j.status, j.pipelineId, j.runAt)) = some (.pending, none, none) := by
      decide +kernel
    have empty : (start.run passedJob).called = [] :=
      List.isEmpty_iff.mp (by decide +kernel)
    obtain ⟨j, stored, fields⟩ := Option.map_eq_some_iff.mp row
    simp only [Prod.mk.injEq] at fields
    refine ⟨j, stored, fields.1, fields.2.1, ?_⟩
    rintro (dated | ⟨c, member, _⟩)
    · simp [fields.2.2] at dated
    · simp [empty] at member
  · have answer : ((start.run passedJob).engine.updateJob (.issued 0)
        ⟨none, none, some false, none⟩).2.toOption.map (fun j => (j.disable, j.runAt)) =
          some (false, none) := by decide +kernel
    obtain ⟨j, updated, fields⟩ := ok_of_toOption answer
    exact ⟨j, updated, (Prod.mk.inj fields).1, (Prod.mk.inj fields).2,
      List.isEmpty_iff.mp (by decide +kernel)⟩

end System

end Rota
