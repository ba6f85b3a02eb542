import Rota.Proofs.Chain
import Rota.Proofs.Execution
import Rota.Proofs.Loader
/-! What the scheduler reads, writes and sends.
To submit a job either sends nothing, or arms its pipeline again, or writes the job as scheduled
and sends the work that it heads; the pool can refuse that work, which is undone then. -/
namespace Rota

/-- The work of a chain has its jobs, in their order. -/
theorem Work.ofChain_ok {c : Chain} {w : Work} (made : Work.ofChain c = .ok w) :
    w.jobs = c.toList ∧
      (w.pipelineId? = none ∧ c.toList = [c.head] ∨
        ∃ id, w.pipelineId? = some id ∧ c.head.pipelineId = some id ∧ c.toList ≠ [c.head]) := by
  unfold ofChain at made
  split at made
  next job single =>
    cases made
    have first := Chain.toList_eq c
    rw [single] at first
    obtain ⟨rfl, _⟩ := List.cons.inj first
    exact ⟨single.symm, Or.inl ⟨rfl, single⟩⟩
  next several =>
    split at made
    next id owner =>
      cases made
      exact ⟨rfl, Or.inr ⟨id, rfl, owner, several _⟩⟩
    next => cases made

theorem Work.ofChain_of_several {c : Chain} {id : Id} {first next : Job} {rest : List Job}
    (jobs : c.toList = first :: next :: rest) (owner : c.head.pipelineId = some id) :
    ofChain c = .ok (.pipeline id (first :: next :: rest)) := by
  simp only [ofChain, jobs, owner]

private theorem Work.ofChain_error {c : Chain} {id : Id} (failed : Work.ofChain c = .error id) :
    c.head.pipelineId = none ∧ c.toList ≠ [c.head] := by
  unfold ofChain at failed
  split at failed
  next => cases failed
  next several =>
    split at failed
    next => cases failed
    next standalone => exact ⟨standalone, several _⟩

def Pipeline.isRearmed (p : Pipeline) : Bool :=
  p.disable || (p.options.cancelOnFailure && p.status = .failed)

theorem Pipeline.isRearmed_congr {p q : Pipeline} (details : p.details = q.details)
    (status : p.status = q.status) : p.isRearmed = q.isRearmed := by
  have disable : p.disable = q.disable := congrArg PipelineDetails.disable details
  have options : p.options = q.options := congrArg PipelineDetails.options details
  rw [isRearmed, isRearmed, disable, options, status]

namespace Engine

variable {e e' : Engine} {job : Job} {p : Pipeline}

inductive Resolved (e : Engine) (job : Job) : Engine → Resolution → Prop
  | passedOver (r : Resolution) (noRun : ∀ c, r ≠ .run c) : Resolved e job e r
  | rearmed (id : Id) (p : Pipeline) (store : Store) (jobs : List Job) (records : List Pipeline)
      (r : Resolution) (owner : job.pipelineId = some id) (read : e.store.getPipeline id = .ok p)
      (holds : p.isRearmed = true) (edited : Store.Edited e.store store jobs records)
      (pendingJobs : ∀ k ∈ jobs, k.status = .pending ∧
        ∃ j ∈ p.jobs, k.origin = j.origin ∧ k.details = j.details)
      (pendingRecords : ∀ q ∈ records, q.id = p.id ∧ q.status = .pending ∧ q.details = p.details)
      (noRun : ∀ c, r ≠ .run c) : Resolved e job (e.withStore store) r
  | alone (standalone : job.pipelineId = none) : Resolved e job e (.run (.single job))
  | whole (id : Id) (p : Pipeline) (chain : List Job) (c : Chain)
      (owner : job.pipelineId = some id) (read : e.store.getPipeline id = .ok p)
      (runs : p.isRearmed = false) (first : p.headId = some job.id)
      (idle : p.status.isActive = false)
      (loaded : loadChain e.store p.id (p.jobs.length - 1) job = .ok chain)
      (covers : chain.length = p.jobs.length) (linked : Chain.ofList? chain = some c) :
      Resolved e job e (.run c)

/-- The chain that a job runs through: the job alone, or its pipeline as far as the links in the
store lead. -/
inductive RunsThrough (e : Engine) (job : Job) : Chain → Prop
  | alone (standalone : job.pipelineId = none) : RunsThrough e job (.single job)
  | whole (id : Id) (p : Pipeline) (chain : List Job) (c : Chain)
      (owner : job.pipelineId = some id) (read : e.store.getPipeline id = .ok p)
      (runs : p.isRearmed = false) (first : p.headId = some job.id)
      (idle : p.status.isActive = false)
      (loaded : loadChain e.store p.id (p.jobs.length - 1) job = .ok chain)
      (covers : chain.length = p.jobs.length) (linked : Chain.ofList? chain = some c) :
      RunsThrough e job c

theorem Resolved.runsThrough {c : Chain} (resolved : Resolved e job e' (.run c)) :
    e.RunsThrough job c := by
  cases resolved with
  | passedOver _ noRun => exact absurd rfl (noRun c)
  | rearmed _ _ _ _ _ _ _ _ _ _ _ _ noRun => exact absurd rfl (noRun c)
  | alone standalone => exact .alone standalone
  | whole id p chain _ owner read runs first idle loaded covers linked =>
    exact .whole id p chain c owner read runs first idle loaded covers linked

theorem rearm_spec {r : Resolution} (done : e.rearm p = (e', r)) :
    ∃ store jobs records, e' = e.withStore store ∧ Store.Edited e.store store jobs records ∧
      (∀ k ∈ jobs, k.status = .pending ∧
        ∃ j ∈ p.jobs, k.origin = j.origin ∧ k.details = j.details) ∧
      (∀ q ∈ records, q.id = p.id ∧ q.status = .pending ∧ q.details = p.details) ∧
      ∀ c, r ≠ .run c := by
  unfold rearm at done
  split at done
  all_goals
    next recycled =>
      cases done
      obtain ⟨jobs, records, edited, pendingJobs, pendingRecords⟩ :=
        Store.recyclePipeline_edited recycled
      exact ⟨_, jobs, records, rfl, edited, pendingJobs, pendingRecords, by simp⟩

theorem resolve_resolved {r : Resolution} (done : e.resolve job = (e', r)) :
    Resolved e job e' r := by
  unfold resolve at done
  split at done
  next standalone =>
    cases done
    split
    next => exact .passedOver _ (by simp)
    next => exact .alone standalone
  next id owner =>
    split at done
    next =>
      cases done
      exact .passedOver _ (by simp)
    next p read =>
      have rearms (holds : p.isRearmed = true) (done : e.rearm p = (e', r)) :
          Resolved e job e' r := by
        obtain ⟨store, jobs, records, rfl, edited, pendingJobs, pendingRecords, noRun⟩ :=
          rearm_spec done
        exact .rearmed id p store jobs records r owner read holds edited pendingJobs
          pendingRecords noRun
      split at done
      next disabled => exact rearms (by simp [Pipeline.isRearmed, disabled]) done
      next enabled =>
        split at done
        next failed => exact rearms (by simp [Pipeline.isRearmed, failed]) done
        next unfailed =>
          have runs : p.isRearmed = false := by
            simpa [Pipeline.isRearmed, enabled] using unfailed
          split at done
          next => cases done; exact .passedOver _ (by simp)
          next first =>
            split at done
            next => cases done; exact .passedOver _ (by simp)
            next idle =>
              split at done
              next => cases done; exact .passedOver _ (by simp)
              next chain loaded =>
                split at done
                next => cases done; exact .passedOver _ (by simp)
                next covers =>
                  split at done
                  next c linked =>
                    cases done
                    exact .whole id p chain c owner read runs (by simpa using first)
                      (by simpa using idle) loaded (by simpa using covers) linked
                  next => cases done; exact .passedOver _ (by simp)

theorem resolve_skip {id : Id} (owner : job.pipelineId = some id)
    (read : e.store.getPipeline id = .ok p) (runs : p.isRearmed = false)
    (other : p.headId ≠ some job.id ∨ p.status.isActive = true) : e.resolve job = (e, .skip) := by
  simp only [Pipeline.isRearmed, Bool.or_eq_false_iff] at runs
  obtain ⟨enabled, unfailed⟩ := runs
  simp only [resolve, owner, read, enabled, unfailed, Bool.false_eq_true, if_false]
  rcases other with elsewhere | active
  · rw [if_pos elsewhere]
  · rw [active]
    split <;> rfl

theorem resolve_run {id : Id} {chain : List Job} {c : Chain} (owner : job.pipelineId = some id)
    (read : e.store.getPipeline id = .ok p) (runs : p.isRearmed = false)
    (first : p.headId = some job.id) (idle : p.status.isActive = false)
    (loaded : loadChain e.store p.id (p.jobs.length - 1) job = .ok chain)
    (long : chain.length = p.jobs.length) (linked : Chain.ofList? chain = some c) :
    e.resolve job = (e, .run c) := by
  simp only [Pipeline.isRearmed, Bool.or_eq_false_iff] at runs
  obtain ⟨enabled, unfailed⟩ := runs
  simp [resolve, owner, read, enabled, unfailed, first, idle, loaded, long, linked]

inductive Submitted (e : Engine) (job : Job) : Engine → Submission → Prop
  | unsent (s : Submission) (noTicket : ∀ t, s ≠ .waiting t) : Submitted e job e s
  | rearmed (id : Id) (p : Pipeline) (store : Store) (jobs : List Job) (records : List Pipeline)
      (s : Submission) (owner : job.pipelineId = some id) (read : e.store.getPipeline id = .ok p)
      (holds : p.isRearmed = true) (edited : Store.Edited e.store store jobs records)
      (pendingJobs : ∀ k ∈ jobs, k.status = .pending ∧
        ∃ j ∈ p.jobs, k.origin = j.origin ∧ k.details = j.details)
      (pendingRecords : ∀ q ∈ records, q.id = p.id ∧ q.status = .pending ∧ q.details = p.details)
      (noTicket : ∀ t, s ≠ .waiting t) : Submitted e job (e.withStore store) s
  | refused (c : Chain) (store : Store) (s : Submission) (undone : List Job)
      (resolved : Resolved e job e (.run c))
      (edited : Store.Edited e.store store (job.markScheduled e.now :: undone) [])
      (back : undone = [(job.markScheduled e.now).markPending] ∨
        undone = [] ∧ (e.store.isClosed = false → e.store.jobs.get? job.id = none))
      (noTicket : ∀ t, s ≠ .waiting t) : Submitted e job (e.withStore store) s
  | sent (c : Chain) (w : Work) (store : Store) (pool : Pool) (answer : Sent) (s : Submission)
      (resolved : Resolved e job e (.run c))
      (made : Work.ofChain (c.withHead (job.markScheduled e.now)) = .ok w)
      (edited : Store.Edited e.store store [job.markScheduled e.now] [])
      (taken : e.pool.send ⟨w, true⟩ = (pool, answer)) (accepted : answer ≠ .refused)
      (ticket : ∀ t, s = .waiting t ↔ answer = .waiting t) :
      Submitted e job { e with store := store, pool := pool } s

/-- The chain to run starts with the job that was submitted. -/
theorem Resolved.head {c : Chain} (resolved : Resolved e job e' (.run c)) : c.head = job := by
  cases resolved.runsThrough with
  | alone => rfl
  | whole id p chain _ owner read runs first idle loaded covers linked =>
    obtain ⟨rest, rfl⟩ := loadChain_cons loaded
    obtain ⟨_, same, head, _⟩ := Chain.ofList_cons job rest
    rw [linked] at same
    cases same
    exact head

/-- What runs is decided on without a change. -/
theorem Resolved.unchanged {c : Chain} (resolved : Resolved e job e' (.run c)) : e' = e := by
  cases resolved with
  | passedOver => rfl
  | rearmed _ _ _ _ _ _ _ _ _ _ _ _ noRun => exact absurd rfl (noRun c)
  | alone => rfl
  | whole => rfl

/-- The chain to run makes a work. -/
theorem Resolved.makes_work {c : Chain} (resolved : Resolved e job e' (.run c)) (t : Instant) :
    ∃ w, Work.ofChain (c.withHead (job.markScheduled t)) = .ok w := by
  cases made : Work.ofChain (c.withHead (job.markScheduled t)) with
  | ok w => exact ⟨w, rfl⟩
  | error id =>
    obtain ⟨standalone, several⟩ := Work.ofChain_error made
    rw [Chain.head_withHead] at standalone several
    rw [Chain.toList_withHead] at several
    cases resolved.runsThrough with
    | alone => exact absurd rfl several
    | whole id p chain _ owner =>
      rw [show (job.markScheduled t).pipelineId = some id from owner] at standalone
      cases standalone

/-- A pipeline runs through its first job, and only while it is idle. -/
theorem Resolved.idle {c : Chain} {id : Id} (resolved : Resolved e job e' (.run c))
    (owner : job.pipelineId = some id) : ∃ p, e.store.getPipeline id = .ok p ∧
      p.headId = some job.id ∧ p.status.isActive = false ∧ p.isRearmed = false := by
  cases resolved.runsThrough with
  | alone standalone =>
    rw [standalone] at owner
    cases owner
  | whole id' p _ _ owner' read runs first idle =>
    rw [owner] at owner'
    cases owner'
    exact ⟨p, read, first, idle, runs⟩

/-- A job that runs is marked as scheduled before its work is sent. -/
theorem submit_decided {c : Chain} (runs : e.resolve job = (e, .run c)) (first : c.head = job)
    (open_ : e.store.isClosed = false) (known : (e.store.jobs.get? job.id).isSome = true) :
    e.submit job = (e.withStore { e.store with
      jobs := e.store.jobs.put job.id (job.markScheduled e.now) }).sendChain
        (c.withHead (job.markScheduled e.now)) := by
  have updated : e.store.updateJob (job.markScheduled e.now) =
      .ok { e.store with jobs := e.store.jobs.put job.id (job.markScheduled e.now) } :=
    Store.updateJob_known open_ known
  simp [submit, runs, first, updated]

/-- A job that runs is submitted when the pool has room for its work. -/
theorem submit_run {c : Chain} {w : Work} (runs : e.resolve job = (e, .run c)) (first : c.head = job)
    (made : Work.ofChain (c.withHead (job.markScheduled e.now)) = .ok w)
    (open_ : e.store.isClosed = false) (known : (e.store.jobs.get? job.id).isSome = true)
    (accepts : e.pool.isAccepting = true) (room : e.pool.hasRoom = true) :
    e.submit job = ({ e with
      store := { e.store with jobs := e.store.jobs.put job.id (job.markScheduled e.now) }
      pool := { e.pool with channel := e.pool.channel ++ [⟨w, true⟩] } }, .submitted) := by
  rw [submit_decided runs first open_ known]
  simp [sendChain, withStore, made, Pool.send, accepts, room]

theorem submit_submitted {s : Submission} (done : e.submit job = (e', s)) :
    Submitted e job e' s := by
  unfold submit at done
  obtain ⟨e₁, r, resolves⟩ : ∃ e₁ r, e.resolve job = (e₁, r) := ⟨_, _, rfl⟩
  have resolved := resolve_resolved resolves
  rw [resolves] at done
  have stays (noRun : ∀ c, r ≠ .run c) (noTicket : ∀ t, s ≠ .waiting t) :
      Submitted e job e₁ s := by
    cases resolved with
    | passedOver => exact .unsent s noTicket
    | rearmed id p store jobs records _ owner read holds edited pendingJobs pendingRecords =>
      exact .rearmed id p store jobs records s owner read holds edited pendingJobs
        pendingRecords noTicket
    | alone => exact absurd rfl (noRun _)
    | whole => exact absurd rfl (noRun _)
  cases r with
  | skip => cases done; exact stays (by simp) (by simp)
  | fail => cases done; exact stays (by simp) (by simp)
  | overflow => cases done; exact stays (by simp) (by simp)
  | run c =>
    have first := resolved.head
    obtain rfl := resolved.unchanged
    dsimp only at done
    rw [first] at done
    split at done
    next => cases done; exact .unsent _ (by simp)
    next store updated =>
      have edited := (Store.updateJob_ok updated).1
      unfold sendChain at done
      obtain ⟨w, made⟩ := resolved.makes_work e₁.now
      rw [made] at done
      dsimp only at done
      split at done
      next pool sends =>
        cases done
        exact .sent c w store pool _ _ resolved made edited sends (by simp) (by simp)
      next pool ticket sends =>
        cases done
        exact .sent c w store pool _ _ resolved made edited sends (by simp) (by simp)
      next =>
        unfold unschedule at done
        rw [Chain.head_withHead] at done
        split at done
        next back undone =>
          cases done
          exact .refused c back _ _ resolved (edited.trans (Store.updateJob_ok undone).1) (Or.inl rfl)
            (by simp)
        next failed =>
          cases done
          refine .refused c store _ [] resolved edited (Or.inr ⟨rfl, fun open_ => ?_⟩) (by simp)
          have missing := Store.updateJob_error failed (edited.closed.trans open_)
          rw [store_withStore, edited.jobs] at missing
          have kept := Store.isSome_putJobs edited.known job.id
          have absent : (e₁.store.jobs.get? job.id).isSome = false := by
            rw [← kept]
            exact Option.isSome_eq_false_iff.mpr (Option.isNone_iff_eq_none.mpr missing)
          simpa using absent

end Engine

end Rota
