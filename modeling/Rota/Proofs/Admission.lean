import Rota.Proofs.Checks
import Rota.Proofs.Linkage
/-! What calls of admission read and write.
A call that is refused leaves jobs, pipelines and queue as they are. Any other adds a job or a
pipeline under fresh identifiers, writes over one record, or erases records together with all that
belongs to them. -/
namespace Rota

/-- A pipeline as it is admitted, with identifiers issued from number `n` on. -/
structure Pipeline.IsNew (p : Pipeline) (n : Nat) : Prop where
  key : p.id = Id.issued n
  pending : p.status = .pending
  several : 2 ≤ p.jobs.length
  placed : ∀ i j, p.jobs[i]? = some j → j.id = Id.issued (n + 1 + i) ∧
    j.pipelineId = some p.id ∧ j.sequence = UInt32.ofNat i ∧ j.status = .pending ∧
    j.nextJobId = p.jobs[i + 1]?.map (·.id)

theorem Pipeline.several_of_validate {p : Pipeline} {v : Unit} (valid : p.validate = .ok v) :
    2 ≤ p.jobs.length := (validate_ok_iff.mp valid).2.1

namespace Engine

variable {e e' : Engine} {id : Id}

/-! ### New pipelines -/

section

variable (pipelineId : Id) (interval : Option String) (now : Instant)

private theorem getElem?_jobsOfSteps (position issued : Nat) (steps : List CreatePipelineJob)
    (i : Nat) :
    (jobsOfSteps pipelineId interval now position issued steps)[i]? = steps[i]?.map fun r =>
      { jobOfStep (Id.issued (issued + i)) pipelineId (position + i) interval r now with
        nextJobId := if i + 1 < steps.length then some (Id.issued (issued + i + 1)) else none } := by
  induction steps generalizing position issued i with
  | nil => rfl
  | cons r rest ih =>
    cases i with
    | zero => cases rest <;> simp [jobsOfSteps]
    | succ i =>
      have place : position + 1 + i = position + (i + 1) := by omega
      have number : issued + 1 + i = issued + (i + 1) := by omega
      rw [jobsOfSteps, List.getElem?_cons_succ, List.getElem?_cons_succ, ih, place, number,
        List.length_cons]
      simp only [Nat.add_lt_add_iff_right]

private theorem length_jobsOfSteps (position issued : Nat) (steps : List CreatePipelineJob) :
    (jobsOfSteps pipelineId interval now position issued steps).length = steps.length := by
  induction steps generalizing position issued with
  | nil => rfl
  | cons r rest ih => simp [jobsOfSteps, ih]

private theorem jobOfStep_fields (id : Id) (position : Nat) (r : CreatePipelineJob) :
    let j := jobOfStep id pipelineId position interval r now
    j.id = id ∧ j.pipelineId = some pipelineId ∧ j.sequence = UInt32.ofNat position ∧
      j.status = .pending ∧ j.runAt = none := by
  unfold jobOfStep
  dsimp only
  split <;> exact ⟨rfl, rfl, rfl, rfl, rfl⟩

end

private theorem getElem?_withHeadRunAt (runAt : Option Instant) (jobs : List Job) (i : Nat) :
    (withHeadRunAt runAt jobs)[i]? =
      jobs[i]?.map fun j => { j with runAt := if i = 0 then runAt else j.runAt } := by
  cases jobs with
  | nil => rfl
  | cons j rest =>
    cases i with
    | zero => rfl
    | succ i => simp [withHeadRunAt]

private theorem length_withHeadRunAt (runAt : Option Instant) (jobs : List Job) :
    (withHeadRunAt runAt jobs).length = jobs.length := by
  cases jobs <;> rfl

theorem getElem?_pipelineOfRequest (n : Nat) (r : CreatePipeline) (runAt : Option Instant)
    (now : Instant) (i : Nat) : (pipelineOfRequest n r runAt now).jobs[i]? = r.jobs[i]?.map fun step =>
      { jobOfStep (Id.issued (n + 1 + i)) (Id.issued n) i r.options.runOnInterval step now with
        nextJobId := if i + 1 < r.jobs.length then some (Id.issued (n + 1 + i + 1)) else none
        runAt := if i = 0 then runAt else none } := by
  change (withHeadRunAt runAt (jobsOfSteps _ _ now 0 (n + 1) r.jobs))[i]? = _
  rw [getElem?_withHeadRunAt, getElem?_jobsOfSteps, Option.map_map, Nat.zero_add]
  congr 1
  funext step
  have fields := jobOfStep_fields (Id.issued n) r.options.runOnInterval now
    (Id.issued (n + 1 + i)) i step
  simp [fields.2.2.2.2]

theorem length_pipelineOfRequest (n : Nat) (r : CreatePipeline) (runAt : Option Instant)
    (now : Instant) : (pipelineOfRequest n r runAt now).jobs.length = r.jobs.length := by
  refine (length_withHeadRunAt runAt _).trans ?_
  exact length_jobsOfSteps _ _ now 0 (n + 1) r.jobs

theorem isNew_pipelineOfRequest (n : Nat) (r : CreatePipeline) (runAt : Option Instant)
    (now : Instant) (several : 2 ≤ r.jobs.length) : (pipelineOfRequest n r runAt now).IsNew n where
  key := rfl
  pending := rfl
  several := by rwa [length_pipelineOfRequest]
  placed i j here := by
    rw [getElem?_pipelineOfRequest] at here
    obtain ⟨step, inside, rfl⟩ := Option.map_eq_some_iff.mp here
    obtain ⟨id, owner, position, pending, _⟩ :=
      jobOfStep_fields (Id.issued n) r.options.runOnInterval now (Id.issued (n + 1 + i)) i step
    refine ⟨id, owner, position, pending, ?_⟩
    rw [getElem?_pipelineOfRequest, Option.map_map]
    by_cases more : i + 1 < r.jobs.length
    · have next := jobOfStep_fields (Id.issued n) r.options.runOnInterval now
        (Id.issued (n + 1 + (i + 1))) (i + 1) r.jobs[i + 1]
      rw [List.getElem?_eq_getElem more, Option.map_some]
      dsimp only
      rw [if_pos more]
      exact congrArg some next.1.symm
    · rw [List.getElem?_eq_none (Nat.le_of_not_lt more)]
      simp [more]

private theorem runAt_pipelineOfRequest {n : Nat} {r : CreatePipeline} {now : Instant} {j : Job}
    (member : j ∈ (pipelineOfRequest n r none now).jobs) : j.runAt = none := by
  obtain ⟨i, here⟩ := List.mem_iff_getElem?.mp member
  rw [getElem?_pipelineOfRequest] at here
  obtain ⟨step, _, rfl⟩ := Option.map_eq_some_iff.mp here
  simp

/-! ### What calls do -/

inductive Changed (e e' : Engine) : Prop
  | kept (issued : e.issued ≤ e'.issued) (jobs : e'.store.jobs = e.store.jobs)
      (pipelines : e'.store.pipelines = e.store.pipelines) (queue : e'.queue = e.queue)
  | newJob (j : Job) (issued : e'.issued = e.issued + 1) (key : j.id = Id.issued e.issued)
      (alone : j.pipelineId = none) (pending : j.status = .pending)
      (jobs : e'.store.jobs = e.store.jobs.put j.id j)
      (pipelines : e'.store.pipelines = e.store.pipelines)
      (queue : e'.queue.jobs = e.queue.jobs ∨
        e'.queue.jobs = e.queue.jobs ++ [j] ∧ j.runAt = none)
      (valid : j.validate e.registry.names = .ok ())
  | newPipeline (p : Pipeline) (issued : e'.issued = e.issued + p.jobs.length + 1)
      (isNew : p.IsNew e.issued) (short : p.jobs.length < 4294967296)
      (jobs : e'.store.jobs = Store.putJobs e.store.jobs p.jobs)
      (pipelines : e'.store.pipelines =
        e.store.pipelines.put p.id ⟨{ p with jobs := [] }, p.jobs.map (·.id)⟩)
      (queue : e'.queue.jobs = e.queue.jobs ∨ ∃ head ∈ p.jobs,
        e'.queue.jobs = e.queue.jobs ++ [head] ∧ ∀ j ∈ p.jobs, j.runAt = none)
      (valid : p.validate = .ok ())
      (validJobs : ∀ j ∈ p.jobs, j.validate e.registry.names = .ok ())
  | changedJob (j k : Job) (issued : e'.issued = e.issued)
      (stored : e.store.jobs.get? k.id = some j) (origin : k.origin = j.origin)
      (status : k.status = j.status) (runAt : k.runAt = j.runAt)
      (edited : Store.Edited e.store e'.store [k] []) (queue : e'.queue = e.queue)
  | changedPipeline (p : Pipeline) (row : PipelineRow) (issued : e'.issued = e.issued)
      (found : e.store.pipelines.get? p.id = some row) (status : p.status = row.record.status)
      (edited : Store.Edited e.store e'.store [] [p]) (queue : e'.queue = e.queue)
  | erasedJobs (ids : List Id) (issued : e'.issued = e.issued)
      (alone : ∀ id ∈ ids, ∀ j, e.store.jobs.get? id = some j → j.pipelineId = none)
      (jobs : e'.store.jobs = ids.foldl Table.erase e.store.jobs)
      (pipelines : e'.store.pipelines = e.store.pipelines) (queue : e'.queue = e.queue)
  | erasedPipeline (id : Id) (row : PipelineRow) (issued : e'.issued = e.issued)
      (found : e.store.pipelines.get? id = some row)
      (jobs : e'.store.jobs = row.jobIds.foldl Table.erase e.store.jobs)
      (pipelines : e'.store.pipelines = e.store.pipelines.erase id) (queue : e'.queue = e.queue)

structure Managed (e e' : Engine) : Prop where
  pool : e'.pool = e.pool
  closed : e'.store.isClosed = e.store.isClosed
  change : e.Changed e'

theorem Managed.refl (e : Engine) : e.Managed e := ⟨rfl, rfl, .kept (Nat.le_refl _) rfl rfl rfl⟩

theorem enqueueNew_cases {j : Job} {drop : Store → Except StoreError Store}
    {answer : Except AdmissionError Unit} (done : e.enqueueNew j drop = (e', answer)) :
    (∃ queue, e' = { e with queue := queue } ∧ queue.jobs = e.queue.jobs ++ [j]) ∨
      (∃ s, drop e.store = .ok s ∧ e' = e.withStore s) ∨ e' = e := by
  unfold enqueueNew at done
  split at done
  next queue pushed =>
    cases done
    refine Or.inl ⟨queue, rfl, ?_⟩
    unfold JobQueue.push at pushed
    split at pushed
    next => cases pushed
    next =>
      split at pushed
      next => cases pushed; rfl
      next => cases pushed
  next =>
    split at done
    next s dropped =>
      cases done
      exact Or.inr (Or.inl ⟨s, dropped, rfl⟩)
    next =>
      cases done
      exact Or.inr (Or.inr rfl)

theorem createJob_managed {r : CreateJob} {answer : Except AdmissionError Job}
    (done : e.createJob r = (e', answer))
    (fresh : e.store.jobs.get? (Id.issued e.issued) = none) : e.Managed e' := by
  unfold createJob issueId at done
  dsimp only at done
  split at done
  next => cases done; exact ⟨rfl, rfl, .kept (Nat.le_succ _) rfl rfl rfl⟩
  next j s checked =>
    obtain ⟨key, alone, pending, idle, valid, rfl⟩ : j.id = Id.issued e.issued ∧
        j.pipelineId = none ∧ j.status = .pending ∧ (r.runNow = true → j.runAt = none) ∧
        j.validate e.registry.names = .ok () ∧
        s = { e.store with jobs := e.store.jobs.put j.id j } := by
      obtain ⟨runAt, first, rest⟩ := bind_ok checked
      obtain ⟨_, valid, rest⟩ := bind_ok rest
      obtain ⟨s', created, same⟩ := bind_ok rest
      obtain ⟨_, _, stored⟩ := bind_ok (mapError_ok created)
      cases same
      cases stored
      refine ⟨rfl, rfl, rfl, fun now => ?_, mapError_ok valid, rfl⟩
      rw [now] at first
      cases mapError_ok first
      rfl
    have stored (queue : JobQueue) (longer : queue.jobs = e.queue.jobs ∨
        queue.jobs = e.queue.jobs ++ [j] ∧ j.runAt = none) :
        e.Managed { e with
          issued := e.issued + 1, queue := queue
          store := { e.store with jobs := e.store.jobs.put j.id j } } :=
      ⟨rfl, rfl, .newJob j rfl key alone pending rfl rfl longer valid⟩
    split at done
    next now =>
      split at done
      all_goals
        next enqueued =>
          cases done
          rcases enqueueNew_cases enqueued with ⟨queue, rfl, longer⟩ | ⟨s, dropped, rfl⟩ | rfl
          · exact stored queue (Or.inr ⟨longer, idle now⟩)
          · obtain ⟨_, rfl⟩ := Store.deleteJob_ok dropped
            exact ⟨rfl, rfl, .kept (Nat.le_succ _) (Table.erase_put _ j (key ▸ fresh)) rfl rfl⟩
          · exact stored e.queue (Or.inl rfl)
    next =>
      cases done
      exact stored e.queue (Or.inl rfl)

theorem createPipeline_managed {r : CreatePipeline} {answer : Except AdmissionError Pipeline}
    (done : e.createPipeline r = (e', answer)) (short : r.jobs.length < 4294967296)
    (freshJobs : ∀ i < r.jobs.length, e.store.jobs.get? (Id.issued (e.issued + 1 + i)) = none)
    (fresh : e.store.pipelines.get? (Id.issued e.issued) = none) : e.Managed e' := by
  unfold createPipeline at done
  dsimp only at done
  split at done
  next =>
    cases done
    exact ⟨rfl, rfl, .kept (Nat.le_trans (Nat.le_add_right _ _) (Nat.le_succ _)) rfl rfl rfl⟩
  next p s checked =>
    obtain ⟨isNew, length, idle, valid, validJobs, rfl⟩ : p.IsNew e.issued ∧
        p.jobs.length = r.jobs.length ∧ (r.runNow = true → ∀ j ∈ p.jobs, j.runAt = none) ∧
        p.validate = .ok () ∧ (∀ j ∈ p.jobs, j.validate e.registry.names = .ok ()) ∧
        s = { e.store with
          jobs := Store.putJobs e.store.jobs p.jobs
          pipelines := e.store.pipelines.put p.id ⟨{ p with jobs := [] }, p.jobs.map (·.id)⟩ } := by
      obtain ⟨runAt, first, rest⟩ := bind_ok checked
      obtain ⟨_, validJobs, rest⟩ := bind_ok rest
      obtain ⟨_, valid, rest⟩ := bind_ok rest
      obtain ⟨s', created, same⟩ := bind_ok rest
      obtain ⟨_, _, stored⟩ := bind_ok (mapError_ok created)
      cases same
      cases stored
      have length := length_pipelineOfRequest e.issued r runAt e.now
      have several := Pipeline.several_of_validate (mapError_ok valid)
      rw [length] at several
      refine ⟨isNew_pipelineOfRequest _ r runAt e.now several, length, fun now j member => ?_,
        mapError_ok valid, validateJobs_ok_iff.mp (mapError_ok validJobs), rfl⟩
      rw [now] at first
      cases mapError_ok first
      exact runAt_pipelineOfRequest member
    have stored (queue : JobQueue) (longer : queue.jobs = e.queue.jobs ∨ ∃ head ∈ p.jobs,
        queue.jobs = e.queue.jobs ++ [head] ∧ ∀ j ∈ p.jobs, j.runAt = none) :
        e.Managed { e with
          issued := e.issued + r.jobs.length + 1, queue := queue
          store := { e.store with
            jobs := Store.putJobs e.store.jobs p.jobs
            pipelines :=
              e.store.pipelines.put p.id ⟨{ p with jobs := [] }, p.jobs.map (·.id)⟩ } } :=
      ⟨rfl, rfl, .newPipeline p (by rw [length]) isNew (length ▸ short) rfl rfl longer valid
        validJobs⟩
    split at done
    next head rest now listed =>
      split at done
      all_goals
        next enqueued =>
          cases done
          rcases enqueueNew_cases enqueued with ⟨queue, rfl, longer⟩ | ⟨s, dropped, rfl⟩ | rfl
          · exact stored queue (Or.inr ⟨head, by simp [listed], longer, idle now⟩)
          · obtain ⟨_, _, erased⟩ := bind_ok dropped
            simp only [store_withStore, Table.get?_put_self] at erased
            cases erased
            refine ⟨rfl, rfl, .kept ?_ (Store.eraseAll_putJobs fun j member => ?_)
              (Table.erase_put _ _ (isNew.key ▸ fresh)) rfl⟩
            · exact Nat.le_trans (Nat.le_add_right _ _) (Nat.le_succ _)
            · obtain ⟨i, here⟩ := List.mem_iff_getElem?.mp member
              rw [(isNew.placed i j here).1]
              exact freshJobs i (length ▸ (List.getElem?_eq_some_iff.mp here).1)
          · exact stored e.queue (Or.inl rfl)
    next =>
      cases done
      exact stored e.queue (Or.inl rfl)

theorem updateJob_managed {r : UpdateJob} {answer : Except AdmissionError Job}
    (done : e.updateJob id r = (e', answer)) (consistent : e.store.Consistent e.issued) :
    e.Managed e' := by
  unfold updateJob at done
  dsimp only at done
  split at done
  next k s updated =>
    cases done
    obtain ⟨read, found, rest⟩ := bind_ok updated
    obtain ⟨_, _, rest⟩ := bind_ok rest
    obtain ⟨s', written, same⟩ := bind_ok rest
    cases same
    obtain ⟨j, stored, rereads⟩ := Store.getJob_ok (mapError_ok found)
    have edited := (Store.updateJob_ok (mapError_ok written)).1
    have origin : (r.applyTo read).origin = j.origin :=
      (Job.origin_applyTo r read).trans (Job.origin_reread rereads)
    have key : (r.applyTo read).id = id :=
      (Job.id_of_origin origin).trans (consistent.jobKey id j stored)
    have status := Job.status_reread rereads
    have runAt := Job.runAt_reread rereads
    exact ⟨rfl, edited.closed,
      .changedJob j (r.applyTo read) rfl (key ▸ stored) origin status runAt edited rfl⟩
  next =>
    cases done
    exact .refl e

theorem updatePipeline_managed {r : UpdatePipeline} {answer : Except AdmissionError Pipeline}
    (done : e.updatePipeline id r = (e', answer)) (consistent : e.store.Consistent e.issued) :
    e.Managed e' := by
  unfold updatePipeline at done
  dsimp only at done
  split at done
  next p s updated =>
    cases done
    obtain ⟨read, found, rest⟩ := bind_ok updated
    obtain ⟨_, _, rest⟩ := bind_ok rest
    obtain ⟨s', written, same⟩ := bind_ok rest
    cases same
    obtain ⟨row, loaded⟩ := consistent.loaded (mapError_ok found)
    have edited := (Store.updatePipeline_ok (mapError_ok written)).1
    have key : (r.applyTo read).id = id := loaded.key
    have status : (r.applyTo read).status = row.record.status := loaded.status
    exact ⟨rfl, edited.closed,
      .changedPipeline _ row rfl (key ▸ loaded.found) status edited rfl⟩
  next =>
    cases done
    exact .refl e

theorem deleteJob_ok (done : e.deleteJob id = (e', .ok ())) :
    ∃ row, e.store.jobs.get? id = some row ∧ row.pipelineId = none ∧
      e' = e.withStore (e.store.withoutJob id) := by
  unfold deleteJob at done
  dsimp only at done
  split at done
  next deleted =>
    cases done
    obtain ⟨j, read, rest⟩ := bind_ok deleted
    split at rest
    next => cases rest
    next alone =>
      obtain ⟨_, rfl⟩ := Store.deleteJob_ok (mapError_ok rest)
      obtain ⟨row, stored, rereads⟩ := Store.getJob_ok (mapError_ok read)
      refine ⟨row, stored, ?_, rfl⟩
      rw [← Job.pipelineId_of_origin (Job.origin_reread rereads)]
      simpa [Job.belongsToPipeline] using alone
  next => cases done

theorem deleteJob_error {err : AdmissionError} (done : e.deleteJob id = (e', .error err)) :
    e' = e := by
  unfold deleteJob at done
  dsimp only at done
  split at done
  next => cases done
  next =>
    cases done
    rfl

theorem deleteJob_managed {answer : Except AdmissionError Unit}
    (done : e.deleteJob id = (e', answer)) : e.Managed e' := by
  cases answer with
  | error err =>
    rw [deleteJob_error done]
    exact .refl e
  | ok _ =>
    obtain ⟨row, stored, alone, rfl⟩ := deleteJob_ok done
    refine ⟨rfl, rfl, .erasedJobs [id] rfl (fun other member j stored' => ?_) rfl rfl rfl⟩
    cases List.mem_singleton.mp member
    cases stored.symm.trans stored'
    exact alone

theorem deleteAll_eraseAll {s s' : Store} {ids : List Id} {answer : Except StoreError Unit}
    (done : deleteAll s ids = (s', answer)) :
    ∃ erased, erased <+: ids ∧ s'.jobs = erased.foldl Table.erase s.jobs ∧
      s'.pipelines = s.pipelines ∧ s'.isClosed = s.isClosed := by
  induction ids generalizing s with
  | nil =>
    cases done
    exact ⟨[], List.prefix_rfl, rfl, rfl, rfl⟩
  | cons id ids ih =>
    rw [deleteAll] at done
    split at done
    next t deleted =>
      obtain ⟨_, rfl⟩ := Store.deleteJob_ok deleted
      obtain ⟨more, early, jobs, pipelines, closed⟩ := ih done
      exact ⟨id :: more, by simpa using early, jobs, pipelines, closed⟩
    next =>
      cases done
      exact ⟨[], List.nil_prefix, rfl, rfl, rfl⟩

theorem dropJobs_managed {answer : Except AdmissionError Nat} (done : e.dropJobs = (e', answer))
    (consistent : e.store.Consistent e.issued) : e.Managed e' := by
  unfold dropJobs at done
  split at done
  next =>
    cases done
    exact .refl e
  next all read =>
    dsimp only at done
    split at done
    all_goals
      next deleted =>
        cases done
        obtain ⟨erased, early, jobs, pipelines, closed⟩ := deleteAll_eraseAll deleted
        refine ⟨rfl, closed, .erasedJobs erased rfl (fun id member j stored => ?_) jobs pipelines rfl⟩
        obtain ⟨k, stored', alone⟩ :=
          (Store.mem_alone_iff consistent.keyed consistent.jobKey read).mp (early.subset member)
        cases stored.symm.trans stored'
        exact alone

theorem deletePipeline_managed {answer : Except AdmissionError Unit}
    (done : e.deletePipeline id = (e', answer)) : e.Managed e' := by
  unfold deletePipeline at done
  split at done
  next s deleted =>
    cases done
    obtain ⟨row, found, rfl⟩ := Store.deletePipeline_ok deleted
    exact ⟨rfl, rfl, .erasedPipeline id row rfl found rfl rfl rfl⟩
  next =>
    cases done
    exact .refl e

theorem deleteResult_managed {answer : Except AdmissionError Unit}
    (done : e.deleteResult id = (e', answer)) : e.Managed e' := by
  unfold deleteResult at done
  split at done
  next s deleted =>
    cases done
    obtain rfl := Store.deleteResult_ok deleted
    exact ⟨rfl, rfl, .kept (Nat.le_refl _) rfl rfl rfl⟩
  next =>
    cases done
    exact .refl e

end Engine

end Rota
