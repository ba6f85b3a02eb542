import Rota.Proofs.Details
import Rota.Proofs.Run
import Rota.Proofs.Writes
/-! Calls of admission and management do all that they are asked for, or nothing.
A new job or pipeline is stored before it is put into the queue, and is deleted again when the queue
does not take it. Because its identifiers are new, the deletion takes back just what was stored. -/
namespace Rota

namespace Table

variable {α : Type} {t : Table α} {id : Id}

theorem rows_put_absent (v : α) (absent : t.get? id = none) :
    (t.put id v).rows = t.rows ++ [(id, v)] := by
  have new : ¬t.contains id = true := by simp [contains_eq, absent]
  simp [put, new]

private theorem erase_absent (absent : t.get? id = none) : t.erase id = t := by
  have same : [id].foldl erase t = t := eraseAll_absent (by simpa using absent)
  exact same

end Table

namespace Store

variable {s : Store} {n m : Nat} {id : Id} {j : Job} {p : Pipeline}

/-- Whatever is stored lies under an identifier that has been issued, and belongs to one. -/
structure Numbered (s : Store) (n : Nat) : Prop where
  keyed : s.jobs.Keyed
  jobKey : ∀ id j, s.jobs.get? id = some j → j.id = id
  jobs : ∀ id j, s.jobs.get? id = some j → Id.IsIssued n id
  pipelines : ∀ id row, s.pipelines.get? id = some row → Id.IsIssued n id
  results : ∀ id r, s.results.get? id = some r → Id.IsIssued n id
  transactions : ∀ t ∈ s.transactions.values, Id.IsIssued n t.jobId

theorem Numbered.noJob (numbered : s.Numbered n) (fresh : ¬Id.IsIssued n id) :
    s.jobs.get? id = none := by
  apply Option.eq_none_iff_forall_ne_some.mpr
  intro j stored
  exact fresh (numbered.jobs id j stored)

theorem Numbered.noPipeline (numbered : s.Numbered n) (fresh : ¬Id.IsIssued n id) :
    s.pipelines.get? id = none := by
  apply Option.eq_none_iff_forall_ne_some.mpr
  intro row found
  exact fresh (numbered.pipelines id row found)

private theorem Numbered.noResult (numbered : s.Numbered n) (fresh : ¬Id.IsIssued n id) :
    s.results.get? id = none := by
  apply Option.eq_none_iff_forall_ne_some.mpr
  intro r stored
  exact fresh (numbered.results id r stored)

private theorem Numbered.noTransaction (numbered : s.Numbered n) (fresh : ¬Id.IsIssued n id) :
    s.transactions.eraseIf (fun t => t.jobId = id) = s.transactions := by
  have kept : s.transactions.rows.filter (fun row => !decide (row.2.jobId = id)) =
      s.transactions.rows := by
    apply List.filter_eq_self.mpr
    intro row member
    have issued := numbered.transactions row.2 (List.mem_map_of_mem member)
    have other : row.2.jobId ≠ id := fun same => fresh (same ▸ issued)
    simp [other]
  exact congrArg Table.mk kept

/-! ### Taking back what was stored -/

theorem withoutJob_withJob (numbered : s.Numbered n) (fresh : ¬Id.IsIssued n j.id) :
    (s.withJob j).withoutJob j.id = s := by
  simp only [withoutJob, withJob, Table.erase_put s.jobs j (numbered.noJob fresh),
    Table.erase_absent (numbered.noResult fresh), numbered.noTransaction fresh]

theorem withoutPipeline_withPipeline (numbered : s.Numbered n) (fresh : ¬Id.IsIssued n p.id)
    (freshJobs : ∀ j ∈ p.jobs, ¬Id.IsIssued n j.id) :
    (s.withPipeline p).withoutPipeline p.id ⟨{ p with jobs := [] }, p.jobs.map (·.id)⟩ = s := by
  have noResults : ∀ id ∈ p.jobs.map (·.id), s.results.get? id = none := by
    intro id member
    obtain ⟨j, inside, rfl⟩ := List.mem_map.mp member
    exact numbered.noResult (freshJobs j inside)
  have noJobs : ∀ j ∈ p.jobs, s.jobs.get? j.id = none := by
    intro j inside
    exact numbered.noJob (freshJobs j inside)
  simp only [withoutPipeline, withPipeline, Table.erase_put _ _ (numbered.noPipeline fresh),
    Table.eraseAll_absent noResults, eraseAll_putJobs noJobs]

private theorem deleteJob_withJob (open_ : s.isClosed = false) :
    (s.withJob j).deleteJob j.id = .ok ((s.withJob j).withoutJob j.id) := by
  have present : (s.withJob j).jobs.contains j.id = true := by simp [withJob, Table.contains_eq]
  have opened : (s.withJob j).isClosed = false := open_
  simp [deleteJob, ensureOpen, opened, present, bind, Except.bind, withoutJob]

private theorem deletePipeline_withPipeline (open_ : s.isClosed = false) :
    (s.withPipeline p).deletePipeline p.id = .ok ((s.withPipeline p).withoutPipeline p.id
      ⟨{ p with jobs := [] }, p.jobs.map (·.id)⟩) := by
  have found : (s.withPipeline p).pipelines.get? p.id =
      some ⟨{ p with jobs := [] }, p.jobs.map (·.id)⟩ := Table.get?_put_self _ _ _
  have opened : (s.withPipeline p).isClosed = false := open_
  simp [deletePipeline, ensureOpen, opened, found, bind, Except.bind, withoutPipeline]

private theorem deleteJob_known (open_ : s.isClosed = false)
    (known : (s.jobs.get? id).isSome = true) :
    s.deleteJob id = .ok (s.withoutJob id) := by
  have present : s.jobs.contains id = true := known
  simp [deleteJob, ensureOpen, open_, present, bind, Except.bind, withoutJob]

theorem rows_putJobs {jobs : List Job} {t : Table Job} (distinct : (jobs.map (·.id)).Nodup)
    (absent : ∀ j ∈ jobs, t.get? j.id = none) :
    (putJobs t jobs).rows = t.rows ++ jobs.map fun j => (j.id, j) := by
  induction jobs generalizing t with
  | nil => simp [putJobs]
  | cons j jobs ih =>
    rw [List.map_cons, List.nodup_cons] at distinct
    obtain ⟨new, distinct⟩ := distinct
    have later : ∀ k ∈ jobs, (t.put j.id j).get? k.id = none := by
      intro k member
      have other : k.id ≠ j.id := fun same => new (same ▸ List.mem_map_of_mem member)
      rw [Table.get?_put_ne _ _ other]
      exact absent k (List.mem_cons_of_mem j member)
    have first := Table.rows_put_absent j (absent j List.mem_cons_self)
    have rest := ih distinct later
    rw [first] at rest
    simpa [putJobs] using rest

/-- The jobs that are listed are stored ones, each listed once. -/
theorem Numbered.listed {status : Status} {all : List Job} (numbered : s.Numbered n)
    (read : s.getJobs status = .ok all) : s.isClosed = false ∧ (all.map (·.id)).Nodup ∧
      ∀ j ∈ all, (s.jobs.get? j.id).isSome = true := by
  obtain ⟨jobs, every, same⟩ := bind_ok read
  cases same
  obtain ⟨_, opened, mapped⟩ := bind_ok every
  have ids := ids_of_reads numbered.keyed numbered.jobKey (mapM_ok mapped)
  have fewer : (jobs.filter fun j => status.passes j.status).Sublist jobs := List.filter_sublist
  refine ⟨ensureOpen_ok opened, ?_, ?_⟩
  · apply ((sortBy_perm _ _).map _).nodup_iff.mpr
    apply (fewer.map (·.id)).nodup
    rw [ids]
    exact numbered.keyed
  · intro j member
    have inside := fewer.subset ((sortBy_perm _ _).mem_iff.mp member)
    have listed : j.id ∈ s.jobs.rows.map (·.1) := ids ▸ List.mem_map_of_mem inside
    obtain ⟨row, here, same⟩ := List.mem_map.mp listed
    rw [← same, numbered.keyed.get?_of_mem row here]
    rfl

end Store

/-! ### What calls do -/

namespace JobQueue

variable {q q' : JobQueue} {j : Job}

def HasRoom (q : JobQueue) : Prop := q.isClosed = false ∧ q.length < q.capacity

private theorem push_of_hasRoom (room : q.HasRoom) :
    q.push j = .ok { q with jobs := q.jobs ++ [j] } := by
  obtain ⟨open_, more⟩ := room
  simp [push, open_, more]

private theorem hasRoom_of_push (pushed : q.push j = .ok q') : q.HasRoom := by
  unfold push at pushed
  split at pushed
  next => cases pushed
  next open_ =>
    split at pushed
    next more => exact ⟨Bool.eq_false_iff.mpr open_, more⟩
    next => cases pushed

private theorem push_ok (pushed : q.push j = .ok q') : q' = { q with jobs := q.jobs ++ [j] } :=
  Except.ok.inj (pushed.symm.trans (push_of_hasRoom (hasRoom_of_push pushed)))

end JobQueue

namespace Engine

variable {e e' : Engine} {id : Id} {j : Job}

theorem enqueueNew_ok_iff {drop : Store → Except StoreError Store} :
    (e.enqueueNew j drop).2 = .ok () ↔ e.queue.HasRoom := by
  unfold enqueueNew
  split
  next pushed => exact iff_of_true rfl (JobQueue.hasRoom_of_push pushed)
  next refused =>
    refine iff_of_false ?_ fun room => ?_
    · split <;> rintro ⟨⟩
    · rw [JobQueue.push_of_hasRoom room] at refused
      cases refused

/-- A job that the queue does not take is dropped. -/
theorem enqueueNew_spec {drop : Store → Except StoreError Store} {s : Store}
    {answer : Except AdmissionError Unit} (drops : drop e.store = .ok s)
    (done : e.enqueueNew j drop = (e', answer)) :
    (answer = .ok () ∧ e' = { e with queue := { e.queue with jobs := e.queue.jobs ++ [j] } }) ∨
      ∃ err, answer = .error err ∧ e' = e.withStore s := by
  unfold enqueueNew at done
  split at done
  next pushed =>
    cases done
    exact Or.inl ⟨rfl, by rw [JobQueue.push_ok pushed]⟩
  next err _ =>
    simp only [drops] at done
    cases done
    exact Or.inr ⟨_, rfl, rfl⟩

inductive JobCreated (e : Engine) (r : CreateJob) : Engine → Except AdmissionError Job → Prop
  | refused (err : AdmissionError) :
      JobCreated e r { e with issued := e.issued + 1 } (.error err)
  | undone (err : AdmissionError) (j : Job) (key : j.id = .issued e.issued) :
      JobCreated e r
        { e with issued := e.issued + 1, store := (e.store.withJob j).withoutJob j.id }
        (.error err)
  | created (j : Job) (runAt : Option Instant) (queue : JobQueue)
      (asked : j = { jobOfRequest (.issued e.issued) r e.now with runAt := runAt })
      (queued : queue = { e.queue with jobs := e.queue.jobs ++ if r.runNow then [j] else [] }) :
      JobCreated e r
        { e with issued := e.issued + 1, store := e.store.withJob j, queue := queue } (.ok j)

theorem createJob_created (e : Engine) (r : CreateJob) :
    JobCreated e r (e.createJob r).1 (e.createJob r).2 := by
  unfold createJob issueId
  dsimp only
  split
  next err _ => exact .refused err
  next j s checked =>
    obtain ⟨runAt, _, rest⟩ := bind_ok checked
    obtain ⟨_, _, rest⟩ := bind_ok rest
    obtain ⟨s', stored, same⟩ := bind_ok rest
    cases same
    obtain ⟨open_, rfl⟩ := Store.createJob_ok (mapError_ok stored)
    split
    next now =>
      split
      next enqueued =>
        obtain ⟨_, rfl⟩ | ⟨_, isError, _⟩ :=
          enqueueNew_spec (Store.deleteJob_withJob open_) enqueued
        · exact .created _ runAt _ rfl (by simp [now, withStore])
        · cases isError
      next err enqueued =>
        obtain ⟨isOk, _⟩ | ⟨_, _, rfl⟩ :=
          enqueueNew_spec (Store.deleteJob_withJob open_) enqueued
        · cases isOk
        · exact .undone err _ rfl
    next later =>
      exact .created _ runAt e.queue rfl (by simp [later])

theorem createJob_ok {r : CreateJob} (answer : (e.createJob r).2 = .ok j) :
    ∃ runAt queue, j = { jobOfRequest (.issued e.issued) r e.now with runAt := runAt } ∧
      queue = { e.queue with jobs := e.queue.jobs ++ if r.runNow then [j] else [] } ∧
      (e.createJob r).1 =
        { e with issued := e.issued + 1, store := e.store.withJob j, queue := queue } := by
  have done := createJob_created e r
  rw [answer] at done
  generalize (e.createJob r).1 = e' at done
  cases done with
  | created _ runAt queue asked queued => exact ⟨runAt, queue, asked, queued, rfl⟩

/-- A job that is accepted has passed the checks, and the queue has taken it if it runs at once. -/
theorem passes_createJob {r : CreateJob} (answer : (e.createJob r).2 = .ok j) :
    ∃ runAt, firstRunAt r.runNow r.runAt e.now = .ok runAt ∧
      j = { jobOfRequest (.issued e.issued) r e.now with runAt := runAt } ∧
      j.validate e.registry.names = .ok () ∧ (r.runNow = true → e.queue.HasRoom) := by
  unfold createJob issueId at answer
  dsimp only at answer
  split at answer
  next => cases answer
  next checked =>
    obtain ⟨runAt, asked, rest⟩ := bind_ok checked
    obtain ⟨_, valid, rest⟩ := bind_ok rest
    obtain ⟨_, _, same⟩ := bind_ok rest
    cases same
    split at answer
    next =>
      split at answer
      next enqueued =>
        have room := enqueueNew_ok_iff.mp (congrArg Prod.snd enqueued)
        cases answer
        exact ⟨runAt, mapError_ok asked, rfl, mapError_ok valid, fun _ => room⟩
      next => cases answer
    next later =>
      cases answer
      exact ⟨runAt, mapError_ok asked, rfl, mapError_ok valid, fun now => absurd now later⟩

inductive PipelineCreated (e : Engine) (r : CreatePipeline) :
    Engine → Except AdmissionError Pipeline → Prop
  | refused (err : AdmissionError) :
      PipelineCreated e r { e with issued := e.issued + r.jobs.length + 1 } (.error err)
  | undone (err : AdmissionError) (p : Pipeline) (isNew : p.IsNew e.issued)
      (length : p.jobs.length = r.jobs.length) :
      PipelineCreated e r
        { e with
          issued := e.issued + r.jobs.length + 1
          store := (e.store.withPipeline p).withoutPipeline p.id
            ⟨{ p with jobs := [] }, p.jobs.map (·.id)⟩ }
        (.error err)
  | created (p : Pipeline) (runAt : Option Instant) (queue : JobQueue)
      (asked : p = pipelineOfRequest e.issued r runAt e.now) (isNew : p.IsNew e.issued)
      (length : p.jobs.length = r.jobs.length)
      (queued : queue = { e.queue with
        jobs := e.queue.jobs ++ if r.runNow then p.jobs.head?.toList else [] }) :
      PipelineCreated e r
        { e with
          issued := e.issued + r.jobs.length + 1
          store := e.store.withPipeline p
          queue := queue }
        (.ok p)

theorem createPipeline_created (e : Engine) (r : CreatePipeline) :
    PipelineCreated e r (e.createPipeline r).1 (e.createPipeline r).2 := by
  unfold createPipeline
  dsimp only
  split
  next err _ => exact .refused err
  next p s checked =>
    obtain ⟨runAt, _, rest⟩ := bind_ok checked
    obtain ⟨_, _, rest⟩ := bind_ok rest
    obtain ⟨_, valid, rest⟩ := bind_ok rest
    obtain ⟨s', stored, same⟩ := bind_ok rest
    cases same
    obtain ⟨open_, rfl⟩ := Store.createPipeline_ok (mapError_ok stored)
    have length := length_pipelineOfRequest e.issued r runAt e.now
    have several := Pipeline.several_of_validate (mapError_ok valid)
    rw [length] at several
    have isNew := isNew_pipelineOfRequest e.issued r runAt e.now several
    split
    next head behind now listed =>
      split
      next enqueued =>
        obtain ⟨_, rfl⟩ | ⟨_, isError, _⟩ :=
          enqueueNew_spec (Store.deletePipeline_withPipeline open_) enqueued
        · exact .created _ runAt _ rfl isNew length (by simp [now, listed, withStore])
        · cases isError
      next err enqueued =>
        obtain ⟨isOk, _⟩ | ⟨_, _, rfl⟩ :=
          enqueueNew_spec (Store.deletePipeline_withPipeline open_) enqueued
        · cases isOk
        · exact .undone err _ isNew length
    next notNow =>
      have later : r.runNow = false := by
        cases runs : r.runNow with
        | false => rfl
        | true =>
          obtain ⟨head, behind, listed⟩ := List.exists_cons_of_length_pos
            (Nat.lt_of_lt_of_le Nat.zero_lt_two isNew.several)
          exact (notNow head behind runs listed).elim
      exact .created _ runAt e.queue rfl isNew length (by simp [later])

theorem createPipeline_ok {r : CreatePipeline} {p : Pipeline}
    (answer : (e.createPipeline r).2 = .ok p) :
    ∃ runAt queue, p = pipelineOfRequest e.issued r runAt e.now ∧ p.IsNew e.issued ∧
      p.jobs.length = r.jobs.length ∧ queue = { e.queue with
        jobs := e.queue.jobs ++ if r.runNow then p.jobs.head?.toList else [] } ∧
      (e.createPipeline r).1 = { e with
        issued := e.issued + r.jobs.length + 1
        store := e.store.withPipeline p
        queue := queue } := by
  have done := createPipeline_created e r
  rw [answer] at done
  generalize (e.createPipeline r).1 = e' at done
  cases done with
  | created _ runAt queue asked isNew length queued =>
    exact ⟨runAt, queue, asked, isNew, length, queued, rfl⟩

theorem passes_createPipeline {r : CreatePipeline} {p : Pipeline}
    (answer : (e.createPipeline r).2 = .ok p) :
    ∃ runAt, firstRunAt r.runNow r.runAt e.now = .ok runAt ∧
      p = pipelineOfRequest e.issued r runAt e.now ∧
      (∀ j ∈ p.jobs, j.validate e.registry.names = .ok ()) ∧ p.validate = .ok () ∧
      (r.runNow = true → e.queue.HasRoom) := by
  unfold createPipeline at answer
  dsimp only at answer
  split at answer
  next => cases answer
  next checked =>
    obtain ⟨runAt, asked, rest⟩ := bind_ok checked
    obtain ⟨_, validJobs, rest⟩ := bind_ok rest
    obtain ⟨_, valid, rest⟩ := bind_ok rest
    obtain ⟨_, _, same⟩ := bind_ok rest
    cases same
    have passes : firstRunAt r.runNow r.runAt e.now = .ok runAt ∧ _ ∧ _ :=
      ⟨mapError_ok asked, validateJobs_ok_iff.mp (mapError_ok validJobs), mapError_ok valid⟩
    split at answer
    next =>
      split at answer
      next enqueued =>
        have room := enqueueNew_ok_iff.mp (congrArg Prod.snd enqueued)
        cases answer
        exact ⟨runAt, passes.1, rfl, passes.2.1, passes.2.2, fun _ => room⟩
      next => cases answer
    next later =>
      cases answer
      refine ⟨runAt, passes.1, rfl, passes.2.1, passes.2.2, fun now => ?_⟩
      have several := Pipeline.several_of_validate passes.2.2
      obtain ⟨head, behind, listed⟩ := List.exists_cons_of_length_pos
        (Nat.lt_of_lt_of_le Nat.zero_lt_two several)
      exact (later head behind now listed).elim

/-! ### Deletions -/

private theorem deletePipeline_error {err : AdmissionError}
    (done : e.deletePipeline id = (e', .error err)) : e' = e := by
  unfold deletePipeline at done
  split at done
  next => cases done
  next =>
    cases done
    rfl

private theorem deleteAll_ok {s : Store} {ids : List Id} (open_ : s.isClosed = false)
    (distinct : ids.Nodup) (known : ∀ id ∈ ids, (s.jobs.get? id).isSome = true) :
    ∃ s', deleteAll s ids = (s', .ok ()) := by
  induction ids generalizing s with
  | nil => exact ⟨s, rfl⟩
  | cons id rest ih =>
    obtain ⟨new, distinct⟩ := List.nodup_cons.mp distinct
    rw [deleteAll, Store.deleteJob_known open_ (known id List.mem_cons_self)]
    apply ih (s := s.withoutJob id) open_ distinct
    intro other member
    have different : other ≠ id := fun same => new (same ▸ member)
    simp only [Store.withoutJob, Table.get?_erase, if_neg different]
    exact known other (List.mem_cons_of_mem id member)

/-- The jobs that are dropped have just been read, so none of them is missing. -/
theorem dropJobs_of_read {all : List Job} {n : Nat} (numbered : e.store.Numbered n)
    (read : e.store.getJobs .undefined = .ok all) : ∃ e' count, e.dropJobs = (e', .ok count) := by
  obtain ⟨open_, distinct, known⟩ := numbered.listed read
  have fewer : (all.filter fun j => !j.belongsToPipeline).Sublist all := List.filter_sublist
  have knownIds : ∀ id ∈ (all.filter fun j => !j.belongsToPipeline).map (·.id),
      (e.store.jobs.get? id).isSome = true := by
    intro id member
    obtain ⟨j, inside, rfl⟩ := List.mem_map.mp member
    exact known j (fewer.subset inside)
  obtain ⟨s', deletes⟩ := deleteAll_ok open_ ((fewer.map (·.id)).nodup distinct) knownIds
  simp only [dropJobs, read, deletes]
  exact ⟨_, _, rfl⟩

theorem dropJobs_error {err : AdmissionError} {n : Nat} (numbered : e.store.Numbered n)
    (done : e.dropJobs = (e', .error err)) : e' = e := by
  cases read : e.store.getJobs .undefined with
  | error =>
    simp only [dropJobs, read] at done
    cases done
    rfl
  | ok all =>
    obtain ⟨_, _, drops⟩ := dropJobs_of_read numbered read
    rw [drops] at done
    cases done

end Engine

/-! ### All or nothing -/

inductive Call where
  | createJob (r : CreateJob)
  | updateJob (id : Id) (r : UpdateJob)
  | deleteJob (id : Id)
  | dropJobs
  | createPipeline (r : CreatePipeline)
  | updatePipeline (id : Id) (r : UpdatePipeline)
  | deletePipeline (id : Id)

inductive Reply where
  | job (j : Job)
  | pipeline (p : Pipeline)
  | count (n : Nat)
  | done

def Call.action : Call → Action
  | .createJob r => .createJob r
  | .updateJob id r => .updateJob id r
  | .deleteJob id => .deleteJob id
  | .dropJobs => .dropJobs
  | .createPipeline r => .createPipeline r
  | .updatePipeline id r => .updatePipeline id r
  | .deletePipeline id => .deletePipeline id

namespace Engine

variable {e e' : Engine}

def call (e : Engine) : Call → Engine × Except AdmissionError Reply
  | .createJob r => ((e.createJob r).1, (e.createJob r).2.map .job)
  | .updateJob id r => ((e.updateJob id r).1, (e.updateJob id r).2.map .job)
  | .deleteJob id => ((e.deleteJob id).1, (e.deleteJob id).2.map fun _ => .done)
  | .dropJobs => (e.dropJobs.1, e.dropJobs.2.map .count)
  | .createPipeline r => ((e.createPipeline r).1, (e.createPipeline r).2.map .pipeline)
  | .updatePipeline id r => ((e.updatePipeline id r).1, (e.updatePipeline id r).2.map .pipeline)
  | .deletePipeline id => ((e.deletePipeline id).1, (e.deletePipeline id).2.map fun _ => .done)

/-- `e'` has the job `j` more than `e`, in the store and, if it is to run now, in the queue. -/
structure AddedJob (e e' : Engine) (r : CreateJob) (j : Job) : Prop where
  asked : ∃ runAt, j = { jobOfRequest (.issued e.issued) r e.now with runAt := runAt }
  absent : e.store.jobs.get? j.id = none
  jobs : e'.store.jobs.rows = e.store.jobs.rows ++ [(j.id, j)]
  pipelines : e'.store.pipelines = e.store.pipelines
  results : e'.store.results = e.store.results
  transactions : e'.store.transactions = e.store.transactions
  queue : e'.queue = { e.queue with jobs := e.queue.jobs ++ if r.runNow then [j] else [] }

/-- `e'` has the pipeline `p` and its jobs more than `e`, and its first job in the queue if it is to
run now. -/
structure AddedPipeline (e e' : Engine) (r : CreatePipeline) (p : Pipeline) : Prop where
  asked : ∃ runAt, p = pipelineOfRequest e.issued r runAt e.now
  whole : p.jobs.length = r.jobs.length
  absent : e.store.pipelines.get? p.id = none
  absentJobs : ∀ j ∈ p.jobs, e.store.jobs.get? j.id = none
  jobs : e'.store.jobs.rows = e.store.jobs.rows ++ p.jobs.map fun j => (j.id, j)
  pipelines : e'.store.pipelines.rows =
    e.store.pipelines.rows ++ [(p.id, ⟨{ p with jobs := [] }, p.jobs.map (·.id)⟩)]
  results : e'.store.results = e.store.results
  transactions : e'.store.transactions = e.store.transactions
  queue : e'.queue =
    { e.queue with jobs := e.queue.jobs ++ if r.runNow then p.jobs.head?.toList else [] }

/-- The call is refused and changes neither a table nor the queue, or it is carried out in full. -/
structure IsAtomic (e : Engine) (c : Call) : Prop where
  refused : ∀ err, (e.call c).2 = .error err →
    (e.call c).1.store = e.store ∧ (e.call c).1.queue = e.queue
  job : ∀ r reply, c = .createJob r → (e.call c).2 = .ok reply →
    ∃ j, reply = .job j ∧ e.AddedJob (e.call c).1 r j
  pipeline : ∀ r reply, c = .createPipeline r → (e.call c).2 = .ok reply →
    ∃ p, reply = .pipeline p ∧ e.AddedPipeline (e.call c).1 r p

private theorem kept_of_error {α : Type} {f : α → Reply} {err : AdmissionError}
    (done : Engine × Except AdmissionError α) (failed : done.2.map f = .error err)
    (kept : ∀ e', done = (e', .error err) → e' = e) :
    done.1.store = e.store ∧ done.1.queue = e.queue := by
  have same := kept done.1 (Prod.ext rfl (error_of_map failed))
  rw [same]
  exact ⟨rfl, rfl⟩

theorem fresh_jobs {p : Pipeline} {n m : Nat} (isNew : p.IsNew n)
    (distinct : Id.Distinct (n + p.jobs.length + 1)) (le : m ≤ n) :
    ∀ j ∈ p.jobs, ¬Id.IsIssued m j.id := by
  intro j member
  obtain ⟨i, here⟩ := List.mem_iff_getElem?.mp member
  have inside := (List.getElem?_eq_some_iff.mp here).1
  rw [(isNew.placed i j here).1]
  exact distinct.fresh (by omega) (by omega)

theorem nodup_ids {p : Pipeline} {n : Nat} (isNew : p.IsNew n)
    (distinct : Id.Distinct (n + p.jobs.length + 1)) : (p.jobs.map (·.id)).Nodup := by
  rw [List.nodup_iff_pairwise_ne, List.pairwise_map, List.pairwise_iff_getElem]
  intro i k left right before
  have first := (isNew.placed i _ (List.getElem?_eq_getElem left)).1
  have second := (isNew.placed k _ (List.getElem?_eq_getElem right)).1
  rw [first, second]
  exact distinct _ _ (by omega) (by omega)

theorem createJob_error {r : CreateJob} {err : AdmissionError}
    (numbered : e.store.Numbered e.issued) (distinct : Id.Distinct (e.issued + 1))
    (failed : (e.createJob r).2 = .error err) :
    (e.createJob r).1.store = e.store ∧ (e.createJob r).1.queue = e.queue := by
  have done := createJob_created e r
  rw [failed] at done
  generalize (e.createJob r).1 = e' at done
  cases done with
  | refused => exact ⟨rfl, rfl⟩
  | undone _ j key =>
    have fresh := key ▸ distinct.fresh (Nat.le_refl e.issued) (Nat.lt_succ_self _)
    exact ⟨Store.withoutJob_withJob numbered fresh, rfl⟩

theorem createJob_added {r : CreateJob} {j : Job} (numbered : e.store.Numbered e.issued)
    (distinct : Id.Distinct (e.issued + 1)) (created : (e.createJob r).2 = .ok j) :
    e.AddedJob (e.createJob r).1 r j := by
  obtain ⟨runAt, queue, asked, queued, same⟩ := createJob_ok created
  have key : j.id = .issued e.issued := congrArg Job.id asked
  have absent : e.store.jobs.get? j.id = none :=
    numbered.noJob (key ▸ distinct.fresh (Nat.le_refl e.issued) (Nat.lt_succ_self _))
  rw [same]
  exact ⟨⟨runAt, asked⟩, absent, Table.rows_put_absent j absent, rfl, rfl, rfl, queued⟩

theorem createPipeline_error {r : CreatePipeline} {err : AdmissionError}
    (numbered : e.store.Numbered e.issued) (distinct : Id.Distinct (e.issued + r.jobs.length + 1))
    (failed : (e.createPipeline r).2 = .error err) :
    (e.createPipeline r).1.store = e.store ∧ (e.createPipeline r).1.queue = e.queue := by
  have done := createPipeline_created e r
  rw [failed] at done
  generalize (e.createPipeline r).1 = e' at done
  cases done with
  | refused => exact ⟨rfl, rfl⟩
  | undone _ p isNew length =>
    have fresh := isNew.key ▸ distinct.fresh (Nat.le_refl e.issued) (by omega)
    have freshJobs := fresh_jobs isNew (length ▸ distinct) (Nat.le_refl _)
    exact ⟨Store.withoutPipeline_withPipeline numbered fresh freshJobs, rfl⟩

theorem createPipeline_added {r : CreatePipeline} {p : Pipeline}
    (numbered : e.store.Numbered e.issued) (distinct : Id.Distinct (e.issued + r.jobs.length + 1))
    (created : (e.createPipeline r).2 = .ok p) : e.AddedPipeline (e.createPipeline r).1 r p := by
  obtain ⟨runAt, queue, asked, isNew, length, queued, same⟩ := createPipeline_ok created
  have absent : e.store.pipelines.get? p.id = none :=
    numbered.noPipeline (isNew.key ▸ distinct.fresh (Nat.le_refl e.issued) (by omega))
  have absentJobs : ∀ j ∈ p.jobs, e.store.jobs.get? j.id = none := by
    intro j member
    exact numbered.noJob (fresh_jobs isNew (length ▸ distinct) (Nat.le_refl _) j member)
  have ids := nodup_ids isNew (length ▸ distinct)
  rw [same]
  exact ⟨⟨runAt, asked⟩, length, absent, absentJobs, Store.rows_putJobs ids absentJobs,
    Table.rows_put_absent _ absent, rfl, rfl, queued⟩

theorem isAtomic {c : Call} (numbered : e.store.Numbered e.issued)
    (distinct : Id.Distinct (e.call c).1.issued) : e.IsAtomic c where
  refused err failed := by
    cases c with
    | createJob r =>
      have few : Id.Distinct (e.createJob r).1.issued := distinct
      rw [System.issued_createJob] at few
      exact createJob_error numbered few (error_of_map failed)
    | createPipeline r =>
      have few : Id.Distinct (e.createPipeline r).1.issued := distinct
      rw [System.issued_createPipeline] at few
      exact createPipeline_error numbered few (error_of_map failed)
    | updateJob id r =>
      exact kept_of_error (e.updateJob id r) failed fun _ done => updateJob_error done
    | deleteJob id =>
      exact kept_of_error (e.deleteJob id) failed fun _ done => deleteJob_error done
    | dropJobs =>
      exact kept_of_error e.dropJobs failed fun _ done => dropJobs_error numbered done
    | updatePipeline id r =>
      exact kept_of_error (e.updatePipeline id r) failed fun _ done => updatePipeline_error done
    | deletePipeline id =>
      exact kept_of_error (e.deletePipeline id) failed fun _ done => deletePipeline_error done
  job r reply created replied := by
    subst created
    have few : Id.Distinct (e.createJob r).1.issued := distinct
    rw [System.issued_createJob] at few
    cases answer : (e.createJob r).2 with
    | error err => simp [call, answer, Except.map] at replied
    | ok j =>
      simp only [call, answer, Except.map, Except.ok.injEq] at replied
      exact ⟨j, replied.symm, createJob_added numbered few answer⟩
  pipeline r reply created replied := by
    subst created
    have few : Id.Distinct (e.createPipeline r).1.issued := distinct
    rw [System.issued_createPipeline] at few
    cases answer : (e.createPipeline r).2 with
    | error err => simp [call, answer, Except.map] at replied
    | ok p =>
      simp only [call, answer, Except.map, Except.ok.injEq] at replied
      exact ⟨p, replied.symm, createPipeline_added numbered few answer⟩

end Engine

end Rota
