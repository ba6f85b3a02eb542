import Rota.Proofs.Coverage
import Rota.Proofs.Scan
/-! The chain that runs a pipeline.
The scheduler reads it job by job, along the links in the store; it is also what the first job of
the pipeline gets when the pipeline is read as a whole and its jobs are linked in place. -/
namespace Rota

/-- The work of a chain of at least two jobs keeps them, whatever has become of the first. -/
theorem Work.ofChain_withHead {c : Chain} {id : Id} {first next head : Job} {rest : List Job}
    (jobs : c.toList = first :: next :: rest) (owner : head.pipelineId = some id) :
    ofChain (c.withHead head) = .ok (.pipeline id (head :: next :: rest)) :=
  ofChain_of_several (by rw [Chain.toList_withHead, jobs, List.tail_cons])
    (by rw [Chain.head_withHead, owner])

namespace Engine

variable {e : Engine} {id : Id} {row : PipelineRow} {p : Pipeline} {job : Job}

/-- As long as the jobs of the pipeline stand in their places, nothing but its state keeps it from
running. -/
theorem resolve_inPlace (indexed : e.store.Indexed)
    (found : e.store.pipelines.get? id = some row) (inPlace : e.store.InPlace id row.jobIds)
    (read : e.store.getJob job.id = .ok job) (ready : e.Ready id job p) :
    ∃ c next rest, p.jobs = job :: next :: rest ∧ Chain.ofList? p.jobs = some c ∧
      e.resolve job = (e, .run c) := by
  have open_ : e.store.isClosed = false := Store.isClosed_of_getPipeline ready.read
  have links := inPlace.links indexed found open_ ready.read
  obtain ⟨next, rest, jobs⟩ :=
    inPlace.jobs_of_first indexed found open_ ready.read ready.first read
  rw [jobs] at links
  obtain ⟨c, linked, _⟩ := Chain.ofList_cons job (next :: rest)
  refine ⟨c, next, rest, jobs, jobs ▸ linked, ?_⟩
  have loaded : loadChain e.store p.id (p.jobs.length - 1) job = .ok (job :: next :: rest) := by
    rw [jobs]
    exact loadChain_of_links links
  exact resolve_run ready.owner ready.read ready.runs ready.first ready.idle loaded
    (by rw [jobs]) linked

private theorem ready_of_resolve {e' : Engine} {c : Chain} (owner : job.pipelineId = some id)
    (done : e.resolve job = (e', .run c)) : e' = e ∧ ∃ p, e.Ready id job p := by
  have resolved := resolve_resolved done
  refine ⟨resolved.unchanged, ?_⟩
  cases resolved.runsThrough with
  | alone standalone => rw [standalone] at owner; cases owner
  | whole _ p _ _ owner' read runs first idle =>
    cases owner.symm.trans owner'
    exact ⟨p, owner, read, runs, first, idle⟩

/-- What the scheduler runs of a stored pipeline is the chain that linking the pipeline in place
gives to its first job; the work of this chain has the pipeline's stored jobs in their order. -/
theorem resolve_merge (indexed : e.store.Indexed)
    (found : e.store.pipelines.get? id = some row) (inPlace : e.store.InPlace id row.jobIds)
    (owner : job.pipelineId = some id) (read : e.store.getJob job.id = .ok job) :
    (∀ e' c, e.resolve job = (e', .run c) ↔ e' = e ∧ ∃ p, e.Ready id job p ∧
      (LinkedPipeline.ofPipeline p).merge.chains[0]? = some c) ∧
    ∀ p, e.Ready id job p →
      List.Forall₂ (fun jobId j => e.store.getJob jobId = .ok j) row.jobIds p.jobs ∧
      ∃ c, (LinkedPipeline.ofPipeline p).merge.chains[0]? = some c ∧
        c.apart = p.jobs.map .single ∧ Work.ofChain c = .ok (.pipeline id p.jobs) ∧
        ∀ t, Work.ofChain (c.withHead (job.markScheduled t)) =
          .ok (.pipeline id (job.markScheduled t :: p.jobs.tail)) := by
  refine ⟨fun e' c => ⟨fun done => ?_, ?_⟩, fun p ready => ⟨?_, ?_⟩⟩
  · obtain ⟨rfl, p, ready⟩ := ready_of_resolve owner done
    obtain ⟨c', _, _, _, linked, runs⟩ := resolve_inPlace indexed found inPlace read ready
    cases done.symm.trans runs
    exact ⟨rfl, p, ready, (LinkedPipeline.getElem?_merge p 0).trans linked⟩
  · rintro ⟨rfl, p, ready, merged⟩
    obtain ⟨c', _, _, _, linked, runs⟩ := resolve_inPlace indexed found inPlace read ready
    cases merged.symm.trans ((LinkedPipeline.getElem?_merge p 0).trans linked)
    exact runs
  · obtain ⟨_, found', loads⟩ := Store.getPipeline_ok ready.read
    cases found.symm.trans found'
    refine (inPlace.loadPipeline_ok loads).imp ?_
    rintro jobId j ⟨i, stored, rereads⟩
    exact Store.getJob_of_reread (Store.isClosed_of_getPipeline ready.read) stored rereads
  · obtain ⟨c, next, rest, jobs, linked, _⟩ := resolve_inPlace indexed found inPlace read ready
    have inOrder : c.toList = job :: next :: rest := (Chain.toList_ofList linked).trans jobs
    have head : c.head = job := (List.cons.inj ((Chain.toList_eq c).symm.trans inOrder)).1
    refine ⟨c, (LinkedPipeline.getElem?_merge p 0).trans linked, ?_, ?_, fun t => ?_⟩
    · rw [Chain.apart_eq, Chain.toList_ofList linked]
    · rw [jobs]
      exact Work.ofChain_of_several inOrder (head ▸ owner)
    · rw [jobs]
      exact Work.ofChain_withHead inOrder owner

/-- The scheduler runs both jobs of a pipeline that was just admitted. -/
theorem resolve_merge_exampleRequest :
    let e := (System.start.run [.createPipeline System.exampleRequest]).engine
    e.store.Indexed ∧ ∃ row job p c, e.store.pipelines.get? (.issued 0) = some row ∧
      e.store.InPlace (.issued 0) row.jobIds ∧ job.pipelineId = some (.issued 0) ∧
      e.store.getJob job.id = .ok job ∧ e.Ready (.issued 0) job p ∧
      p.jobs.map (·.name) = ["collect", "send"] ∧ e.resolve job = (e, .run c) ∧
      (LinkedPipeline.ofPipeline p).merge.chains[0]? = some c ∧
      Work.ofChain c = .ok (.pipeline (.issued 0) p.jobs) := by
  intro e
  have consistent : e.store.Consistent e.issued :=
    (System.sound_run System.new_start (by simp [Action.IsShort, System.exampleRequest])
      (Id.distinct_of_le (by decide +kernel))).consistent
  obtain ⟨job, p, read, pipeline, first, owner, runs, idle, names⟩ : ∃ job p,
      e.store.getJob job.id = .ok job ∧ e.store.getPipeline (.issued 0) = .ok p ∧
      p.headId = some job.id ∧ job.pipelineId = some (.issued 0) ∧ p.isRearmed = false ∧
      p.status.isActive = false ∧ p.jobs.map (·.name) = ["collect", "send"] :=
    ⟨_, _, (by rfl : e.store.getJob (.issued 1) = _), by rfl, by rfl, by rfl, by rfl, by rfl, by rfl⟩
  have ready : e.Ready (.issued 0) job p := ⟨owner, pipeline, runs, first, idle⟩
  obtain ⟨row, found, _⟩ := Store.getPipeline_ok pipeline
  have inPlace := consistent.linked.inPlace _ row found
  obtain ⟨agree, works⟩ := resolve_merge consistent.indexed found inPlace owner read
  obtain ⟨_, c, merged, _, work, _⟩ := works p ready
  exact ⟨consistent.indexed, row, job, p, c, found, inPlace, owner, read, ready, names,
    (agree e c).mpr ⟨rfl, p, ready, merged⟩, merged, work⟩

end Engine

end Rota
