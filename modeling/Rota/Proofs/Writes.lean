import Rota.Proofs.Flight
import Mathlib.Logic.Relation
/-! Every change of the store is a sequence of writes.
A write is what one operation of the store does when it succeeds. A grant says which writes are
allowed, and each operation of the engine makes only those that it needs. So what every granted
write keeps is kept by the engine. -/
namespace Rota

/-- What may be written to a store, and what may be erased from it. -/
structure Grant where
  job : Origin → Prop
  pipeline : Pipeline → Prop
  result : JobResult → Prop
  transaction : Transaction → Prop
  eraseJob : Id → Prop
  erasePipeline : PipelineRow → Prop

def Grant.ofJobs (job : Origin → Prop) : Grant where
  job := job
  pipeline _ := True
  result _ := True
  transaction _ := True
  eraseJob _ := True
  erasePipeline _ := True

namespace Store

variable {s s' : Store} {j : Job} {p : Pipeline} {id : Id}

/-! ### Writes -/

inductive Write (G : Grant) : Store → Store → Prop
  | job (s : Store) (j : Job) (may : G.job j.origin) : Write G s (s.withJob j)
  | eraseJob (s : Store) (id : Id) (may : G.eraseJob id) : Write G s (s.withoutJob id)
  | pipeline (s : Store) (p : Pipeline) (may : G.pipeline p)
      (jobs : ∀ j ∈ p.jobs, G.job j.origin) : Write G s (s.withPipeline p)
  | record (s : Store) (p : Pipeline) (row : PipelineRow)
      (found : s.pipelines.get? p.id = some row) : Write G s (s.withRecord row p)
  | erasePipeline (s : Store) (id : Id) (row : PipelineRow)
      (found : s.pipelines.get? id = some row) (may : G.erasePipeline row) :
      Write G s (s.withoutPipeline id row)
  | result (s : Store) (r : JobResult) (may : G.result r) :
      Write G s { s with results := s.results.put r.jobId r }
  | eraseResult (s : Store) (id : Id) : Write G s { s with results := s.results.erase id }
  | transaction (s : Store) (t : Transaction) (may : G.transaction t) :
      Write G s { s with transactions := s.transactions.put t.id t }
  | close (s : Store) : Write G s s.close

def Writes (G : Grant) : Store → Store → Prop := Relation.ReflTransGen (Write G)

variable {G : Grant} {Inv : Store → Prop}

theorem Writes.keep (writes : Writes G s s') (kept : ∀ t u, Write G t u → Inv t → Inv u)
    (holds : Inv s) : Inv s' := by
  induction writes with
  | refl => exact holds
  | tail _ last ih => exact kept _ _ last ih

theorem Writes.refl (s : Store) : Writes G s s := Relation.ReflTransGen.refl

theorem Write.writes (write : Write G s s') : Writes G s s' := Relation.ReflTransGen.single write

theorem Writes.trans {s'' : Store} (first : Writes G s s') (second : Writes G s' s'') :
    Writes G s s'' := Relation.ReflTransGen.trans first second

theorem updateJob_writes (may : G.job j.origin) (updated : s.updateJob j = .ok s') :
    Writes G s s' := by
  obtain ⟨_, rfl⟩ := updateJob_ok updated
  exact (Write.job s j may).writes

theorem updatePipeline_writes (updated : s.updatePipeline p = .ok s') : Writes G s s' := by
  obtain ⟨row, found, rfl⟩ := updatePipeline_eq updated
  exact (Write.record s p row found).writes

private theorem updateJobs_writes {jobs : List Job} {answer : Except StoreError Unit}
    (may : ∀ j ∈ jobs, G.job j.origin) (done : s.updateJobs jobs = (s', answer)) :
    Writes G s s' := by
  induction jobs generalizing s with
  | nil =>
    cases done
    exact .refl _
  | cons j rest ih =>
    rw [updateJobs] at done
    split at done
    next next_ updated =>
      have first := updateJob_writes (may j List.mem_cons_self) updated
      exact first.trans (ih (fun k member => may k (List.mem_cons_of_mem j member)) done)
    next =>
      cases done
      exact .refl _

theorem recycleJob_writes {k : Job} {now : Instant} (may : G.job j.origin)
    (recycled : s.recycleJob j now = .ok (s', k)) : Writes G s s' := by
  have origin := (recycleJob_ok recycled).2.1
  obtain ⟨interval, _, rest⟩ := bind_ok recycled
  cases interval
  all_goals
    obtain ⟨armed, _, last⟩ := bind_ok rest
    obtain ⟨_, updated, same⟩ := bind_ok last
    cases same
    exact updateJob_writes (origin ▸ may) updated

theorem recyclePipeline_writes {q : Pipeline} {now : Instant}
    {answer : Except (Stop StoreError) Unit} (may : ∀ j ∈ p.jobs, G.job j.origin)
    (recycled : s.recyclePipeline p now = (s', q, answer)) : Writes G s s' := by
  unfold recyclePipeline at recycled
  rcases arms : p.recycle now with ⟨armed, (e | _) | _⟩
  all_goals simp only [arms] at recycled
  · cases recycled
    exact .refl _
  · cases recycled
    exact .refl _
  · have armedJobs : ∀ k ∈ armed.jobs, G.job k.origin := by
      intro k member
      obtain ⟨j, inside, t, rfl⟩ := forall₂_mem_right (Pipeline.recycle_ok arms).1 member
      exact may j inside
    split at recycled
    next updates =>
      cases recycled
      exact updateJobs_writes armedJobs updates
    next updates =>
      have first := updateJobs_writes armedJobs updates
      split at recycled
      next updated =>
        cases recycled
        exact first.trans (updatePipeline_writes updated)
      next =>
        cases recycled
        exact first

private theorem origin_of_getPipeline (read : s.getPipeline id = .ok p) (member : j ∈ p.jobs) :
    ∃ row ∈ s.jobs.values, j.origin = row.origin := by
  obtain ⟨_, _, loads⟩ := getPipeline_ok read
  obtain ⟨jobs, rereads, rfl⟩ := loadPipeline_ok loads
  obtain ⟨row, listed, same⟩ :=
    forall₂_mem_right rereads ((sortBy_perm _ _).mem_iff.mp member)
  obtain ⟨jobId, _, found⟩ := List.mem_filterMap.mp listed
  exact ⟨row, Table.mem_values_of_get? found, Job.origin_reread same⟩

theorem origin_of_getJob (read : s.getJob id = .ok j) :
    ∃ row ∈ s.jobs.values, j.origin = row.origin := by
  obtain ⟨row, found, rereads⟩ := getJob_ok read
  exact ⟨row, Table.mem_values_of_get? found, Job.origin_reread rereads⟩

end Store

namespace Engine

open Store (Writes Write)

variable {e e' : Engine} {G : Grant} {job : Job} {id : Id}

/-! ### The scheduler -/

private theorem rearm_writes {p : Pipeline} {r : Resolution} (may : ∀ j ∈ p.jobs, G.job j.origin)
    (done : e.rearm p = (e', r)) : Writes G e.store e'.store := by
  unfold rearm at done
  split at done
  all_goals
    next recycled =>
      cases done
      exact Store.recyclePipeline_writes may recycled

private theorem resolve_writes {r : Resolution} (stored : ∀ j ∈ e.store.jobs.values, G.job j.origin)
    (done : e.resolve job = (e', r)) : Writes G e.store e'.store := by
  unfold resolve at done
  split at done
  next =>
    cases done
    exact .refl _
  next =>
    split at done
    next =>
      cases done
      exact .refl _
    next p read =>
      have own : ∀ j ∈ p.jobs, G.job j.origin := by
        intro j member
        obtain ⟨row, inside, same⟩ := Store.origin_of_getPipeline read member
        exact same ▸ stored row inside
      split at done
      next => exact rearm_writes own done
      next =>
        split at done
        next => exact rearm_writes own done
        next =>
          -- Whatever else is decided, nothing is written.
          have unchanged : e' = e := by grind
          exact unchanged ▸ .refl _

private theorem sendChain_writes {c : Chain} {answer : Submission} (may : G.job c.head.origin)
    (done : e.sendChain c = (e', answer)) : Writes G e.store e'.store := by
  unfold sendChain at done
  split at done
  next =>
    cases done
    exact .refl _
  next =>
    split at done
    next =>
      cases done
      exact .refl _
    next =>
      cases done
      exact .refl _
    next =>
      unfold unschedule at done
      split at done
      next undone =>
        cases done
        exact Store.updateJob_writes (j := c.head.markPending) may undone
      next =>
        cases done
        exact .refl _

theorem submit_writes {answer : Submission} (stored : ∀ j ∈ e.store.jobs.values, G.job j.origin)
    (may : G.job job.origin) (done : e.submit job = (e', answer)) :
    Writes G e.store e'.store := by
  unfold submit at done
  cases resolves : e.resolve job with
  | mk e₁ r =>
    have first := resolve_writes stored resolves
    rw [resolves] at done
    cases r with
    | run c =>
      have head : c.head = job := (resolve_resolved resolves).head
      dsimp only at done
      rw [head] at done
      split at done
      next =>
        cases done
        exact first
      next marked =>
        have second := Store.updateJob_writes (j := job.markScheduled e₁.now) may marked
        refine first.trans (second.trans (sendChain_writes ?_ done))
        rw [Chain.head_withHead]
        exact may
    | _ =>
      cases done
      exact first

/-! ### Workers -/

variable {executor : Executor} {x : Execution} {result : JobResult}

private theorem startJob_writes {isSaved : Bool} {pipeline : Option Pipeline} {jobs : List Job}
    {previous : Option Json} {results : List JobResult}
    {answer : Except StoreError (Option Execution)} (may : ∀ j ∈ jobs, G.job j.origin)
    (done : e.startJob executor isSaved pipeline jobs previous results = (e', answer)) :
    Writes G e.store e'.store := by
  unfold startJob at done
  split at done
  next =>
    cases done
    exact .refl _
  next j rest =>
    dsimp only at done
    split at done
    next =>
      cases done
      exact .refl _
    next updated =>
      cases done
      exact Store.updateJob_writes (j := j.markStarted e.now) (may j List.mem_cons_self) updated

theorem beginWork_writes {h : Handover} {answer : Except StoreError (Option Execution)}
    (may : ∀ j ∈ h.work.jobs, G.job j.origin) (done : e.beginWork executor h = (e', answer)) :
    Writes G e.store e'.store := by
  unfold beginWork at done
  split at done
  next job isTask =>
    rw [isTask] at may
    exact startJob_writes may done
  next id jobs isPipeline =>
    rw [isPipeline] at may
    split at done
    next =>
      cases done
      exact .refl _
    next =>
      dsimp only at done
      split at done
      next =>
        cases done
        exact .refl _
      next marked =>
        exact (Store.updatePipeline_writes marked).trans (startJob_writes may done)

theorem goOn_writes {i : Interlude} {answer : Execution ⊕ Ended}
    (may : ∀ j ∈ i.jobs, G.job j.origin) (done : e.goOn i = (e', answer)) :
    Writes G e.store e'.store := by
  unfold goOn at done
  split at done
  all_goals
    next started =>
      cases done
      exact startJob_writes may started

private theorem recordTransaction_writes (audits : ∀ t : Transaction, t.jobId = job.id →
      t.pipelineId = job.pipelineId → G.transaction t) :
    Writes G e.store (e.recordTransaction job).store := by
  unfold recordTransaction issueId
  dsimp only
  split
  next => exact .refl _
  next created =>
    obtain rfl := Store.createTransaction_ok created
    obtain ⟨feed, announced⟩ := announce_eq (withStore { e with issued := e.issued + 1 }
      { e.store with transactions := _ }) transactionTopic _
    rw [announced]
    exact (Write.transaction e.store _ (audits _ rfl rfl)).writes

private theorem settleJob_writes {answer : Except StoreError Unit} (may : G.job job.origin)
    (audits : ∀ t : Transaction, t.jobId = job.id → t.pipelineId = job.pipelineId → G.transaction t)
    (done : e.settleJob job = (e', answer)) : Writes G e.store e'.store := by
  unfold settleJob at done
  split at done
  next =>
    obtain ⟨feed, announced⟩ := announce_eq e jobTopic (Job.layout.write job)
    dsimp only at done
    rw [announced] at done
    have recorded : Writes G e.store (recordTransaction { e with feed := feed } job).store :=
      recordTransaction_writes (e := { e with feed := feed }) audits
    split at done
    next recycled =>
      cases done
      exact recorded.trans (Store.recycleJob_writes may recycled)
    next =>
      unfold parkJob at done
      split at done
      next parked =>
        cases done
        exact recorded.trans (Store.updateJob_writes (j := job.reset none) may parked)
      next =>
        cases done
        exact recorded
  next =>
    split at done
    next updated =>
      cases done
      exact Store.updateJob_writes may updated
    next =>
      cases done
      exact .refl _

private theorem settlePipeline_writes {p : Option Pipeline} {answer : Except StoreError Unit}
    (done : e.settlePipeline p = (e', answer)) : Writes G e.store e'.store := by
  unfold settlePipeline at done
  split at done
  next =>
    cases done
    exact .refl _
  next =>
    split at done
    next =>
      split at done
      next updated =>
        cases done
        exact Store.updatePipeline_writes updated
      next =>
        cases done
        exact .refl _
    next =>
      cases done
      exact .refl _

theorem concludeJob_writes {answer : Interlude ⊕ Ended} (may : G.job x.current.origin)
    (audits : ∀ t : Transaction, t.jobId = x.current.id → t.pipelineId = x.current.pipelineId →
      G.transaction t) (done : e.concludeJob x result = (e', answer)) :
    Writes G e.store e'.store := by
  have same : (markFinished x.current result e.now).origin = x.current.origin :=
    Job.origin_markFinished x.current result e.now
  cases jobDone : e.settleJob (markFinished x.current result e.now) with
  | mk e₁ jobAnswer =>
    have first : Writes G e.store e₁.store := by
      refine settleJob_writes (same ▸ may) (fun t own owner => ?_) jobDone
      rw [Job.id_of_origin same] at own
      rw [Job.pipelineId_of_origin same] at owner
      exact audits t own owner
    cases pipelineDone : e₁.settlePipeline (e.pipelineThen x result) with
    | mk e₂ pipelineAnswer =>
      have second : Writes G e₁.store e₂.store := settlePipeline_writes pipelineDone
      obtain ⟨_, _, sent, _⟩ := sendResult_eq e₂ x result
      rw [pipelineThen] at pipelineDone
      simp only [concludeJob, jobDone, pipelineDone, sent] at done
      cases done
      exact first.trans second

end Engine

end Rota
