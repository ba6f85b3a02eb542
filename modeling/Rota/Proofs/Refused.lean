import Rota.Proofs.Coverage
import Rota.Proofs.Reserved
/-! Submissions that fail.
A job is stored as scheduled before its work is sent, and a pool that refuses the work has it
written back. Every other failure comes before the first write, or with a pipeline that could not
be armed at all. What is written back is the job as it was read, so a row that reads as it was
written bears the date of the attempt and no other trace. -/
namespace Rota

def Job.dated (j : Job) (t : Instant) : Job := { j with scheduledAt := some t }

namespace Engine

variable {e e' : Engine} {job row : Job} {p : Pipeline} {err : EngineError}

def attempted (e : Engine) (j : Job) : Engine :=
  e.withStore { e.store with jobs := e.store.jobs.put j.id (j.dated e.now) }

private theorem get?_attempted (e : Engine) (j : Job) :
    (e.attempted j).store.jobs.get? j.id = some (j.dated e.now) := Table.get?_put_self _ _ _

/-- Nothing has been sent and nothing has been stored, unless the date of the attempt. -/
def LeavesNoTrace (e e' : Engine) (id : Id) : Prop :=
  e' = e ∨ ∃ row, e.store.jobs.get? id = some row ∧ e' = e.attempted row

/-! ### The exits of a submission -/

private theorem rearm_fail {id : Id} {record : PipelineRow} (indexed : e.store.Indexed)
    (found : e.store.pipelines.get? id = some record) (loads : e.store.loadPipeline record = .ok p)
    (done : e.rearm p = (e', .fail err)) : e' = e := by
  unfold rearm at done
  split at done
  next => cases done
  next recycled =>
    cases done
    rw [Store.recyclePipeline_loaded indexed found loads recycled]
    rfl
  next => cases done

/-- What cannot be decided is left as it is. -/
theorem resolve_fail (indexed : e.store.Indexed) (done : e.resolve job = (e', .fail err)) :
    e' = e := by
  unfold resolve at done
  split at done
  next =>
    obtain ⟨same, _⟩ := Prod.mk.inj done
    exact same.symm
  next id owner =>
    split at done
    next =>
      cases done
      rfl
    next p read =>
      obtain ⟨record, found, loads⟩ := Store.getPipeline_ok read
      repeat' split at done
      all_goals
        first
        | exact rearm_fail indexed found loads done
        | cases done <;> rfl

private theorem sendChain_failed {c : Chain} {w : Work} (made : Work.ofChain c = .ok w)
    (open_ : e.store.isClosed = false) (known : (e.store.jobs.get? c.head.id).isSome = true)
    (done : e.sendChain c = (e', .failed err)) : e' = e.withStore
      { e.store with jobs := e.store.jobs.put c.head.id c.head.markPending } := by
  unfold sendChain at done
  rw [made] at done
  dsimp only at done
  split at done
  next => cases done
  next => cases done
  next =>
    have written : e.store.updateJob c.head.markPending = .ok { e.store with
        jobs := e.store.jobs.put c.head.id c.head.markPending } :=
      Store.updateJob_known open_ known
    simp only [unschedule, written] at done
    cases done
    rfl

private theorem submit_failed (indexed : e.store.Indexed)
    (done : e.submit job = (e', .failed err)) :
    e' = e ∨ (e.store.jobs.get? job.id).isSome = true ∧ e' = e.attempted job.markPending := by
  obtain ⟨e₁, r, resolves⟩ : ∃ e₁ r, e.resolve job = (e₁, r) := ⟨_, _, rfl⟩
  have resolved := resolve_resolved resolves
  unfold submit at done
  rw [resolves] at done
  cases r with
  | skip => cases done
  | overflow => cases done
  | fail =>
    cases done
    exact Or.inl (resolve_fail indexed resolves)
  | run c =>
    obtain rfl := resolved.unchanged
    dsimp only at done
    rw [resolved.head] at done
    split at done
    next =>
      cases done
      exact Or.inl rfl
    next store updated =>
      obtain ⟨_, opened, _⟩ := bind_ok updated
      obtain ⟨edited, stored⟩ := Store.updateJob_ok updated
      have known : (e₁.store.jobs.get? job.id).isSome = true :=
        edited.known (job.markScheduled e₁.now) List.mem_cons_self
      have open_ : (e₁.withStore store).store.isClosed = false :=
        edited.closed.trans (Store.ensureOpen_ok opened)
      have there : ((e₁.withStore store).store.jobs.get?
          (c.withHead (job.markScheduled e₁.now)).head.id).isSome = true := by
        rw [Chain.head_withHead, store_withStore, edited.isSome_jobs]
        exact known
      obtain ⟨w, made⟩ := resolved.makes_work e₁.now
      have back := sendChain_failed made open_ there done
      rw [Chain.head_withHead, stored] at back
      -- The second write under the identifier of the job replaces the first.
      refine Or.inr ⟨known, back.trans ?_⟩
      simp only [withStore, attempted]
      congr 2
      exact Table.put_put _ _ _ _

/-- What is left of a submission that fails, if the job was submitted as it is stored. -/
theorem attempted_of_failed (indexed : e.store.Indexed)
    (current : ∀ row, e.store.jobs.get? job.id = some row → row.reread = .ok job)
    (pending : ∀ row, e.store.jobs.get? job.id = some row → job.status = .pending)
    (failed : (e.submit job).2 = .failed err) : (e.submit job).1 = e ∨
      ∃ row, e.store.jobs.get? job.id = some row ∧ row.reread = .ok job ∧
        (e.submit job).1 = e.attempted job := by
  have done : e.submit job = ((e.submit job).1, .failed err) := Prod.ext rfl failed
  rcases submit_failed indexed done with same | ⟨known, same⟩
  · exact Or.inl same
  · obtain ⟨row, stored⟩ := Option.isSome_iff_exists.mp known
    have unmarked : job.markPending = job := by
      rw [Job.markPending, ← pending row stored]
    exact Or.inr ⟨row, stored, current row stored, unmarked ▸ same⟩

/-- If the submission of a job that is submitted as it is stored fails, it leaves no trace, provided
that the row of the job reads as it was written. -/
def FailsCleanly (e : Engine) (job : Job) : Prop :=
  ∀ err, (∀ row, e.store.jobs.get? job.id = some row → row.reread = .ok job) →
    (e.submit job).2 = .failed err →
    (∀ row, e.store.jobs.get? job.id = some row → row.reread = .ok row) →
    e.LeavesNoTrace (e.submit job).1 job.id

theorem FailsCleanly.leavesNoTrace (cleanly : e.FailsCleanly job)
    (stored : e.store.jobs.get? job.id = some job) (reads : job.reread = .ok job)
    (failed : (e.submit job).2 = .failed err) : e.LeavesNoTrace (e.submit job).1 job.id := by
  have only (row : Job) (found : e.store.jobs.get? job.id = some row) : row = job :=
    Option.some.inj (found.symm.trans stored)
  refine cleanly err (fun row found => ?_) failed (fun row found => ?_)
  all_goals
    rw [only row found]
    exact reads

/-- What is written back is what was there, if the row reads as it was written. -/
theorem leavesNoTrace_attempted (stored : e.store.jobs.get? job.id = some row)
    (reads : row.reread = .ok job) :
    e.LeavesNoTrace (e.attempted job) job.id ↔ row.reread = .ok row := by
  constructor
  · intro traceless
    have key : row.id = job.id := (Job.id_of_origin (Job.origin_reread reads)).symm
    have written := e.get?_attempted job
    have same : job.dated e.now = row.dated e.now := by
      rcases traceless with unchanged | ⟨row', stored', unchanged⟩
      · rw [unchanged, stored] at written
        cases written
        rfl
      · cases stored.symm.trans stored'
        have rewritten := e.get?_attempted row
        rw [key, ← unchanged, written] at rewritten
        exact Option.some.inj rewritten
    have whole : job = row := by
      calc job = { job.dated e.now with scheduledAt := job.scheduledAt } := rfl
        _ = { row.dated e.now with scheduledAt := row.scheduledAt } := by
          rw [same, Job.scheduledAt_reread reads]
        _ = row := rfl
    rw [reads, whole]
  · intro exact_
    cases reads.symm.trans exact_
    exact Or.inr ⟨job, stored, rfl⟩

theorem failsCleanly (indexed : e.store.Indexed)
    (pending : ∀ row, e.store.jobs.get? job.id = some row → row.reread = .ok job →
      job.status = .pending) : e.FailsCleanly job := by
  intro err current failed faithful
  rcases attempted_of_failed indexed current
      (fun row stored => pending row stored (current row stored)) failed with
    same | ⟨row, stored, reads, same⟩
  · exact Or.inl same
  · rw [same]
    exact (leavesNoTrace_attempted stored reads).mpr (faithful row stored)

end Engine

end Rota
