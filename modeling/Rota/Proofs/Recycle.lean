import Rota.Proofs.Linkage
import Mathlib.Logic.Relation
/-! Arming a pipeline again.
Where its interval can be read, only its dates can keep a pipeline from being armed. To arm it twice
at one moment is to arm it once: between the two, its jobs are read back from their records and
nothing else changes. -/
namespace Rota

/-! ### Reading back -/

namespace Job

/-- The job has been read back from its record some times. -/
def Rereads : Job → Job → Prop := Relation.ReflTransGen fun j k => j.reread = .ok k

variable {j k l : Job}

theorem Rereads.origin (reads : Rereads j k) : k.origin = j.origin := by
  induction reads with
  | refl => rfl
  | tail _ read ih => exact (origin_reread read).trans ih

theorem Rereads.runAt (reads : Rereads j k) : k.runAt = j.runAt := by
  induction reads with
  | refl => rfl
  | tail _ read ih => exact (runAt_reread read).trans ih

private theorem reset_reread {t : Option Instant} (armed : j.reset t = j)
    (read : j.reread = .ok k) : k.reset t = k := by
  rw [reread_ok read, ← armed]
  rfl

/-- A job that is armed stays so when it is read back. -/
theorem Rereads.reset {t : Option Instant} (reads : Rereads j k) (armed : j.reset t = j) :
    k.reset t = k := by
  induction reads with
  | refl => exact armed
  | tail _ read ih => exact reset_reread ih read

end Job

namespace Pipeline

variable {p q : Pipeline} {now : Instant}

private theorem recycleJobs_again {base : Instant} {delay : UInt64} {position : Nat}
    {jobs armed jobs' : List Job} (arms : recycleJobs base delay position jobs = (armed, .ok ()))
    (reads : List.Forall₂ Job.Rereads armed jobs') :
    recycleJobs base delay position jobs' = (jobs', .ok ()) := by
  induction jobs generalizing position armed jobs' with
  | nil =>
    cases arms
    cases reads
    rfl
  | cons j jobs ih =>
    rw [recycleJobs] at arms
    split at arms
    next => cases arms
    next within =>
      split at arms
      next => cases arms
      next t moved =>
        cases rest : recycleJobs base delay (position + 1) jobs with
        | mk later answer =>
          rw [rest] at arms
          cases arms
          cases reads with
          | @cons _ k _ behind read reads =>
            have armed : k.reset (some t) = k := read.reset rfl
            simp only [recycleJobs, moved, ih rest reads, armed]
            rw [if_neg within]

theorem recycle_eq (arms : p.recycle now = (q, .ok ())) :
    ∃ interval base armed, p.interval = .ok interval ∧
      (interval.getD ⟨1, .second⟩).adjust now = .ok base ∧
      recycleJobs base p.delay 0 p.jobs = (armed, .ok ()) ∧
      q = { p with
        jobs := armed
        status := .pending
        runAt := armed.head?.bind (·.runAt)
        startedAt := none
        completedAt := none
        duration := none } := by
  unfold recycle at arms
  dsimp only at arms
  split at arms
  next => cases arms
  next base moved =>
    obtain ⟨interval, readable, moves⟩ := bind_ok moved
    split at arms
    next => cases arms
    next armed done =>
      cases arms
      exact ⟨interval, base, armed, readable, moves, done, rfl⟩

theorem recycle_of {interval : Option Interval} {base : Instant} {armed : List Job}
    (readable : p.interval = .ok interval)
    (moves : (interval.getD ⟨1, .second⟩).adjust now = .ok base)
    (done : recycleJobs base p.delay 0 p.jobs = (armed, .ok ())) :
    p.recycle now = ({ p with
      jobs := armed
      status := .pending
      runAt := armed.head?.bind (·.runAt)
      startedAt := none
      completedAt := none
      duration := none }, .ok ()) := by
  simp only [recycle, readable, bind, Except.bind, moves, done]

private theorem runAt_head_of_rereads {jobs jobs' : List Job}
    (reads : List.Forall₂ Job.Rereads jobs jobs') :
    jobs'.head?.bind (·.runAt) = jobs.head?.bind (·.runAt) := by
  cases reads with
  | nil => rfl
  | cons read _ => exact read.runAt

/-- Arming a pipeline that is armed already, and whose jobs were read back, changes nothing. -/
theorem recycle_again {jobs : List Job} (arms : p.recycle now = (q, .ok ()))
    (reads : List.Forall₂ Job.Rereads q.jobs jobs) :
    { q with jobs := jobs }.recycle now = ({ q with jobs := jobs }, .ok ()) := by
  obtain ⟨interval, base, armed, readable, moves, done, rfl⟩ := recycle_eq arms
  rw [← runAt_head_of_rereads reads]
  exact recycle_of readable moves (recycleJobs_again done reads)

theorem ids_recycle (arms : p.recycle now = (q, .ok ())) : q.jobs.map (·.id) = p.jobs.map (·.id) := by
  have related := (recycle_ok arms).1
  refine (map_eq_of_forall₂ (related.imp ?_)).symm
  rintro j k ⟨t, rfl⟩
  rfl

end Pipeline

/-! ### Storing -/

namespace Store

variable {s : Store} {n : Nat} {id : Id} {p q : Pipeline} {now : Instant}

theorem updateJobs_ok {jobs : List Job} (open_ : s.isClosed = false)
    (known : ∀ j ∈ jobs, (s.jobs.get? j.id).isSome) :
    s.updateJobs jobs = ({ s with jobs := putJobs s.jobs jobs }, .ok ()) := by
  induction jobs generalizing s with
  | nil => rfl
  | cons j jobs ih =>
    rw [updateJobs, updateJob_known open_ (known j List.mem_cons_self)]
    refine ih open_ fun k member => ?_
    have stored := known k (List.mem_cons_of_mem _ member)
    rw [Table.get?_put]
    split
    next => rfl
    next => exact stored

/-- What arming a stored pipeline again stores. -/
theorem recyclePipeline_ok (consistent : s.Consistent n) (read : s.getPipeline id = .ok p)
    (arms : p.recycle now = (q, .ok ())) :
    ∃ row, s.pipelines.get? id = some row ∧ s.recyclePipeline p now =
      ({ s with
          jobs := putJobs s.jobs q.jobs
          pipelines := s.pipelines.put id { row with record := { q with jobs := [] } } },
        q, .ok ()) := by
  obtain ⟨row, loaded⟩ := consistent.loaded read
  have open_ := isClosed_of_getPipeline read
  have key : q.id = id := (Pipeline.recycle_ok arms).2.1.trans loaded.key
  have known (k : Job) (member : k ∈ q.jobs) : (s.jobs.get? k.id).isSome := by
    have listed : k.id ∈ row.jobIds := by
      rw [← loaded.jobIds, ← Pipeline.ids_recycle arms]
      exact List.mem_map_of_mem member
    obtain ⟨j, stored, _⟩ := (consistent.linked.inPlace id row loaded.found).stored listed
    simp [stored]
  refine ⟨row, loaded.found, ?_⟩
  simp only [recyclePipeline, arms, updateJobs_ok open_ known]
  simp [updatePipeline, ensureOpen, open_, key, loaded.found, bind, Except.bind]

end Store

end Rota
