import Rota.Proofs.Clock
import Rota.Proofs.Linkage
/-! What a scan finds.
As long as a store is open and no record in it nests too deeply, everything in it can be read: the
due jobs in their order, and every pipeline with the whole chain of its jobs. -/
namespace Rota

/-! ### The order of the scan -/

theorem optionalLe_total (a b : Option Instant) : optionalLe a b = true ∨ optionalLe b a = true := by
  cases a with
  | none => exact Or.inl rfl
  | some t =>
    cases b with
    | none => exact Or.inr rfl
    | some u => exact Instant.le_total t u

private theorem optionalLe_trans {a b c : Option Instant} (first : optionalLe a b = true)
    (second : optionalLe b c = true) : optionalLe a c = true := by
  cases a with
  | none => rfl
  | some t =>
    cases b with
    | none => cases first
    | some u =>
      cases c with
      | none => cases second
      | some v => exact Instant.le_trans first second

private theorem optionalLe_antisymm {a b : Option Instant} (first : optionalLe a b = true)
    (second : optionalLe b a = true) : a = b := by
  cases a with
  | none =>
    cases b with
    | none => rfl
    | some u => cases second
  | some t =>
    cases b with
    | none => cases first
    | some u => exact congrArg some (Instant.le_antisymm first second)

namespace Job

private theorem dueLe_total (a b : Job) : dueLe a b = true ∨ dueLe b a = true := by
  unfold dueLe
  by_cases same : a.runAt = b.runAt
  · simp only [same, if_true, decide_eq_true_eq]
    exact UInt32.le_total _ _
  · simp only [same, Ne.symm same, if_false]
    exact optionalLe_total _ _

private theorem dueLe_trans {a b c : Job} (first : dueLe a b = true) (second : dueLe b c = true) :
    dueLe a c = true := by
  unfold dueLe at first second ⊢
  by_cases left : a.runAt = b.runAt
  · by_cases right : b.runAt = c.runAt
    · simp only [left, right, if_true, decide_eq_true_eq] at first second ⊢
      exact UInt32.le_trans first second
    · simp only [left, right, if_false] at second ⊢
      exact second
  · rw [if_neg left] at first
    by_cases right : b.runAt = c.runAt
    · rw [← right, if_neg left]
      exact first
    · rw [if_neg right] at second
      have differ : a.runAt ≠ c.runAt := fun same => left (optionalLe_antisymm first (same ▸ second))
      rw [if_neg differ]
      exact optionalLe_trans first second

end Job

namespace Store

variable {s s' : Store} {n : Nat} {id : Id} {j c : Job} {p : Pipeline} {row : PipelineRow}

structure Readable (s : Store) : Prop where
  open_ : s.isClosed = false
  shallow : ∀ id j, s.jobs.get? id = some j → j.depth ≤ maxDepth

theorem readable_of_values (open_ : s.isClosed = false)
    (shallow : ∀ j ∈ s.jobs.values, j.depth ≤ maxDepth) : s.Readable where
  open_ := open_
  shallow _ j stored := shallow j (Table.mem_values_of_get? stored)

theorem getJob_of_reread (open_ : s.isClosed = false) (stored : s.jobs.get? id = some j)
    (read : j.reread = .ok c) : s.getJob id = .ok c := by
  simp [getJob, ensureOpen, open_, stored, read, bind, Except.bind]

/-- To read a pipeline is to look at its record and at its jobs, and at nothing else. -/
theorem getPipeline_congr (closed : s'.isClosed = s.isClosed)
    (same : s'.pipelines.get? id = s.pipelines.get? id) (found : s.pipelines.get? id = some row)
    (jobs : ∀ jobId ∈ row.jobIds, s'.jobs.get? jobId = s.jobs.get? jobId) :
    s'.getPipeline id = s.getPipeline id := by
  have listed : row.jobIds.filterMap s'.jobs.get? = row.jobIds.filterMap s.jobs.get? :=
    List.filterMap_congr jobs
  simp only [getPipeline, ensureOpen, closed, same, found, loadPipeline, listed]

namespace Readable

theorem getPipeline (readable : s.Readable) (found : s.pipelines.get? id = some row) :
    ∃ p, s.getPipeline id = .ok p := by
  cases read : s.getPipeline id with
  | ok p => exact ⟨p, rfl⟩
  | error e =>
    rcases getPipeline_error read readable.open_ with absent | ⟨_, _, jobId, _, j, stored, deep⟩
    · rw [found] at absent
      cases absent
    · exact absurd (readable.shallow jobId j stored) (Nat.not_le_of_lt deep)

theorem reread (readable : s.Readable) (stored : s.jobs.get? id = some j) :
    ∃ c, j.reread = .ok c :=
  Job.reread_ok_iff.mpr (readable.shallow id j stored)

theorem readJobs (readable : s.Readable) (keyed : s.jobs.Keyed) :
    ∃ all, s.readJobs = .ok all ∧
      List.Forall₂ (fun j c => j.reread = .ok c) s.jobs.values all := by
  cases read : s.jobs.values.mapM Job.reread with
  | ok all =>
    refine ⟨all, ?_, mapM_ok read⟩
    simp [Store.readJobs, ensureOpen, readable.open_, read, bind, Except.bind]
  | error e =>
    obtain ⟨j, member, failed⟩ := mapM_error read
    obtain ⟨id, stored⟩ := keyed.get?_of_mem_values member
    obtain ⟨c, good⟩ := readable.reread stored
    rw [good] at failed
    cases failed

/-- A scan reads the stored jobs that are due, in their order. -/
theorem getDueJobs (readable : s.Readable) (indexed : s.Indexed) (now : Instant) :
    ∃ due, s.getDueJobs now = .ok due ∧ due.Pairwise (fun a b => Job.dueLe a b = true) ∧
      ∀ c, c ∈ due ↔ ∃ id j, s.jobs.get? id = some j ∧ j.reread = .ok c ∧ c.isDue now = true := by
  obtain ⟨all, read, rereadAll⟩ := readable.readJobs indexed.keyed
  have found : s.getDueJobs now = .ok (sortBy Job.dueLe (all.filter fun j => j.isDue now)) := by
    simp [Store.getDueJobs, read, bind, Except.bind]
  refine ⟨_, found, sortBy_pairwise Job.dueLe_total (fun _ _ _ => Job.dueLe_trans) _, fun c => ?_⟩
  constructor
  · intro member
    obtain ⟨j, stored, rereads, isDue⟩ := indexed.stored_due found member
    exact ⟨c.id, j, stored, rereads, isDue⟩
  · rintro ⟨id, j, stored, rereads, isDue⟩
    have member : j ∈ s.jobs.values := Table.mem_values_of_get? stored
    obtain ⟨c', inside, same⟩ := forall₂_mem_right rereadAll.flip member
    rw [rereads] at same
    cases same
    exact (sortBy_perm _ _).mem_iff.mpr (List.mem_filter.mpr ⟨inside, isDue⟩)

end Readable

/-! ### Chains -/

def Links (s : Store) (jobs : List Job) : Prop :=
  ∀ i (j : Job), jobs[i]? = some j →
    s.getJob j.id = .ok j ∧ j.nextJobId = jobs[i + 1]?.map (·.id)

namespace InPlace

/-- Where the jobs of a pipeline that was read stand, in the store and in the pipeline. -/
theorem placed_of_read (inPlace : s.InPlace id row.jobIds) (indexed : s.Indexed)
    (found : s.pipelines.get? id = some row) (read : s.getPipeline id = .ok p) {i : Nat} {j : Job}
    (here : p.jobs[i]? = some j) :
    (∃ k, s.jobs.get? j.id = some k ∧ k.reread = .ok j) ∧ j.sequence.toNat = i ∧
      j.nextJobId = p.jobs[i + 1]?.map (·.id) := by
  obtain ⟨_, found', loads⟩ := getPipeline_ok read
  cases found.symm.trans found'
  have rereads := inPlace.loadPipeline_ok loads
  have jobIds : p.jobs.map (·.id) = row.jobIds := indexed.map_id_of_reads rereads
  obtain ⟨lt, rfl⟩ := List.getElem?_eq_some_iff.mp here
  have lt' : i < row.jobIds.length := by rwa [rereads.length_eq]
  obtain ⟨k, stored, good⟩ := rereads.get lt' lt
  obtain ⟨k', stored', _, place, next⟩ :=
    inPlace.placed i row.jobIds[i] (List.getElem?_eq_getElem lt')
  rw [List.get_eq_getElem] at stored
  cases stored.symm.trans stored'
  have origin := Job.origin_reread good
  have key : p.jobs[i].id = row.jobIds[i] :=
    (Job.id_of_origin origin).trans (indexed.jobKey _ k stored)
  refine ⟨⟨k, key ▸ stored, good⟩, ?_, ?_⟩
  · exact (congrArg UInt32.toNat (Job.sequence_of_origin origin)).trans place
  · rw [← List.getElem?_map, jobIds, ← next]
    exact Job.nextJobId_of_origin origin

theorem links (inPlace : s.InPlace id row.jobIds) (indexed : s.Indexed)
    (found : s.pipelines.get? id = some row) (open_ : s.isClosed = false)
    (read : s.getPipeline id = .ok p) : s.Links p.jobs := by
  intro i j here
  obtain ⟨⟨k, stored, good⟩, _, next⟩ := inPlace.placed_of_read indexed found read here
  exact ⟨getJob_of_reread open_ stored good, next⟩

/-- A pipeline that was read begins with its first job as that is read on its own. -/
theorem jobs_of_first (inPlace : s.InPlace id row.jobIds) (indexed : s.Indexed)
    (found : s.pipelines.get? id = some row) (open_ : s.isClosed = false)
    (read : s.getPipeline id = .ok p) (first : p.headId = some c.id)
    (good : s.getJob c.id = .ok c) : ∃ next rest, p.jobs = c :: next :: rest := by
  obtain ⟨_, found', loads⟩ := getPipeline_ok read
  cases found.symm.trans found'
  have several := inPlace.several
  rw [(inPlace.loadPipeline_ok loads).length_eq] at several
  obtain ⟨head, tail, jobs⟩ := List.exists_cons_of_length_pos (Nat.lt_of_lt_of_le Nat.two_pos several)
  rw [jobs, List.length_cons] at several
  obtain ⟨next, rest, rfl⟩ := List.exists_cons_of_length_pos (Nat.le_of_succ_le_succ several)
  have key : head.id = c.id := by simpa [Pipeline.headId, jobs] using first
  have here := (inPlace.links indexed found open_ read 0 head (by simp [jobs])).1
  rw [key, good] at here
  cases here
  exact ⟨next, rest, jobs⟩

end InPlace

namespace Consistent

theorem placed_of_read (consistent : s.Consistent n) (read : s.getPipeline id = .ok p) {i : Nat}
    {j : Job} (here : p.jobs[i]? = some j) :
    (∃ k, s.jobs.get? j.id = some k ∧ k.reread = .ok j) ∧ j.sequence.toNat = i ∧
      j.nextJobId = p.jobs[i + 1]?.map (·.id) := by
  obtain ⟨row, found, _⟩ := getPipeline_ok read
  exact (consistent.linked.inPlace id row found).placed_of_read consistent.indexed found read here

theorem links (consistent : s.Consistent n) (open_ : s.isClosed = false)
    (read : s.getPipeline id = .ok p) : s.Links p.jobs := by
  obtain ⟨row, found, _⟩ := getPipeline_ok read
  exact (consistent.linked.inPlace id row found).links consistent.indexed found open_ read

theorem jobs_of_first (consistent : s.Consistent n) (open_ : s.isClosed = false)
    (read : s.getPipeline id = .ok p) (first : p.headId = some c.id)
    (good : s.getJob c.id = .ok c) : ∃ next rest, p.jobs = c :: next :: rest := by
  obtain ⟨row, found, _⟩ := getPipeline_ok read
  exact (consistent.linked.inPlace id row found).jobs_of_first consistent.indexed found open_ read
    first good

end Consistent

end Store

theorem Store.Links.path {s : Store} {last : Job} {rest : List Job}
    (links : s.Links (last :: rest)) : s.Path last (last :: rest) := by
  induction rest generalizing last with
  | nil => exact .last (links 0 last rfl).2
  | cons next later ih =>
    have behind : s.Links (next :: later) := fun i j here => links (i + 1) j here
    exact .link (links 0 last rfl).2 (links 1 next rfl).1 (ih behind)

theorem Engine.loadChain_of_links {s : Store} {id : Id} {last : Job} {rest : List Job}
    (links : s.Links (last :: rest)) : loadChain s id rest.length last = .ok (last :: rest) :=
  loadChain_of_path links.path (Nat.le_refl _)

end Rota
