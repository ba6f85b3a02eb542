import Rota.Proofs.Changes
import Rota.Proofs.Scan
/-! The two ways to the jobs of a pipeline.
A pipeline is read through the identifiers in its record, and its jobs are also found by a search
through all jobs for those that name it. Both ways lead to the jobs that the pipeline was admitted
with, in the order in which they were asked for, as they are stored now. -/
namespace Rota

private theorem Engine.names_pipelineOfRequest (n : Nat) (r : CreatePipeline)
    (runAt : Option Instant)
    (now : Instant) :
    (pipelineOfRequest n r runAt now).jobs.map (·.name) = r.jobs.map (·.name) := by
  apply List.ext_getElem?
  intro i
  rw [List.getElem?_map, List.getElem?_map, getElem?_pipelineOfRequest, Option.map_map]
  congr 1
  funext step
  unfold jobOfStep
  dsimp only [Function.comp_apply]
  split <;> rfl

namespace Job

private theorem sequenceLe_total (a b : Job) : sequenceLe a b = true ∨ sequenceLe b a = true := by
  simp only [sequenceLe, decide_eq_true_eq]
  exact UInt32.le_total _ _

private theorem sequenceLe_trans (a b c : Job) (first : sequenceLe a b = true)
    (second : sequenceLe b c = true) : sequenceLe a c = true := by
  simp only [sequenceLe, decide_eq_true_eq] at first second ⊢
  exact UInt32.le_trans first second

end Job

namespace Store

variable {s : Store} {n : Nat} {id : Id} {row : PipelineRow} {p q : Pipeline}

/-- The jobs of a pipeline have different places in it. -/
theorem Consistent.eq_of_sequenceLe (consistent : s.Consistent n)
    (read : s.getPipeline id = .ok q) {a b : Job} (left : a ∈ q.jobs) (right : b ∈ q.jobs)
    (le : Job.sequenceLe a b = true) (ge : Job.sequenceLe b a = true) : a = b := by
  obtain ⟨i, here⟩ := List.mem_iff_getElem?.mp left
  obtain ⟨k, there⟩ := List.mem_iff_getElem?.mp right
  obtain ⟨_, first, _⟩ := consistent.placed_of_read read here
  obtain ⟨_, second, _⟩ := consistent.placed_of_read read there
  simp only [Job.sequenceLe, decide_eq_true_eq, UInt32.le_iff_toNat_le, first, second] at le ge
  cases Nat.le_antisymm le ge
  exact Option.some.inj (here.symm.trans there)

private theorem Consistent.ascending (consistent : s.Consistent n)
    (read : s.getPipeline id = .ok q) :
    q.jobs.Pairwise fun a b => Job.sequenceLe a b = true := by
  rw [List.pairwise_iff_getElem]
  intro i k left right before
  obtain ⟨_, first, _⟩ := consistent.placed_of_read read (List.getElem?_eq_getElem left)
  obtain ⟨_, second, _⟩ := consistent.placed_of_read read (List.getElem?_eq_getElem right)
  simp only [Job.sequenceLe, decide_eq_true_eq, UInt32.le_iff_toNat_le, first, second]
  exact Nat.le_of_lt before

/-- Of all jobs, those of a pipeline are the ones that name it. -/
theorem Consistent.mem_jobs_iff (consistent : s.Consistent n) (read : s.getPipeline id = .ok q)
    {all : List Job} (reads : List.Forall₂ (fun j c => j.reread = .ok c) s.jobs.values all)
    {c : Job} : c ∈ q.jobs ↔ c ∈ all.filter fun j => j.pipelineId = some id := by
  obtain ⟨row, loaded⟩ := consistent.loaded read
  rw [List.mem_filter, decide_eq_true_eq]
  constructor
  · intro member
    obtain ⟨i, here⟩ := List.mem_iff_getElem?.mp member
    obtain ⟨⟨k, stored, rereads⟩, _⟩ := consistent.placed_of_read read here
    obtain ⟨c', inside, same⟩ :=
      forall₂_mem_right reads.flip (Table.mem_values_of_get? stored)
    cases rereads.symm.trans same
    exact ⟨inside, (loaded.copies c member).2⟩
  · rintro ⟨inside, owner⟩
    obtain ⟨k, present, rereads⟩ := forall₂_mem_right reads inside
    obtain ⟨key, stored⟩ := consistent.keyed.get?_of_mem_values present
    have origin := Job.origin_reread rereads
    obtain ⟨row', found, listed⟩ := consistent.linked.owned key k id stored
      ((Job.pipelineId_of_origin origin).symm.trans owner)
    cases loaded.found.symm.trans found
    rw [← loaded.jobIds] at listed
    obtain ⟨c', member, same⟩ := List.mem_map.mp listed
    obtain ⟨i, here⟩ := List.mem_iff_getElem?.mp member
    obtain ⟨⟨k', stored', rereads'⟩, _⟩ := consistent.placed_of_read read here
    rw [same, stored] at stored'
    cases stored'
    cases rereads.symm.trans rereads'
    exact member

theorem Consistent.getJobsByPipeline (consistent : s.Consistent n) (readable : s.Readable)
    (read : s.getPipeline id = .ok q) : s.getJobsByPipeline id = .ok q.jobs := by
  obtain ⟨row, loaded⟩ := consistent.loaded read
  obtain ⟨all, everything, reads⟩ := readable.readJobs consistent.keyed
  have allOnce : (all.map (·.id)).Nodup :=
    ids_of_reads consistent.keyed consistent.jobKey reads ▸ consistent.keyed
  have listedOnce : (q.jobs.map (·.id)).Nodup :=
    loaded.jobIds ▸ (consistent.linked.inPlace id row loaded.found).distinct
  have perm : (all.filter fun j => j.pipelineId = some id).Perm q.jobs := by
    apply (List.perm_ext_iff_of_nodup ((List.Nodup.of_map _ allOnce).filter _)
      (List.Nodup.of_map _ listedOnce)).mpr
    intro c
    exact (consistent.mem_jobs_iff read reads).symm
  refine bind_ok_iff.mpr ⟨all, everything, congrArg Except.ok ?_⟩
  exact sortBy_eq Job.sequenceLe_total Job.sequenceLe_trans perm (consistent.ascending read)
    fun a left b right => consistent.eq_of_sequenceLe read left right

private theorem Consistent.getJobsByPipeline_absent (consistent : s.Consistent n)
    (readable : s.Readable)
    (absent : s.pipelines.get? id = none) : s.getJobsByPipeline id = .ok [] := by
  obtain ⟨all, everything, reads⟩ := readable.readJobs consistent.keyed
  have noneOwned : (all.filter fun j => j.pipelineId = some id) = [] := by
    apply List.filter_eq_nil_iff.mpr
    intro c inside owner
    obtain ⟨k, present, rereads⟩ := forall₂_mem_right reads inside
    obtain ⟨key, stored⟩ := consistent.keyed.get?_of_mem_values present
    have same := Job.pipelineId_of_origin (Job.origin_reread rereads)
    obtain ⟨row, found, _⟩ := consistent.linked.owned key k id stored
      (same.symm.trans (of_decide_eq_true owner))
    rw [absent] at found
    cases found
  refine bind_ok_iff.mpr ⟨all, everything, ?_⟩
  rw [noneOwned]
  rfl

/-- The pipeline that was admitted as `p` reads as `q`, and both ways lead to its jobs: those that
it was admitted with, in this order, as they are stored. -/
structure Shows (s : Store) (p q : Pipeline) : Prop where
  key : q.id = p.id
  read : s.getPipeline p.id = .ok q
  found : s.getJobsByPipeline p.id = .ok q.jobs
  current : List.Forall₂ (fun j c => c.id = j.id ∧
    ∃ row, s.jobs.get? j.id = some row ∧ row.reread = .ok c) p.jobs q.jobs

private theorem Consistent.shows (consistent : s.Consistent n) (readable : s.Readable)
    (found : s.pipelines.get? p.id = some row) (jobIds : row.jobIds = p.jobs.map (·.id)) :
    ∃ q, s.Shows p q := by
  obtain ⟨q, read⟩ := readable.getPipeline found
  obtain ⟨row', found', loads⟩ := getPipeline_ok read
  cases found.symm.trans found'
  obtain ⟨key, _, jobs⟩ := consistent.loadPipeline_ok found loads
  rw [jobIds, List.forall₂_map_left_iff] at jobs
  refine ⟨q, key, read, consistent.getJobsByPipeline readable read, jobs.imp ?_⟩
  rintro j c ⟨k, stored, rereads⟩
  have same := Job.id_of_origin (Job.origin_reread rereads)
  exact ⟨same.trans (consistent.jobKey j.id k stored), k, stored, rereads⟩

end Store

namespace System

variable {s : System}

/-- The run admits `p` as the pipeline that `r` asks for. -/
def Creates (s : System) (actions : List Action) (r : CreatePipeline) (p : Pipeline) : Prop :=
  ∃ before after, actions = before ++ .createPipeline r :: after ∧
    ((s.run before).engine.createPipeline r).2 = .ok p

variable {now : Instant} {registry : Registry} {queueCapacity : Nat} {unit : TimeUnit}
  {workers poolCapacity : Nat} {actions : List Action}

private theorem Creates.concat {r : CreatePipeline} {p : Pipeline} (creates : s.Creates actions r p)
    (a : Action) : s.Creates (actions ++ [a]) r p := by
  obtain ⟨before, after, rfl, answer⟩ := creates
  exact ⟨before, after ++ [a], by simp, answer⟩

/-- A stored pipeline lists the jobs that it was admitted with. -/
theorem listed_as_admitted
    (made : new? now registry queueCapacity unit workers poolCapacity = some s)
    (distinct : Id.Distinct (s.run actions).engine.issued) {id : Id} {row : PipelineRow}
    (found : (s.run actions).engine.store.pipelines.get? id = some row) :
    ∃ r p, s.Creates actions r p ∧ p.id = id ∧ row.jobIds = p.jobs.map (·.id) := by
  induction actions using List.reverseRecOn generalizing id row with
  | nil =>
    rw [run_nil, (new_eq made).1] at found
    cases found
  | append_singleton actions a ih =>
    rw [run_append, run_cons, run_nil] at distinct found
    have few := distinct.mono (issued_perform _ a)
    have earlier {row : PipelineRow}
        (before : (s.run actions).engine.store.pipelines.get? id = some row) :
        ∃ r p, s.Creates (actions ++ [a]) r p ∧ p.id = id ∧ row.jobIds = p.jobs.map (·.id) := by
      obtain ⟨r, p, creates, rest⟩ := ih few before
      exact ⟨r, p, creates.concat a, rest⟩
    cases changes_perform (accounted_run made few).numbered a distinct with
    | nothing same =>
      obtain ⟨row', before, ids⟩ := same.symm.record found
      exact ids ▸ earlier before
    | job j _ _ _ store => exact earlier (by rwa [store] at found)
    | pipeline r p asked answer _ _ store =>
      rw [store] at found
      rcases Table.get?_put_cases found with ⟨same, rfl⟩ | ⟨_, before⟩
      · exact ⟨r, p, ⟨actions, [], by rw [asked], answer⟩, same.symm, rfl⟩
      · exact earlier before
    | erasedJobs _ _ _ pipelines => exact earlier (by rwa [pipelines] at found)
    | erasedPipeline _ _ _ store =>
      rw [store] at found
      exact earlier (Table.get?_of_erase found).2

/-- In every run from an empty store the record of a pipeline and the records of its jobs agree on
which jobs it has and how they follow each other. -/
theorem views_agree (made : new? now registry queueCapacity unit workers poolCapacity = some s)
    (short : ∀ a ∈ actions, a.IsShort) (distinct : Id.Distinct (s.run actions).engine.issued)
    (readable : (s.run actions).engine.store.Readable) :
    (∀ id row, (s.run actions).engine.store.pipelines.get? id = some row →
      ∃ r p q, s.Creates actions r p ∧ p.id = id ∧ p.jobs.map (·.name) = r.jobs.map (·.name) ∧
        (s.run actions).engine.store.Shows p q ∧
        (s.run actions).engine.pipelineJobs id = .ok (q.jobs.map Job.setDuration)) ∧
    ∀ id, (s.run actions).engine.store.pipelines.get? id = none →
      (s.run actions).engine.store.getJobsByPipeline id = .ok [] := by
  have consistent := (sound_run made short distinct).consistent
  refine ⟨?_, fun id absent => consistent.getJobsByPipeline_absent readable absent⟩
  intro id row found
  obtain ⟨r, p, creates, rfl, jobIds⟩ := listed_as_admitted made distinct found
  obtain ⟨q, shows⟩ := consistent.shows readable found jobIds
  refine ⟨r, p, q, creates, rfl, ?_, shows, ?_⟩
  · obtain ⟨_, _, _, answer⟩ := creates
    obtain ⟨runAt, _, asked, _⟩ := Engine.createPipeline_ok answer
    rw [asked, Engine.names_pipelineOfRequest]
  · simp only [Engine.pipelineJobs, shows.read, shows.found, Except.mapError, bind, Except.bind]

/-- The first job waits for its next run, and the second runs. -/
theorem views_agree_firstJob :
    (∃ r p q, start.Creates firstJob r p ∧ (start.run firstJob).engine.store.Shows p q ∧
      q.jobs.map (·.id) = [.issued 1, .issued 2] ∧
      q.jobs.map (·.status) = [.pending, .inProgress]) ∧
    (start.run firstJob).engine.store.getJobsByPipeline (.issued 3) = .ok [] := by
  have readable : (start.run firstJob).engine.store.Readable :=
    Store.readable_of_values (by decide +kernel) (by decide +kernel)
  obtain ⟨stored, others⟩ :=
    views_agree new_start short_firstJob (Id.distinct_of_le (by decide +kernel)) readable
  have present : ((start.run firstJob).engine.store.pipelines.get? (.issued 0)).isSome = true := by
    decide +kernel
  obtain ⟨row, found⟩ := Option.isSome_iff_exists.mp present
  obtain ⟨r, p, q, creates, key, _, shows, _⟩ := stored _ row found
  have jobs : ((start.run firstJob).engine.store.getPipeline (.issued 0)).toOption.map
      (fun q => (q.jobs.map (·.id), q.jobs.map (·.status))) =
        some ([.issued 1, .issued 2], [.pending, .inProgress]) := by
    decide +kernel
  rw [← key, shows.read] at jobs
  obtain ⟨ids, statuses⟩ := Prod.mk.inj (Option.some.inj jobs)
  exact ⟨⟨r, p, q, creates, shows, ids, statuses⟩, others _ (by decide +kernel)⟩

end System

end Rota
