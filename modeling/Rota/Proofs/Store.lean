import Rota.Proofs.Origin
import Rota.Proofs.Sort
import Rota.Proofs.Table
/-! What the operations of the store read and write.
Apart from admission and deletion, an operation writes over records that exist: `Edited` lists
the jobs and the pipeline records that it writes, in order. -/
namespace Rota

theorem Job.pending_of_isDue {j : Job} {now : Instant} (due : j.isDue now = true) :
    j.status = .pending := by
  simp only [isDue, Bool.and_eq_true, decide_eq_true_eq] at due
  exact due.1

namespace Store

variable {s s' s'' : Store} {j k : Job} {p : Pipeline} {id : Id}

/-! ### Reading -/

theorem ensureOpen_ok {v : Unit} (opened : s.ensureOpen = .ok v) : s.isClosed = false := by
  unfold ensureOpen at opened
  split at opened
  next => cases opened
  next open_ => simpa using open_

theorem getJob_ok (read : s.getJob id = .ok j) :
    ∃ row, s.jobs.get? id = some row ∧ row.reread = .ok j := by
  obtain ⟨_, _, found⟩ := bind_ok read
  split at found
  next row present => exact ⟨row, present, found⟩
  next => cases found

theorem getPipeline_ok (read : s.getPipeline id = .ok p) :
    ∃ row, s.pipelines.get? id = some row ∧ s.loadPipeline row = .ok p := by
  obtain ⟨_, _, found⟩ := bind_ok read
  split at found
  next row present => exact ⟨row, present, found⟩
  next => cases found

theorem isClosed_of_getJob (read : s.getJob id = .ok j) : s.isClosed = false := by
  obtain ⟨_, opened, _⟩ := bind_ok read
  exact ensureOpen_ok opened

theorem isClosed_of_getPipeline (read : s.getPipeline id = .ok p) : s.isClosed = false := by
  obtain ⟨_, opened, _⟩ := bind_ok read
  exact ensureOpen_ok opened

theorem loadPipeline_ok {row : PipelineRow} (read : s.loadPipeline row = .ok p) :
    ∃ jobs, List.Forall₂ (fun x y => x.reread = .ok y) (row.jobIds.filterMap s.jobs.get?) jobs ∧
      p = { row.record.reread with jobs := sortBy Job.sequenceLe jobs } := by
  obtain ⟨jobs, mapped, same⟩ := bind_ok read
  cases same
  exact ⟨jobs, mapM_ok mapped, rfl⟩

/-- A pipeline cannot be read from an open store only if it does not exist or one of its jobs
nests too deeply. -/
theorem getPipeline_error {e : StoreError} (failed : s.getPipeline id = .error e)
    (open_ : s.isClosed = false) :
    s.pipelines.get? id = none ∨
      ∃ row, s.pipelines.get? id = some row ∧
        ∃ jobId ∈ row.jobIds, ∃ j, s.jobs.get? jobId = some j ∧ maxDepth < j.depth := by
  unfold getPipeline ensureOpen at failed
  simp only [open_, Bool.false_eq_true, if_false, bind, Except.bind] at failed
  split at failed
  next row present =>
    refine Or.inr ⟨row, present, ?_⟩
    unfold loadPipeline at failed
    cases mapped : (row.jobIds.filterMap s.jobs.get?).mapM Job.reread with
    | ok jobs =>
      rw [mapped] at failed
      cases failed
    | error e' =>
      obtain ⟨j, member, bad⟩ := mapM_error mapped
      obtain ⟨jobId, listed, found⟩ := List.mem_filterMap.mp member
      refine ⟨jobId, listed, j, found, ?_⟩
      by_contra shallow
      obtain ⟨k, good⟩ := Job.reread_ok_iff.mpr (Nat.le_of_not_lt shallow)
      rw [good] at bad
      cases bad
  next absent => exact Or.inl absent

theorem mem_due {now : Instant} {due : List Job} (read : s.getDueJobs now = .ok due)
    (member : j ∈ due) :
    j.isDue now = true ∧ ∃ row ∈ s.jobs.values, row.reread = .ok j := by
  obtain ⟨jobs, all, same⟩ := bind_ok read
  cases same
  obtain ⟨inside, isDue⟩ := List.mem_filter.mp ((sortBy_perm _ _).mem_iff.mp member)
  obtain ⟨_, _, mapped⟩ := bind_ok all
  obtain ⟨row, stored, rereads⟩ := forall₂_mem_right (mapM_ok mapped) inside
  exact ⟨isDue, row, stored, rereads⟩

theorem mem_jobs {status : Status} {all : List Job} (read : s.getJobs status = .ok all)
    (member : j ∈ all) : ∃ row ∈ s.jobs.values, row.reread = .ok j := by
  obtain ⟨jobs, every, same⟩ := bind_ok read
  cases same
  have inside := (List.mem_filter.mp ((sortBy_perm _ _).mem_iff.mp member)).1
  obtain ⟨_, _, mapped⟩ := bind_ok every
  exact forall₂_mem_right (mapM_ok mapped) inside

/-! ### Writing over what exists -/

def putRecord (t : Table PipelineRow) (p : Pipeline) : Table PipelineRow :=
  match t.get? p.id with
  | some row => t.put p.id { row with record := { p with jobs := [] } }
  | none => t

theorem get?_putRecord (t : Table PipelineRow) (p : Pipeline) (id : Id) :
    (putRecord t p).get? id =
      if id = p.id then (t.get? id).map fun row => { row with record := { p with jobs := [] } }
      else t.get? id := by
  unfold putRecord
  split
  next row found =>
    rw [Table.get?_put]
    split
    next same => simp [same, found]
    next => rfl
  next missing =>
    split
    next same => simp [same, missing]
    next => rfl

/-- The last of `jobs` with an identifier, else what was there. -/
theorem get?_putJobs (jobs : List Job) (t : Table Job) (id : Id) :
    (putJobs t jobs).get? id = (jobs.reverse.find? fun j => j.id = id).or (t.get? id) := by
  unfold putJobs
  induction jobs generalizing t with
  | nil => simp
  | cons j jobs ih =>
    rw [List.foldl_cons, ih, Table.get?_put, List.reverse_cons, List.find?_append]
    cases later : jobs.reverse.find? fun j => j.id = id with
    | some k => simp
    | none => by_cases same : j.id = id <;> simp [same, Ne.symm]

/-- What lies under an identifier after jobs were put is one of these or was there before. -/
theorem putJobs_cases {jobs : List Job} {t : Table Job} (found : (putJobs t jobs).get? id = some k) :
    (k ∈ jobs ∧ k.id = id) ∨ (t.get? id = some k ∧ ∀ j ∈ jobs, j.id ≠ id) := by
  rw [get?_putJobs] at found
  cases last : jobs.reverse.find? fun j => j.id = id with
  | some j =>
    rw [last] at found
    cases found
    have same := List.find?_some last
    exact Or.inl ⟨List.mem_reverse.mp (List.mem_of_find?_eq_some last), by simpa using same⟩
  | none =>
    rw [last] at found
    refine Or.inr ⟨by simpa using found, fun j member => ?_⟩
    simpa using List.find?_eq_none.mp last j (List.mem_reverse.mpr member)

theorem get?_putJobs_of_mem {jobs : List Job} {j : Job} (t : Table Job) (member : j ∈ jobs) :
    ∃ k ∈ jobs, (putJobs t jobs).get? j.id = some k ∧ k.id = j.id := by
  cases found : (putJobs t jobs).get? j.id with
  | none =>
    rw [get?_putJobs, Option.or_eq_none_iff, List.find?_eq_none] at found
    simpa using found.1 j (List.mem_reverse.mpr member)
  | some k =>
    rcases putJobs_cases found with ⟨inside, same⟩ | ⟨_, others⟩
    · exact ⟨k, inside, rfl, same⟩
    · exact absurd rfl (others j member)

theorem get?_putJobs_other {jobs : List Job} (t : Table Job) (others : ∀ j ∈ jobs, j.id ≠ id) :
    (putJobs t jobs).get? id = t.get? id := by
  have none_ : (jobs.reverse.find? fun j => j.id = id) = none := by
    simpa [List.find?_eq_none] using others
  rw [get?_putJobs, none_, Option.none_or]

theorem Keyed.putJobs {t : Table Job} {jobs : List Job} (keyed : t.Keyed) :
    (Store.putJobs t jobs).Keyed := by
  unfold Store.putJobs
  induction jobs generalizing t with
  | nil => exact keyed
  | cons j jobs ih => exact ih (keyed.put j.id j)

/-- To put jobs where there are none and to erase them changes nothing. -/
theorem eraseAll_putJobs {jobs : List Job} {t : Table Job}
    (absent : ∀ j ∈ jobs, t.get? j.id = none) :
    (jobs.map (·.id)).foldl Table.erase (putJobs t jobs) = t := by
  have taken (rest : List Job) (known : ∀ j ∈ rest, j ∈ jobs) (u : Table Job) :
      (jobs.map (·.id)).foldl Table.erase (putJobs u rest) =
        (jobs.map (·.id)).foldl Table.erase u := by
    unfold putJobs
    induction rest generalizing u with
    | nil => rfl
    | cons j rest ih =>
      rw [List.foldl_cons, ih fun k member => known k (by simp [member])]
      exact Table.eraseAll_put u j (List.mem_map_of_mem (known j (by simp)))
  rw [taken jobs (fun _ member => member) t]
  refine Table.eraseAll_absent fun id member => ?_
  obtain ⟨j, inside, rfl⟩ := List.mem_map.mp member
  exact absent j inside

/-- The store `s'` is `s` with these jobs and pipeline records written over existing ones; what is
kept of runs may differ. -/
structure Edited (s s' : Store) (written : List Job) (records : List Pipeline) : Prop where
  jobs : s'.jobs = putJobs s.jobs written
  known : ∀ j ∈ written, (s.jobs.get? j.id).isSome
  pipelines : s'.pipelines = records.foldl putRecord s.pipelines
  closed : s'.isClosed = s.isClosed

theorem isSome_putJobs {jobs : List Job} {t : Table Job}
    (known : ∀ j ∈ jobs, (t.get? j.id).isSome) (id : Id) :
    ((putJobs t jobs).get? id).isSome = (t.get? id).isSome := by
  rw [get?_putJobs]
  cases last : jobs.reverse.find? fun j => j.id = id with
  | none => simp
  | some j =>
    have member := List.mem_reverse.mp (List.mem_of_find?_eq_some last)
    have same : j.id = id := by simpa using List.find?_some last
    simpa [same] using known j member

namespace Edited

theorem refl (s : Store) : Edited s s [] [] := ⟨rfl, by simp, rfl, rfl⟩

theorem trans {jobs jobs' : List Job} {records records' : List Pipeline}
    (first : Edited s s' jobs records) (second : Edited s' s'' jobs' records') :
    Edited s s'' (jobs ++ jobs') (records ++ records') where
  jobs := by rw [second.jobs, first.jobs, putJobs, putJobs, putJobs, List.foldl_append]
  known j member := by
    rcases List.mem_append.mp member with early | late
    · exact first.known j early
    · have present := second.known j late
      rwa [first.jobs, isSome_putJobs first.known] at present
  pipelines := by rw [second.pipelines, first.pipelines, List.foldl_append]
  closed := second.closed.trans first.closed

theorem isSome_jobs (edited : Edited s s' written records) :
    (s'.jobs.get? id).isSome = (s.jobs.get? id).isSome := by
  rw [edited.jobs]
  exact isSome_putJobs edited.known id

theorem get?_unwritten (edited : Edited s s' written records) (others : ∀ k ∈ written, k.id ≠ id) :
    s'.jobs.get? id = s.jobs.get? id := by
  rw [edited.jobs]
  exact get?_putJobs_other s.jobs others

theorem get?_pipelines (edited : Edited s s' written records) (id : Id) :
    (s'.pipelines.get? id).map PipelineRow.jobIds =
      (s.pipelines.get? id).map PipelineRow.jobIds := by
  rw [edited.pipelines]
  clear edited
  generalize s.pipelines = t
  induction records generalizing t with
  | nil => rfl
  | cons p records ih =>
    rw [List.foldl_cons, ih, get?_putRecord]
    split
    next => rw [Option.map_map]; rfl
    next => rfl

theorem isSome_pipelines (edited : Edited s s' written records) :
    (s'.pipelines.get? id).isSome = (s.pipelines.get? id).isSome := by
  have same := congrArg Option.isSome (edited.get?_pipelines id)
  rwa [Option.isSome_map, Option.isSome_map] at same

end Edited

theorem updateJob_ok (updated : s.updateJob j = .ok s') :
    Edited s s' [j] [] ∧ s' = { s with jobs := s.jobs.put j.id j } := by
  obtain ⟨_, _, written⟩ := bind_ok updated
  split at written
  next present =>
    cases written
    exact ⟨⟨rfl, by simpa [Table.contains_eq] using present, rfl, rfl⟩, rfl⟩
  next => cases written

theorem updateJob_known (open_ : s.isClosed = false) (known : (s.jobs.get? j.id).isSome = true) :
    s.updateJob j = .ok { s with jobs := s.jobs.put j.id j } := by
  have present : s.jobs.contains j.id = true := known
  simp [updateJob, ensureOpen, open_, present, bind, Except.bind]

theorem updateJob_error {e : StoreError} (failed : s.updateJob j = .error e)
    (open_ : s.isClosed = false) : s.jobs.get? j.id = none := by
  unfold updateJob ensureOpen at failed
  simp only [open_, Bool.false_eq_true, if_false, bind, Except.bind] at failed
  split at failed
  next => cases failed
  next absent => exact Table.not_contains absent

theorem updatePipeline_ok (updated : s.updatePipeline p = .ok s') :
    Edited s s' [] [p] ∧ (s.pipelines.get? p.id).isSome := by
  obtain ⟨_, _, written⟩ := bind_ok updated
  split at written
  next row present =>
    cases written
    exact ⟨⟨rfl, by simp, by simp [putRecord, present], rfl⟩, by simp [present]⟩
  next => cases written

theorem updatePipeline_error {e : StoreError} (failed : s.updatePipeline p = .error e)
    (open_ : s.isClosed = false) : s.pipelines.get? p.id = none := by
  unfold updatePipeline ensureOpen at failed
  simp only [open_, Bool.false_eq_true, if_false, bind, Except.bind] at failed
  split at failed
  next => cases failed
  next absent => exact absent

theorem updateJobs_edited {jobs : List Job} {answer : Except StoreError Unit}
    (updated : s.updateJobs jobs = (s', answer)) :
    ∃ written, written <+: jobs ∧ Edited s s' written [] := by
  induction jobs generalizing s with
  | nil =>
    cases updated
    exact ⟨[], List.prefix_rfl, .refl _⟩
  | cons j jobs ih =>
    rw [updateJobs] at updated
    split at updated
    next next_ first =>
      obtain ⟨written, early, rest⟩ := ih updated
      exact ⟨j :: written, by simpa using early, (updateJob_ok first).1.trans rest⟩
    next =>
      cases updated
      exact ⟨[], List.nil_prefix, .refl _⟩

/-! ### Arming again -/

theorem recycleJob_ok {now : Instant} (recycled : s.recycleJob j now = .ok (s', k)) :
    Edited s s' [k] [] ∧ k.origin = j.origin ∧ k.status = .pending ∧ k.details = j.details := by
  obtain ⟨interval, _, rest⟩ := bind_ok recycled
  cases interval with
  | none =>
    obtain ⟨armed, parked, last⟩ := bind_ok rest
    obtain ⟨_, updated, same⟩ := bind_ok last
    cases parked
    cases same
    exact ⟨(updateJob_ok updated).1, rfl, rfl, rfl⟩
  | some i =>
    obtain ⟨armed, changed, last⟩ := bind_ok rest
    obtain ⟨_, updated, same⟩ := bind_ok last
    cases same
    have recycles := mapError_ok changed
    exact ⟨(updateJob_ok updated).1, Job.origin_recycle recycles, Job.status_recycle recycles,
      Job.details_recycle recycles⟩

end Store

namespace Pipeline

private theorem recycleJobs_ok {base : Instant} {delay : UInt64} {position : Nat}
    {jobs armed : List Job}
    {v : Unit} (recycled : recycleJobs base delay position jobs = (armed, .ok v)) :
    List.Forall₂ (fun j k => ∃ t, k = j.reset (some t)) jobs armed := by
  induction jobs generalizing position armed with
  | nil =>
    cases recycled
    exact .nil
  | cons j jobs ih =>
    rw [recycleJobs] at recycled
    split at recycled
    next => cases recycled
    next =>
      split at recycled
      next => cases recycled
      next t _ =>
        cases rest : recycleJobs base delay (position + 1) jobs with
        | mk later answer =>
          rw [rest] at recycled
          cases recycled
          exact .cons ⟨t, rfl⟩ (ih rest)

/-- A pipeline that has been armed again is pending, and so are its jobs. -/
theorem recycle_ok {p q : Pipeline} {now : Instant} {v : Unit} (recycled : p.recycle now = (q, .ok v)) :
    List.Forall₂ (fun j k => ∃ t, k = j.reset (some t)) p.jobs q.jobs ∧
      q.id = p.id ∧ q.status = .pending ∧ q.details = p.details := by
  unfold recycle at recycled
  dsimp only at recycled
  split at recycled
  next => cases recycled
  next base _ =>
    split at recycled
    next => cases recycled
    next jobs armed =>
      cases recycled
      exact ⟨recycleJobs_ok armed, rfl, rfl, rfl⟩

end Pipeline

namespace Store

variable {s s' : Store} {p q : Pipeline}

/-- Arming a pipeline again writes pending copies of its jobs, and a pending record of it. -/
theorem recyclePipeline_edited {now : Instant} {answer : Except (Stop StoreError) Unit}
    (recycled : s.recyclePipeline p now = (s', q, answer)) :
    ∃ jobs records, Edited s s' jobs records ∧
      (∀ k ∈ jobs, k.status = .pending ∧
        ∃ j ∈ p.jobs, k.origin = j.origin ∧ k.details = j.details) ∧
      ∀ r ∈ records, r.id = p.id ∧ r.status = .pending ∧ r.details = p.details := by
  unfold recyclePipeline at recycled
  rcases recycles : p.recycle now with ⟨armed, (e | _) | _⟩
  all_goals simp only [recycles] at recycled
  · cases recycled
    exact ⟨[], [], .refl s, by simp, by simp⟩
  · cases recycled
    exact ⟨[], [], .refl s, by simp, by simp⟩
  · obtain ⟨jobs, same⟩ := Pipeline.recycle_ok recycles
    have written (done : List Job) (early : done <+: armed.jobs) :
        ∀ k ∈ done, k.status = .pending ∧
          ∃ j ∈ p.jobs, k.origin = j.origin ∧ k.details = j.details := by
      intro k member
      obtain ⟨j, inside, t, rfl⟩ := forall₂_mem_right jobs (early.subset member)
      exact ⟨rfl, j, inside, rfl, rfl⟩
    split at recycled
    next t e updates =>
      cases recycled
      obtain ⟨done, early, edited⟩ := updateJobs_edited updates
      exact ⟨done, [], edited, written done early, by simp⟩
    next t updates =>
      obtain ⟨done, early, edited⟩ := updateJobs_edited updates
      split at recycled
      next u stored =>
        cases recycled
        exact ⟨done ++ [], [] ++ [_], edited.trans (updatePipeline_ok stored).1,
          by simpa using written done early, by simpa using same⟩
      next =>
        cases recycled
        exact ⟨done, [], edited, written done early, by simp⟩

end Store

namespace Store

variable {s s' : Store} {j : Job} {p : Pipeline} {id : Id}

/-! ### What is put in and taken out -/

def withJob (s : Store) (j : Job) : Store := { s with jobs := s.jobs.put j.id j }

def withoutJob (s : Store) (id : Id) : Store :=
  { s with
    jobs := s.jobs.erase id
    results := s.results.erase id
    transactions := s.transactions.eraseIf fun t => t.jobId = id }

def withPipeline (s : Store) (p : Pipeline) : Store :=
  { s with
    jobs := putJobs s.jobs p.jobs
    pipelines := s.pipelines.put p.id ⟨{ p with jobs := [] }, p.jobs.map (·.id)⟩ }

def withRecord (s : Store) (row : PipelineRow) (p : Pipeline) : Store :=
  { s with pipelines := s.pipelines.put p.id { row with record := { p with jobs := [] } } }

def withoutPipeline (s : Store) (id : Id) (row : PipelineRow) : Store :=
  { s with
    pipelines := s.pipelines.erase id
    jobs := row.jobIds.foldl Table.erase s.jobs
    results := row.jobIds.foldl Table.erase s.results }

/-! ### Operations that succeed -/

theorem createJob_ok (created : s.createJob j = .ok s') :
    s.isClosed = false ∧ s' = s.withJob j := by
  obtain ⟨_, opened, same⟩ := bind_ok created
  cases same
  exact ⟨ensureOpen_ok opened, rfl⟩

theorem createJob_of_open (open_ : s.isClosed = false) : s.createJob j = .ok (s.withJob j) := by
  simp [createJob, ensureOpen, open_, bind, Except.bind, withJob]

theorem deleteJob_ok (deleted : s.deleteJob id = .ok s') :
    (s.jobs.get? id).isSome = true ∧ s' = s.withoutJob id := by
  obtain ⟨_, _, erased⟩ := bind_ok deleted
  split at erased
  next present =>
    cases erased
    exact ⟨present, rfl⟩
  next => cases erased

theorem createPipeline_ok (created : s.createPipeline p = .ok s') :
    s.isClosed = false ∧ s' = s.withPipeline p := by
  obtain ⟨_, opened, same⟩ := bind_ok created
  cases same
  exact ⟨ensureOpen_ok opened, rfl⟩

theorem createPipeline_of_open (open_ : s.isClosed = false) :
    s.createPipeline p = .ok (s.withPipeline p) := by
  simp [createPipeline, ensureOpen, open_, bind, Except.bind, withPipeline]

theorem updatePipeline_eq (updated : s.updatePipeline p = .ok s') :
    ∃ row, s.pipelines.get? p.id = some row ∧ s' = s.withRecord row p := by
  obtain ⟨_, _, written⟩ := bind_ok updated
  split at written
  next row found =>
    cases written
    exact ⟨row, found, rfl⟩
  next => cases written

theorem deletePipeline_ok (deleted : s.deletePipeline id = .ok s') :
    ∃ row, s.pipelines.get? id = some row ∧ s' = s.withoutPipeline id row := by
  obtain ⟨_, _, erased⟩ := bind_ok deleted
  split at erased
  next row found =>
    cases erased
    exact ⟨row, found, rfl⟩
  next => cases erased

theorem createResult_ok {r : JobResult} (created : s.createResult r = .ok s') :
    s' = { s with results := s.results.put r.jobId r } := by
  obtain ⟨_, _, same⟩ := bind_ok created
  cases same
  rfl

theorem deleteResult_ok (deleted : s.deleteResult id = .ok s') :
    s' = { s with results := s.results.erase id } := by
  obtain ⟨_, _, erased⟩ := bind_ok deleted
  split at erased
  next =>
    cases erased
    rfl
  next => cases erased

theorem createTransaction_ok {t : Transaction} (created : s.createTransaction t = .ok s') :
    s' = { s with transactions := s.transactions.put t.id t } := by
  obtain ⟨_, _, same⟩ := bind_ok created
  cases same
  rfl

end Store

@[simp] theorem Engine.store_withStore (e : Engine) (s : Store) : (e.withStore s).store = s := rfl

end Rota
