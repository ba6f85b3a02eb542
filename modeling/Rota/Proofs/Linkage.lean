import Rota.Proofs.Id
import Rota.Proofs.Loader
import Rota.Proofs.Store
/-! How the jobs and the pipelines of a store belong together.
A pipeline lists its jobs by identifier, and each of them says where it stands. Copies of jobs
are kept outside the store, some of them for long; a copy stays good for writing over the record
of its job because what is stored under an identifier never changes its origin. -/
namespace Rota

namespace Store

/-- Every job of the pipeline `id` is stored, and says where it stands. -/
structure InPlace (s : Store) (id : Id) (jobIds : List Id) : Prop where
  several : 2 ≤ jobIds.length
  distinct : jobIds.Nodup
  placed : ∀ i jobId, jobIds[i]? = some jobId → ∃ j, s.jobs.get? jobId = some j ∧
    j.pipelineId = some id ∧ j.sequence.toNat = i ∧ j.nextJobId = jobIds[i + 1]?

/-- Pipelines have their jobs, and jobs their pipelines. -/
structure Linked (s : Store) : Prop where
  inPlace : ∀ id row, s.pipelines.get? id = some row → s.InPlace id row.jobIds
  owned : ∀ jobId j id, s.jobs.get? jobId = some j → j.pipelineId = some id →
    ∃ row, s.pipelines.get? id = some row ∧ jobId ∈ row.jobIds

/-- Jobs and pipelines lie under their own identifiers, and no two jobs under one. -/
structure Indexed (s : Store) : Prop where
  keyed : s.jobs.Keyed
  jobKey : ∀ id j, s.jobs.get? id = some j → j.id = id
  recordKey : ∀ id row, s.pipelines.get? id = some row → row.record.id = id

/-- What holds of a store that the engine has filled, with `n` identifiers issued. -/
structure Consistent (s : Store) (n : Nat) : Prop where
  keyed : s.jobs.Keyed
  jobKey : ∀ id j, s.jobs.get? id = some j → j.id = id
  recordKey : ∀ id row, s.pipelines.get? id = some row → row.record.id = id
  jobIssued : ∀ id j, s.jobs.get? id = some j → Id.IsIssued n id
  pipelineIssued : ∀ id row, s.pipelines.get? id = some row → Id.IsIssued n id
  linked : s.Linked

/-- A copy of a job that is stored, or that was. -/
structure IsCopy (s : Store) (n : Nat) (c : Job) : Prop where
  issued : Id.IsIssued n c.id
  ownerIssued : ∀ id, c.pipelineId = some id → Id.IsIssued n id
  agrees : ∀ j, s.jobs.get? c.id = some j → j.origin = c.origin
  listed : ∀ id row, c.pipelineId = some id → s.pipelines.get? id = some row → c.id ∈ row.jobIds

/-- What `s'` has under the first `n` identifiers is in `s` too, with the same origin. -/
structure Descends (n : Nat) (s s' : Store) : Prop where
  jobs : ∀ id j, Id.IsIssued n id → s'.jobs.get? id = some j →
    ∃ i, s.jobs.get? id = some i ∧ j.origin = i.origin
  pipelines : ∀ id row, Id.IsIssued n id → s'.pipelines.get? id = some row →
    ∃ r, s.pipelines.get? id = some r ∧ row.jobIds = r.jobIds

variable {s s' s'' : Store} {n m : Nat} {c d j : Job} {id jobId : Id} {row : PipelineRow}

/-- A scan reads stored jobs that are due. -/
theorem Indexed.stored_due (indexed : s.Indexed) {now : Instant} {due : List Job}
    (read : s.getDueJobs now = .ok due) (member : c ∈ due) :
    ∃ j, s.jobs.get? c.id = some j ∧ j.reread = .ok c ∧ c.isDue now = true := by
  obtain ⟨isDue, j, present, rereads⟩ := mem_due read member
  obtain ⟨id, stored⟩ := indexed.keyed.get?_of_mem_values present
  have key : c.id = id :=
    (Job.id_of_origin (Job.origin_reread rereads)).trans (indexed.jobKey id j stored)
  exact ⟨j, key ▸ stored, rereads, isDue⟩

/-- To read all jobs is to read those under all identifiers, in their order. -/
theorem ids_of_reads {jobs : List Job} (keyed : s.jobs.Keyed)
    (jobKey : ∀ id j, s.jobs.get? id = some j → j.id = id)
    (reads : List.Forall₂ (fun j k => j.reread = .ok k) s.jobs.values jobs) :
    jobs.map (·.id) = s.jobs.rows.map (·.1) := by
  have ids : s.jobs.values.map (·.id) = jobs.map (·.id) :=
    map_eq_of_forall₂ (reads.imp fun _ _ read => (Job.id_of_origin (Job.origin_reread read)).symm)
  rw [← ids, Table.values, List.map_map]
  apply List.map_congr_left
  intro row member
  exact jobKey row.1 row.2 (keyed.get?_of_mem row member)

/-- Of a list without a filter, the jobs that belong to no pipeline are all of that kind. -/
theorem mem_alone_iff {all : List Job} (keyed : s.jobs.Keyed)
    (jobKey : ∀ id j, s.jobs.get? id = some j → j.id = id)
    (read : s.getJobs .undefined = .ok all) :
    id ∈ (all.filter fun j => !j.belongsToPipeline).map (·.id) ↔
      ∃ j, s.jobs.get? id = some j ∧ j.pipelineId = none := by
  constructor
  · intro member
    obtain ⟨c, inside, rfl⟩ := List.mem_map.mp member
    obtain ⟨listed, alone⟩ := List.mem_filter.mp inside
    obtain ⟨j, present, rereads⟩ := mem_jobs read listed
    obtain ⟨key, stored⟩ := keyed.get?_of_mem_values present
    have origin := Job.origin_reread rereads
    have own : c.id = key := (Job.id_of_origin origin).trans (jobKey key j stored)
    refine ⟨j, own ▸ stored, ?_⟩
    rw [← Job.pipelineId_of_origin origin]
    simpa [Job.belongsToPipeline] using alone
  · rintro ⟨j, stored, alone⟩
    obtain ⟨jobs, every, same⟩ := bind_ok read
    cases same
    obtain ⟨_, _, mapped⟩ := bind_ok every
    obtain ⟨c, inside, rereads⟩ :=
      forall₂_mem_right (mapM_ok mapped).flip (Table.mem_values_of_get? stored)
    have origin := Job.origin_reread rereads
    refine List.mem_map.mpr ⟨c, List.mem_filter.mpr ⟨(sortBy_perm _ _).mem_iff.mpr
      (List.mem_filter.mpr ⟨inside, rfl⟩), ?_⟩,
      (Job.id_of_origin origin).trans (jobKey id j stored)⟩
    rw [Job.belongsToPipeline, Job.pipelineId_of_origin origin, alone]
    rfl

/-- A scan reads no job twice. -/
theorem Indexed.nodup_due (indexed : s.Indexed) {now : Instant} {due : List Job}
    (read : s.getDueJobs now = .ok due) : (due.map (·.id)).Nodup := by
  obtain ⟨jobs, all, same⟩ := bind_ok read
  cases same
  obtain ⟨_, _, mapped⟩ := bind_ok all
  have distinct : (jobs.map (·.id)).Nodup := by
    rw [ids_of_reads indexed.keyed indexed.jobKey (mapM_ok mapped)]
    exact indexed.keyed
  exact ((sortBy_perm _ _).map _).nodup_iff.mpr (distinct.sublist (List.filter_sublist.map _))

/-- A pipeline that is read has its own identifier, and its jobs are stored. -/
theorem Indexed.loaded {p : Pipeline} (indexed : s.Indexed)
    (found : s.pipelines.get? id = some row) (loads : s.loadPipeline row = .ok p) :
    p.id = id ∧ ∀ c ∈ p.jobs, ∃ j, s.jobs.get? c.id = some j ∧ j.origin = c.origin := by
  obtain ⟨jobs, rereads, rfl⟩ := loadPipeline_ok loads
  refine ⟨indexed.recordKey id row found, fun c inside => ?_⟩
  obtain ⟨j, listed, read⟩ := forall₂_mem_right rereads ((sortBy_perm _ _).mem_iff.mp inside)
  obtain ⟨jobId, _, stored⟩ := List.mem_filterMap.mp listed
  have same := Job.origin_reread read
  have key : c.id = jobId := (Job.id_of_origin same).trans (indexed.jobKey jobId j stored)
  exact ⟨j, key ▸ stored, same.symm⟩

theorem Consistent.indexed (consistent : s.Consistent n) : s.Indexed :=
  ⟨consistent.keyed, consistent.jobKey, consistent.recordKey⟩

theorem consistent_empty : empty.Consistent 0 where
  keyed := Table.keyed_empty
  jobKey := by simp [empty]
  recordKey := by simp [empty]
  jobIssued := by simp [empty]
  pipelineIssued := by simp [empty]
  linked := ⟨by simp [empty], by simp [empty]⟩

theorem Consistent.mono (consistent : s.Consistent n) (le : n ≤ m) : s.Consistent m :=
  { consistent with
    jobIssued := fun id j stored => (consistent.jobIssued id j stored).mono le
    pipelineIssued := fun id row found => (consistent.pipelineIssued id row found).mono le }

theorem Consistent.of_eq (consistent : s.Consistent n) (jobs : s'.jobs = s.jobs)
    (pipelines : s'.pipelines = s.pipelines) : s'.Consistent n where
  keyed := jobs ▸ consistent.keyed
  jobKey := by
    rw [jobs]
    exact consistent.jobKey
  recordKey := by
    rw [pipelines]
    exact consistent.recordKey
  jobIssued := by
    rw [jobs]
    exact consistent.jobIssued
  pipelineIssued := by
    rw [pipelines]
    exact consistent.pipelineIssued
  linked := by
    refine ⟨fun id row found => ?_, fun jobId j id stored owner => ?_⟩
    · rw [pipelines] at found
      obtain ⟨several, distinct, placed⟩ := consistent.linked.inPlace id row found
      exact ⟨several, distinct, by rwa [jobs]⟩
    · rw [jobs] at stored
      rw [pipelines]
      exact consistent.linked.owned jobId j id stored owner

theorem Consistent.absent (consistent : s.Consistent n) (fresh : ¬Id.IsIssued n id) :
    s.jobs.get? id = none ∧ s.pipelines.get? id = none := by
  constructor
  · cases stored : s.jobs.get? id with
    | none => rfl
    | some j => exact absurd (consistent.jobIssued id j stored) fresh
  · cases found : s.pipelines.get? id with
    | none => rfl
    | some row => exact absurd (consistent.pipelineIssued id row found) fresh

theorem Descends.of_eq (n : Nat) (jobs : s'.jobs = s.jobs) (pipelines : s'.pipelines = s.pipelines) :
    Descends n s s' :=
  ⟨fun _ j _ found => ⟨j, jobs ▸ found, rfl⟩, fun _ row _ found => ⟨row, pipelines ▸ found, rfl⟩⟩

theorem Descends.refl (n : Nat) (s : Store) : Descends n s s :=
  ⟨fun _ j _ found => ⟨j, found, rfl⟩, fun _ row _ found => ⟨row, found, rfl⟩⟩

theorem Descends.trans (first : Descends n s s') (second : Descends n s' s'') :
    Descends n s s'' where
  jobs id j issued found := by
    obtain ⟨i, between, same⟩ := second.jobs id j issued found
    obtain ⟨k, before, same'⟩ := first.jobs id i issued between
    exact ⟨k, before, same.trans same'⟩
  pipelines id row issued found := by
    obtain ⟨r, between, same⟩ := second.pipelines id row issued found
    obtain ⟨q, before, same'⟩ := first.pipelines id r issued between
    exact ⟨q, before, same.trans same'⟩

theorem InPlace.stored {jobIds : List Id} (inPlace : s.InPlace id jobIds)
    (member : jobId ∈ jobIds) : ∃ j, s.jobs.get? jobId = some j ∧ j.pipelineId = some id := by
  obtain ⟨i, lt, here⟩ := List.mem_iff_getElem.mp member
  obtain ⟨j, stored, owner, _⟩ :=
    inPlace.placed i jobId (by rw [List.getElem?_eq_getElem lt, here])
  exact ⟨j, stored, owner⟩

/-! ### Copies -/

namespace IsCopy

theorem of_origin (copy : s.IsCopy n c) (same : d.origin = c.origin) : s.IsCopy n d where
  issued := Job.id_of_origin same ▸ copy.issued
  ownerIssued id owner := copy.ownerIssued id (Job.pipelineId_of_origin same ▸ owner)
  agrees j found := (copy.agrees j (Job.id_of_origin same ▸ found)).trans same.symm
  listed id row owner found := by
    rw [Job.id_of_origin same]
    exact copy.listed id row (Job.pipelineId_of_origin same ▸ owner) found

theorem descends (copy : s.IsCopy n c) (older : Descends n s s') (le : n ≤ m) :
    s'.IsCopy m c where
  issued := copy.issued.mono le
  ownerIssued id owner := (copy.ownerIssued id owner).mono le
  agrees j found := by
    obtain ⟨i, before, same⟩ := older.jobs c.id j copy.issued found
    exact same.trans (copy.agrees i before)
  listed id row owner found := by
    obtain ⟨r, before, same⟩ := older.pipelines id row (copy.ownerIssued id owner) found
    rw [same]
    exact copy.listed id r owner before

theorem same_owner (copy : s.IsCopy n c) (copy' : s.IsCopy n d) (same : c.id = d.id)
    (stored : s.jobs.get? c.id = some j) : c.pipelineId = d.pipelineId := by
  have left := copy.agrees j stored
  have right := copy'.agrees j (same ▸ stored)
  exact Job.pipelineId_of_origin (left.symm.trans right)

end IsCopy

namespace Consistent

/-- As long as the pipeline of a copy is stored, so is its job. -/
theorem stored_of_owner (consistent : s.Consistent n) (copy : s.IsCopy n c)
    (owner : c.pipelineId = some id) (found : s.pipelines.get? id = some row) :
    ∃ j, s.jobs.get? c.id = some j := by
  obtain ⟨j, stored, _⟩ :=
    (consistent.linked.inPlace id row found).stored (copy.listed id row owner found)
  exact ⟨j, stored⟩

theorem owner_of_stored (consistent : s.Consistent n) (copy : s.IsCopy n c)
    (owner : c.pipelineId = some id) (stored : s.jobs.get? c.id = some j) :
    ∃ row, s.pipelines.get? id = some row := by
  have same := Job.pipelineId_of_origin (copy.agrees j stored)
  obtain ⟨row, found, _⟩ := consistent.linked.owned c.id j id stored (same.trans owner)
  exact ⟨row, found⟩

/-- A stored job is a copy of itself. -/
theorem isCopy (consistent : s.Consistent n) (stored : s.jobs.get? jobId = some j) :
    s.IsCopy n j := by
  have key := consistent.jobKey jobId j stored
  refine ⟨key ▸ consistent.jobIssued jobId j stored, ?_, ?_, ?_⟩
  · intro id owner
    obtain ⟨row, found, _⟩ := consistent.linked.owned jobId j id stored owner
    exact consistent.pipelineIssued id row found
  · intro k found
    rw [key, stored] at found
    cases found
    rfl
  · intro id row owner found
    obtain ⟨row', found', member⟩ := consistent.linked.owned jobId j id stored owner
    rw [found] at found'
    cases found'
    exact key ▸ member

theorem isCopy_reread (consistent : s.Consistent n) (stored : s.jobs.get? jobId = some j)
    (read : j.reread = .ok c) : s.IsCopy n c :=
  (consistent.isCopy stored).of_origin (Job.origin_reread read)

theorem isCopy_getJob (consistent : s.Consistent n) (read : s.getJob id = .ok c) :
    s.IsCopy n c ∧ c.id = id := by
  obtain ⟨j, stored, rereads⟩ := getJob_ok read
  refine ⟨consistent.isCopy_reread stored rereads, ?_⟩
  rw [Job.id_of_origin (Job.origin_reread rereads), consistent.jobKey id j stored]

theorem stored_due (consistent : s.Consistent n) {now : Instant} {due : List Job}
    (read : s.getDueJobs now = .ok due) (member : c ∈ due) :
    ∃ j, s.jobs.get? c.id = some j ∧ j.reread = .ok c ∧ c.isDue now = true :=
  consistent.indexed.stored_due read member

theorem nodup_due (consistent : s.Consistent n) {now : Instant} {due : List Job}
    (read : s.getDueJobs now = .ok due) : (due.map (·.id)).Nodup :=
  consistent.indexed.nodup_due read

end Consistent

/-! ### Writing over what exists -/

namespace Edited

variable {written : List Job} {records : List Pipeline}

theorem origins_of (edited : Edited s s' written records)
    (agree : ∀ k ∈ written, ∀ j, s.jobs.get? k.id = some j → j.origin = k.origin) (id : Id) :
    (s'.jobs.get? id).map Job.origin = (s.jobs.get? id).map Job.origin := by
  refine map_eq_of_isSome edited.isSome_jobs fun k here => ?_
  rw [edited.jobs] at here
  rcases putJobs_cases here with ⟨member, rfl⟩ | ⟨before, _⟩
  · obtain ⟨j, before⟩ := Option.isSome_iff_exists.mp (edited.known k member)
    exact ⟨j, before, (agree k member j before).symm⟩
  · exact ⟨k, before, rfl⟩

theorem origins (edited : Edited s s' written records) (copies : ∀ k ∈ written, s.IsCopy n k)
    (id : Id) : (s'.jobs.get? id).map Job.origin = (s.jobs.get? id).map Job.origin :=
  edited.origins_of (fun k member => (copies k member).agrees) id

private theorem get?_jobs (edited : Edited s s' written records)
    (copies : ∀ k ∈ written, s.IsCopy n k)
    (found : s'.jobs.get? id = some j) : ∃ i, s.jobs.get? id = some i ∧ j.origin = i.origin := by
  have same := edited.origins copies id
  rw [found] at same
  obtain ⟨i, before, origin⟩ := Option.map_eq_some_iff.mp same.symm
  exact ⟨i, before, origin.symm⟩

theorem record_cases (edited : Edited s s' written records) (found : s'.pipelines.get? id = some row) :
    ∃ r, s.pipelines.get? id = some r ∧ row.jobIds = r.jobIds ∧
      (row.record = r.record ∧ (∀ p ∈ records, p.id ≠ id) ∨
        ∃ p ∈ records, p.id = id ∧ row.record = { p with jobs := [] }) := by
  rw [edited.pipelines] at found
  clear edited
  generalize s.pipelines = t at found
  induction records generalizing t with
  | nil => exact ⟨row, found, rfl, Or.inl ⟨rfl, by simp⟩⟩
  | cons p records ih =>
    obtain ⟨r, before, same, written⟩ := ih (putRecord t p) found
    rw [get?_putRecord] at before
    split at before
    next here =>
      subst id
      obtain ⟨q, first, rfl⟩ := Option.map_eq_some_iff.mp before
      refine ⟨q, first, same, Or.inr ?_⟩
      rcases written with ⟨kept, _⟩ | ⟨p', member, id, replaced⟩
      · exact ⟨p, by simp, rfl, kept⟩
      · exact ⟨p', by simp [member], id, replaced⟩
    next elsewhere =>
      refine ⟨r, before, same, ?_⟩
      rcases written with ⟨kept, others⟩ | ⟨p', member, id, replaced⟩
      · exact Or.inl ⟨kept, by simpa using ⟨Ne.symm elsewhere, others⟩⟩
      · exact Or.inr ⟨p', by simp [member], id, replaced⟩

theorem indexed (edited : Edited s s' written records)
    (agree : ∀ k ∈ written, ∀ j, s.jobs.get? k.id = some j → j.origin = k.origin)
    (indexed : s.Indexed) : s'.Indexed where
  keyed := edited.jobs ▸ Keyed.putJobs indexed.keyed
  jobKey id j found := by
    have same := edited.origins_of agree id
    rw [found] at same
    obtain ⟨i, before, origin⟩ := Option.map_eq_some_iff.mp same.symm
    exact (Job.id_of_origin origin).symm.trans (indexed.jobKey id i before)
  recordKey id row found := by
    obtain ⟨r, before, _, ⟨kept, _⟩ | ⟨p, _, same, replaced⟩⟩ := edited.record_cases found
    · rw [kept]
      exact indexed.recordKey id r before
    · rw [replaced]
      exact same

theorem descends (edited : Edited s s' written records) (copies : ∀ k ∈ written, s.IsCopy n k) :
    Descends n s s' where
  jobs _ _ _ found := edited.get?_jobs copies found
  pipelines id row _ found := by
    obtain ⟨r, before, same, _⟩ := edited.record_cases found
    exact ⟨r, before, same⟩

theorem linked (edited : Edited s s' written records) (copies : ∀ k ∈ written, s.IsCopy n k)
    (linked : s.Linked) : s'.Linked where
  inPlace id row found := by
    obtain ⟨r, before, same, _⟩ := edited.record_cases found
    obtain ⟨several, distinct, placed⟩ := linked.inPlace id r before
    rw [same]
    refine ⟨several, distinct, fun i jobId here => ?_⟩
    obtain ⟨j, stored, owner, position, next⟩ := placed i jobId here
    have origin := edited.origins copies jobId
    rw [stored] at origin
    obtain ⟨k, stored', same'⟩ := Option.map_eq_some_iff.mp origin
    refine ⟨k, stored', (Job.pipelineId_of_origin same').trans owner, ?_,
      (Job.nextJobId_of_origin same').trans next⟩
    rw [Job.sequence_of_origin same', position]
  owned jobId j id stored owner := by
    obtain ⟨i, before, same⟩ := edited.get?_jobs copies stored
    obtain ⟨row, found, member⟩ :=
      linked.owned jobId i id before ((Job.pipelineId_of_origin same) ▸ owner)
    have lists := edited.get?_pipelines id
    rw [found] at lists
    obtain ⟨row', found', same'⟩ := Option.map_eq_some_iff.mp lists
    exact ⟨row', found', same' ▸ member⟩

theorem consistent (edited : Edited s s' written records) (copies : ∀ k ∈ written, s.IsCopy n k)
    (consistent : s.Consistent n) : s'.Consistent n := by
  have indexed := edited.indexed (fun k member => (copies k member).agrees) consistent.indexed
  refine ⟨indexed.keyed, indexed.jobKey, indexed.recordKey, ?_, ?_,
    edited.linked copies consistent.linked⟩
  · intro id j found
    obtain ⟨i, before, _⟩ := edited.get?_jobs copies found
    exact consistent.jobIssued id i before
  · intro id row found
    obtain ⟨r, before, _⟩ := edited.record_cases found
    exact consistent.pipelineIssued id r before

end Edited

/-! ### Reading pipelines -/

private theorem forall₂_filterMap {α β γ : Type} {f : α → Option β} {R : β → γ → Prop}
    {xs : List α} {zs : List γ} (found : ∀ x ∈ xs, ∃ y, f x = some y)
    (related : List.Forall₂ R (xs.filterMap f) zs) :
    List.Forall₂ (fun x z => ∃ y, f x = some y ∧ R y z) xs zs := by
  induction xs generalizing zs with
  | nil =>
    cases related
    exact .nil
  | cons x xs ih =>
    obtain ⟨y, here⟩ := found x (by simp)
    rw [List.filterMap_cons_some here] at related
    cases related with
    | cons head tail =>
      exact .cons ⟨y, here, head⟩ (ih (fun x' member => found x' (by simp [member])) tail)

namespace InPlace

variable {p : Pipeline}

theorem sorted {jobIds : List Id} {jobs : List Job} (inPlace : s.InPlace id jobIds)
    (read : List.Forall₂ (fun jobId j => ∃ i, s.jobs.get? jobId = some i ∧ i.reread = .ok j)
      jobIds jobs) : jobs.Pairwise fun a b => Job.sequenceLe a b = true := by
  have position (i : Nat) (lt : i < jobs.length) : jobs[i].sequence.toNat = i := by
    have lt' : i < jobIds.length := by rwa [read.length_eq]
    obtain ⟨j, stored, rereads⟩ := read.get lt' lt
    obtain ⟨k, stored', _, sequence, _⟩ := inPlace.placed i jobIds[i] (List.getElem?_eq_getElem lt')
    rw [List.get_eq_getElem, stored'] at stored
    cases stored
    have same := Job.sequence_of_origin (Job.origin_reread rereads)
    exact (congrArg UInt32.toNat same).trans sequence
  rw [List.pairwise_iff_getElem]
  intro i j ltᵢ ltⱼ before
  simp only [Job.sequenceLe, decide_eq_true_eq, UInt32.le_iff_toNat_le, position]
  exact Nat.le_of_lt before

/-- Reading a pipeline finds its jobs in the order in which it lists them. -/
theorem loadPipeline_ok (inPlace : s.InPlace id row.jobIds) (read : s.loadPipeline row = .ok p) :
    List.Forall₂ (fun jobId j => ∃ i, s.jobs.get? jobId = some i ∧ i.reread = .ok j)
      row.jobIds p.jobs := by
  obtain ⟨jobs, rereads, rfl⟩ := Store.loadPipeline_ok read
  have stored : ∀ jobId ∈ row.jobIds, ∃ j, s.jobs.get? jobId = some j := by
    intro jobId member
    obtain ⟨j, present, _⟩ := inPlace.stored member
    exact ⟨j, present⟩
  have all := forall₂_filterMap stored rereads
  rw [sortBy_of_pairwise (inPlace.sorted all)]
  exact all

end InPlace

theorem Consistent.loadPipeline_ok {p : Pipeline} (consistent : s.Consistent n)
    (found : s.pipelines.get? id = some row) (read : s.loadPipeline row = .ok p) :
    p.id = id ∧ p.status = row.record.status ∧ List.Forall₂ (fun jobId j =>
      ∃ i, s.jobs.get? jobId = some i ∧ i.reread = .ok j) row.jobIds p.jobs := by
  have jobs := (consistent.linked.inPlace id row found).loadPipeline_ok read
  obtain ⟨_, _, rfl⟩ := Store.loadPipeline_ok read
  exact ⟨consistent.recordKey id row found, rfl, jobs⟩

theorem Indexed.map_id_of_reads (indexed : s.Indexed) {jobIds : List Id} {jobs : List Job}
    (reads : List.Forall₂ (fun jobId j => ∃ i, s.jobs.get? jobId = some i ∧ i.reread = .ok j)
      jobIds jobs) : jobs.map (·.id) = jobIds := by
  rw [← List.map_id jobIds]
  refine (map_eq_of_forall₂ (reads.imp ?_)).symm
  rintro jobId j ⟨i, stored, rereads⟩
  rw [Job.id_of_origin (Job.origin_reread rereads), indexed.jobKey jobId i stored, id_eq]

structure Loaded (s : Store) (n : Nat) (id : Id) (p : Pipeline) (row : PipelineRow) : Prop where
  found : s.pipelines.get? id = some row
  key : p.id = id
  status : p.status = row.record.status
  jobIds : p.jobs.map (·.id) = row.jobIds
  copies : ∀ c ∈ p.jobs, s.IsCopy n c ∧ c.pipelineId = some id
  shallow : ∀ jobId j, s.jobs.get? jobId = some j → j.pipelineId = some id → j.depth ≤ maxDepth
  details : p.details = row.record.details

theorem Consistent.loaded (consistent : s.Consistent n) {p : Pipeline}
    (read : s.getPipeline id = .ok p) : ∃ row, s.Loaded n id p row := by
  obtain ⟨row, found, loads⟩ := getPipeline_ok read
  obtain ⟨key, status, jobs⟩ := consistent.loadPipeline_ok found loads
  refine ⟨row, found, key, status, ?_, ?_, ?_, ?_⟩
  · exact consistent.indexed.map_id_of_reads jobs
  · intro c member
    obtain ⟨jobId, listed, i, stored, rereads⟩ := forall₂_mem_right jobs member
    obtain ⟨i', stored', owner⟩ := (consistent.linked.inPlace id row found).stored listed
    rw [stored] at stored'
    cases stored'
    exact ⟨consistent.isCopy_reread stored rereads,
      (Job.pipelineId_of_origin (Job.origin_reread rereads)).trans owner⟩
  · intro jobId j stored owner
    obtain ⟨row', found', listed⟩ := consistent.linked.owned jobId j id stored owner
    rw [found] at found'
    cases found'
    obtain ⟨c, _, i, stored', rereads⟩ := forall₂_mem_right jobs.flip listed
    rw [stored] at stored'
    cases stored'
    exact Job.reread_ok_iff.mp ⟨c, rereads⟩
  · obtain ⟨_, _, rfl⟩ := Store.loadPipeline_ok loads
    rfl

theorem Loaded.length_jobs {p : Pipeline} (loaded : s.Loaded n id p row) :
    p.jobs.length = row.jobIds.length := by
  rw [← loaded.jobIds, List.length_map]

theorem Loaded.headId {p : Pipeline} (loaded : s.Loaded n id p row) :
    p.headId = row.jobIds.head? := by
  rw [← loaded.jobIds, List.head?_map]
  rfl

/-- What was read from the same record differs at most in its jobs. -/
theorem Loaded.agree {p q : Pipeline} (loaded : s.Loaded n id p row)
    (loaded' : s'.Loaded m id q row) :
    p.disable = q.disable ∧ p.status = q.status ∧ p.headId = q.headId := by
  have details : p.details = q.details := loaded.details.trans loaded'.details.symm
  exact ⟨congrArg PipelineDetails.disable details, loaded.status.trans loaded'.status.symm,
    loaded.headId.trans loaded'.headId.symm⟩

end Store

namespace Engine

variable {s : Store} {n : Nat} {last : Job} {id : Id}

/-- The links lead from a copy of a pipeline's job to copies of others. -/
theorem loadChain_copies {linkId : Id} {room : Nat} {chain : List Job}
    (consistent : s.Consistent n) (copy : s.IsCopy n last) (owner : last.pipelineId = some id)
    (known : (s.pipelines.get? id).isSome) (loaded : loadChain s linkId room last = .ok chain) :
    ∀ c ∈ chain, s.IsCopy n c ∧ c.pipelineId = some id := by
  have path := (path_of_loadChain loaded).1
  clear loaded
  induction path with
  | last => simpa using ⟨copy, owner⟩
  | @link last j next rest leads read _ ih =>
    obtain ⟨copy', key⟩ := consistent.isCopy_getJob read
    have owner' : j.pipelineId = some id := by
      obtain ⟨row, found⟩ := Option.isSome_iff_exists.mp known
      have inPlace := consistent.linked.inPlace id row found
      obtain ⟨i, lt, here⟩ := List.mem_iff_getElem.mp (copy.listed id row owner found)
      obtain ⟨k, stored, _, _, follows⟩ := inPlace.placed i last.id
        (by rw [List.getElem?_eq_getElem lt, here])
      rw [Job.nextJobId_of_origin (copy.agrees k stored), leads] at follows
      obtain ⟨k', stored', owner', _⟩ := inPlace.placed (i + 1) next follows.symm
      rw [← key] at stored'
      exact (Job.pipelineId_of_origin (copy'.agrees k' stored')).symm.trans owner'
    intro c member
    rcases List.mem_cons.mp member with rfl | behind
    · exact ⟨copy, owner⟩
    · exact ih copy' owner' c behind

end Engine

end Rota
