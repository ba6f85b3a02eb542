import Rota.Proofs.Admission
/-! What calls of admission keep.
New records come under identifiers that nothing has had before, and records are erased together
with what they are linked to. So the store stays linked, and copies of jobs stay good. -/
namespace Rota

namespace Store

variable {s s' : Store} {n : Nat} {j : Job} {p : Pipeline} {id : Id} {row : PipelineRow}

/-! ### New records -/

theorem Descends.newJob (fresh : ¬Id.IsIssued n j.id) (jobs : s'.jobs = s.jobs.put j.id j)
    (pipelines : s'.pipelines = s.pipelines) : Descends n s s' where
  jobs id k issued found := by
    have different : id ≠ j.id := by
      rintro rfl
      exact fresh issued
    rw [jobs, Table.get?_put_ne _ _ different] at found
    exact ⟨k, found, rfl⟩
  pipelines _ row _ found := ⟨row, pipelines ▸ found, rfl⟩

theorem Consistent.newJob (consistent : s.Consistent n) (fresh : ¬Id.IsIssued n j.id)
    (key : j.id = Id.issued n) (alone : j.pipelineId = none)
    (jobs : s'.jobs = s.jobs.put j.id j) (pipelines : s'.pipelines = s.pipelines) :
    s'.Consistent (n + 1) := by
  have cases_ (id : Id) (k : Job) (found : s'.jobs.get? id = some k) :
      id = j.id ∧ k = j ∨ id ≠ j.id ∧ s.jobs.get? id = some k :=
    Table.get?_put_cases (jobs ▸ found)
  refine ⟨jobs ▸ consistent.keyed.put _ _, ?_, ?_, ?_, ?_, ?_, ?_⟩
  · intro id k found
    rcases cases_ id k found with ⟨rfl, rfl⟩ | ⟨_, before⟩
    · rfl
    · exact consistent.jobKey id k before
  · rw [pipelines]
    exact consistent.recordKey
  · intro id k found
    rcases cases_ id k found with ⟨rfl, rfl⟩ | ⟨_, before⟩
    · exact key ▸ Id.isIssued_of_lt (Nat.lt_succ_self n)
    · exact (consistent.jobIssued id k before).mono (Nat.le_succ n)
  · intro id row found
    rw [pipelines] at found
    exact (consistent.pipelineIssued id row found).mono (Nat.le_succ n)
  · intro id row found
    rw [pipelines] at found
    obtain ⟨several, distinct, placed⟩ := consistent.linked.inPlace id row found
    refine ⟨several, distinct, fun i jobId here => ?_⟩
    obtain ⟨k, stored, place⟩ := placed i jobId here
    have different : jobId ≠ j.id := by
      rintro rfl
      exact fresh (consistent.jobIssued _ k stored)
    exact ⟨k, by rwa [jobs, Table.get?_put_ne _ _ different], place⟩
  · intro jobId k id found owner
    rw [pipelines]
    rcases cases_ jobId k found with ⟨rfl, rfl⟩ | ⟨_, before⟩
    · rw [alone] at owner
      cases owner
    · exact consistent.linked.owned jobId k id before owner

/-- The jobs of a new pipeline are stored under identifiers of their own. -/
theorem get?_putJobs_isNew (isNew : p.IsNew n) (distinct : Id.Distinct (n + p.jobs.length + 1))
    (t : Table Job) {i : Nat} (here : p.jobs[i]? = some j) :
    (putJobs t p.jobs).get? j.id = some j := by
  have lt := (List.getElem?_eq_some_iff.mp here).1
  obtain ⟨k, member, found, same⟩ := get?_putJobs_of_mem t (List.mem_of_getElem? here)
  obtain ⟨i', here'⟩ := List.mem_iff_getElem?.mp member
  have lt' := (List.getElem?_eq_some_iff.mp here').1
  rw [(isNew.placed i j here).1, (isNew.placed i' k here').1] at same
  have place := distinct.inj (by omega) (by omega) same
  obtain rfl : i' = i := by omega
  exact found.trans (here'.symm.trans here)

/-- What is stored after a pipeline was added is one of its jobs or was there before. -/
theorem newPipeline_cases {k : Job} (isNew : p.IsNew n)
    (distinct : Id.Distinct (n + p.jobs.length + 1)) (jobs : s'.jobs = putJobs s.jobs p.jobs)
    (found : s'.jobs.get? id = some k) :
    (∃ i : Nat, p.jobs[i]? = some k ∧ k.id = id ∧ ¬Id.IsIssued n id) ∨ s.jobs.get? id = some k := by
  rw [jobs] at found
  rcases putJobs_cases found with ⟨member, same⟩ | ⟨before, _⟩
  · obtain ⟨i, here⟩ := List.mem_iff_getElem?.mp member
    have lt := (List.getElem?_eq_some_iff.mp here).1
    refine Or.inl ⟨i, here, same, ?_⟩
    rw [← same, (isNew.placed i k here).1]
    exact distinct.fresh (by omega) (by omega)
  · exact Or.inr before

theorem Descends.newPipeline (isNew : p.IsNew n) (distinct : Id.Distinct (n + p.jobs.length + 1))
    (jobs : s'.jobs = putJobs s.jobs p.jobs) (pipelines : s'.pipelines = s.pipelines.put p.id row) :
    Descends n s s' where
  jobs id k issued found := by
    rcases newPipeline_cases isNew distinct jobs found with ⟨_, _, _, fresh⟩ | before
    · exact absurd issued fresh
    · exact ⟨k, before, rfl⟩
  pipelines id r issued found := by
    have different : id ≠ p.id := by
      rw [isNew.key]
      rintro rfl
      exact distinct.fresh (Nat.le_refl n) (by omega) issued
    rw [pipelines, Table.get?_put_ne _ _ different] at found
    exact ⟨r, found, rfl⟩

private theorem inPlace_newPipeline (isNew : p.IsNew n)
    (distinct : Id.Distinct (n + p.jobs.length + 1))
    (short : p.jobs.length < 4294967296) (jobs : s'.jobs = putJobs s.jobs p.jobs) :
    s'.InPlace p.id (p.jobs.map (·.id)) := by
  refine ⟨by simpa using isNew.several, ?_, fun i jobId here => ?_⟩
  · rw [List.nodup_iff_getElem?_ne_getElem?]
    intro i i' lt below same
    simp only [List.length_map] at below
    simp only [List.getElem?_map, List.getElem?_eq_getElem below,
      List.getElem?_eq_getElem (Nat.lt_trans lt below), Option.map_some, Option.some.injEq] at same
    rw [(isNew.placed i _ (List.getElem?_eq_getElem _)).1,
      (isNew.placed i' _ (List.getElem?_eq_getElem _)).1] at same
    have place := distinct.inj (by omega) (by omega) same
    omega
  · rw [List.getElem?_map] at here
    obtain ⟨j, listed, rfl⟩ := Option.map_eq_some_iff.mp here
    have lt := (List.getElem?_eq_some_iff.mp listed).1
    obtain ⟨_, owner, position, _, next⟩ := isNew.placed i j listed
    refine ⟨j, by rw [jobs]; exact get?_putJobs_isNew isNew distinct s.jobs listed, owner, ?_, ?_⟩
    · rw [position]
      exact UInt32.toNat_ofNat_of_lt' (Nat.lt_trans lt short)
    · rw [next, List.getElem?_map]

theorem InPlace.newPipeline {jobIds : List Id} (inPlace : s.InPlace id jobIds)
    (consistent : s.Consistent n) (isNew : p.IsNew n)
    (distinct : Id.Distinct (n + p.jobs.length + 1)) (jobs : s'.jobs = putJobs s.jobs p.jobs) :
    s'.InPlace id jobIds := by
  obtain ⟨several, nodup, placed⟩ := inPlace
  refine ⟨several, nodup, fun i jobId here => ?_⟩
  obtain ⟨j, stored, place⟩ := placed i jobId here
  refine ⟨j, ?_, place⟩
  have known : (s'.jobs.get? jobId).isSome := by
    rw [jobs, get?_putJobs, stored]
    simp
  obtain ⟨k, found⟩ := Option.isSome_iff_exists.mp known
  rcases newPipeline_cases isNew distinct jobs found with ⟨_, _, _, fresh⟩ | same
  · exact absurd (consistent.jobIssued jobId j stored) fresh
  · rw [found, ← same, stored]

theorem Consistent.newPipeline (consistent : s.Consistent n) (isNew : p.IsNew n)
    (distinct : Id.Distinct (n + p.jobs.length + 1)) (short : p.jobs.length < 4294967296)
    (jobs : s'.jobs = putJobs s.jobs p.jobs)
    (pipelines : s'.pipelines =
      s.pipelines.put p.id ⟨{ p with jobs := [] }, p.jobs.map (·.id)⟩) :
    s'.Consistent (n + p.jobs.length + 1) := by
  have cases_ (id : Id) (k : Job) (found : s'.jobs.get? id = some k) :=
    newPipeline_cases isNew distinct jobs found
  have rows (id : Id) (row : PipelineRow) (found : s'.pipelines.get? id = some row) :
      id = p.id ∧ row = ⟨{ p with jobs := [] }, p.jobs.map (·.id)⟩ ∨
        id ≠ p.id ∧ s.pipelines.get? id = some row :=
    Table.get?_put_cases (pipelines ▸ found)
  refine ⟨?_, ?_, ?_, ?_, ?_, ?_, ?_⟩
  · rw [jobs]
    exact Keyed.putJobs consistent.keyed
  · intro id k found
    rcases cases_ id k found with ⟨_, _, same, _⟩ | before
    · exact same
    · exact consistent.jobKey id k before
  · intro id row found
    rcases rows id row found with ⟨rfl, rfl⟩ | ⟨_, before⟩
    · rfl
    · exact consistent.recordKey id row before
  · intro id k found
    rcases cases_ id k found with ⟨i, here, rfl, _⟩ | before
    · have lt := (List.getElem?_eq_some_iff.mp here).1
      rw [(isNew.placed i k here).1]
      exact Id.isIssued_of_lt (by omega)
    · exact (consistent.jobIssued id k before).mono (by omega)
  · intro id row found
    rcases rows id row found with ⟨rfl, rfl⟩ | ⟨_, before⟩
    · rw [isNew.key]
      exact Id.isIssued_of_lt (by omega)
    · exact (consistent.pipelineIssued id row before).mono (by omega)
  · intro id row found
    rcases rows id row found with ⟨rfl, rfl⟩ | ⟨_, before⟩
    · exact inPlace_newPipeline isNew distinct short jobs
    · exact (consistent.linked.inPlace id row before).newPipeline consistent isNew distinct jobs
  · intro jobId k id found owner
    rcases cases_ jobId k found with ⟨i, here, rfl, _⟩ | before
    · rw [(isNew.placed i k here).2.1] at owner
      cases owner
      refine ⟨⟨{ p with jobs := [] }, p.jobs.map (·.id)⟩, by rw [pipelines, Table.get?_put_self], ?_⟩
      exact List.mem_map_of_mem (List.mem_of_getElem? here)
    · obtain ⟨row, known, listed⟩ := consistent.linked.owned jobId k id before owner
      have different : id ≠ p.id := by
        rintro rfl
        have issued := consistent.pipelineIssued _ row known
        rw [isNew.key] at issued
        exact distinct.fresh (Nat.le_refl n) (by omega) issued
      exact ⟨row, by rwa [pipelines, Table.get?_put_ne _ _ different], listed⟩

/-! ### Erased records -/

theorem get?_eraseJobs {ids : List Id} (jobs : s'.jobs = ids.foldl Table.erase s.jobs)
    (found : s'.jobs.get? id = some j) : s.jobs.get? id = some j ∧ id ∉ ids := by
  rw [jobs] at found
  exact (Table.get?_of_eraseAll found).symm

theorem Descends.erased {ids : List Id} (jobs : s'.jobs = ids.foldl Table.erase s.jobs)
    (pipelines : ∀ id row, s'.pipelines.get? id = some row → s.pipelines.get? id = some row) :
    Descends n s s' where
  jobs _ k _ found := ⟨k, (get?_eraseJobs jobs found).1, rfl⟩
  pipelines id row _ found := ⟨row, pipelines id row found, rfl⟩

theorem Consistent.erasedJobs (consistent : s.Consistent n) {ids : List Id}
    (alone : ∀ id ∈ ids, ∀ j, s.jobs.get? id = some j → j.pipelineId = none)
    (jobs : s'.jobs = ids.foldl Table.erase s.jobs) (pipelines : s'.pipelines = s.pipelines) :
    s'.Consistent n where
  keyed := jobs ▸ consistent.keyed.eraseAll ids
  jobKey id j found := consistent.jobKey id j (get?_eraseJobs jobs found).1
  recordKey := by
    rw [pipelines]
    exact consistent.recordKey
  jobIssued id j found := consistent.jobIssued id j (get?_eraseJobs jobs found).1
  pipelineIssued := by
    rw [pipelines]
    exact consistent.pipelineIssued
  linked := by
    refine ⟨fun id row found => ?_, fun jobId j id found owner => ?_⟩
    · rw [pipelines] at found
      obtain ⟨several, distinct, placed⟩ := consistent.linked.inPlace id row found
      refine ⟨several, distinct, fun i jobId here => ?_⟩
      obtain ⟨j, stored, owner, place⟩ := placed i jobId here
      have outside : jobId ∉ ids := by
        intro member
        rw [alone jobId member j stored] at owner
        cases owner
      exact ⟨j, by rw [jobs, Table.get?_eraseAll, if_neg outside, stored], owner, place⟩
    · rw [pipelines]
      exact consistent.linked.owned jobId j id (get?_eraseJobs jobs found).1 owner

theorem Consistent.erasedPipeline (consistent : s.Consistent n)
    (known : s.pipelines.get? id = some row) (jobs : s'.jobs = row.jobIds.foldl Table.erase s.jobs)
    (pipelines : s'.pipelines = s.pipelines.erase id) : s'.Consistent n := by
  have rows (other : Id) (r : PipelineRow) (found : s'.pipelines.get? other = some r) :
      s.pipelines.get? other = some r ∧ other ≠ id := by
    rw [pipelines] at found
    exact (Table.get?_of_erase found).symm
  refine ⟨jobs ▸ consistent.keyed.eraseAll _, ?_, ?_, ?_, ?_, ?_, ?_⟩
  · exact fun id j found => consistent.jobKey id j (get?_eraseJobs jobs found).1
  · exact fun other r found => consistent.recordKey other r (rows other r found).1
  · exact fun id j found => consistent.jobIssued id j (get?_eraseJobs jobs found).1
  · exact fun other r found => consistent.pipelineIssued other r (rows other r found).1
  · intro other r found
    obtain ⟨before, different⟩ := rows other r found
    obtain ⟨several, distinct, placed⟩ := consistent.linked.inPlace other r before
    refine ⟨several, distinct, fun i jobId here => ?_⟩
    obtain ⟨j, stored, owner, place⟩ := placed i jobId here
    have outside : jobId ∉ row.jobIds := by
      intro member
      obtain ⟨j', stored', owner'⟩ := (consistent.linked.inPlace id row known).stored member
      rw [stored] at stored'
      cases stored'
      exact different (Option.some.inj (owner.symm.trans owner'))
    exact ⟨j, by rw [jobs, Table.get?_eraseAll, if_neg outside, stored], owner, place⟩
  · intro jobId j other found owner
    obtain ⟨before, outside⟩ := get?_eraseJobs jobs found
    obtain ⟨r, found', listed⟩ := consistent.linked.owned jobId j other before owner
    have different : other ≠ id := by
      rintro rfl
      rw [known] at found'
      cases found'
      exact outside listed
    exact ⟨r, by rw [pipelines, Table.get?_erase, if_neg different, found'], listed⟩

end Store

namespace Engine

variable {e e' : Engine}

theorem Changed.issued (change : e.Changed e') : e.issued ≤ e'.issued := by
  cases change <;> omega

/-- A job comes into the queue when it is stored; if it belongs to a pipeline, that is new too, and
no job of it has a run time. -/
theorem Changed.queue (change : e.Changed e') (distinct : Id.Distinct e'.issued)
    (consistent : e.store.Consistent e.issued) :
    e'.queue.jobs = e.queue.jobs ∨
      ∃ j, e'.queue.jobs = e.queue.jobs ++ [j] ∧ e'.store.jobs.get? j.id = some j ∧
        ∀ id, j.pipelineId = some id → ¬Id.IsIssued e.issued id ∧
          ∀ jobId k, e'.store.jobs.get? jobId = some k → k.pipelineId = some id → k.runAt = none := by
  cases change with
  | newJob j _ _ alone _ jobs _ queue =>
    refine queue.imp id fun longer => ⟨j, longer.1, ?_, by simp [alone]⟩
    rw [jobs, Table.get?_put_self]
  | newPipeline p issued isNew _ jobs _ queue =>
    rw [issued] at distinct
    refine queue.imp id fun ⟨head, listed, longer, undated⟩ => ⟨head, longer, ?_, ?_⟩
    all_goals obtain ⟨i, here⟩ := List.mem_iff_getElem?.mp listed
    · rw [jobs]
      exact Store.get?_putJobs_isNew isNew distinct _ here
    · intro id owner
      have fresh : ¬Id.IsIssued e.issued id := by
        cases (isNew.placed i head here).2.1.symm.trans owner
        exact isNew.key ▸ distinct.fresh (Nat.le_refl _) (by omega)
      refine ⟨fresh, fun jobId k stored owner' => ?_⟩
      rcases Store.newPipeline_cases isNew distinct jobs stored with ⟨i', here', _⟩ | before
      · exact undated k (List.mem_of_getElem? here')
      · obtain ⟨row, known, _⟩ := consistent.linked.owned jobId k id before owner'
        exact absurd (consistent.pipelineIssued id row known) fresh
  | kept _ _ _ queue => exact Or.inl (by rw [queue])
  | changedJob _ _ _ _ _ _ _ _ queue => exact Or.inl (by rw [queue])
  | changedPipeline _ _ _ _ _ _ queue => exact Or.inl (by rw [queue])
  | erasedJobs _ _ _ _ _ queue => exact Or.inl (by rw [queue])
  | erasedPipeline _ _ _ _ _ _ queue => exact Or.inl (by rw [queue])

/-- A standalone job comes into the queue under a fresh identifier and has no run time. -/
theorem Changed.queue_alone (change : e.Changed e') (distinct : Id.Distinct e'.issued) :
    e'.queue.jobs = e.queue.jobs ∨ ∃ j, e'.queue.jobs = e.queue.jobs ++ [j] ∧
      (j.pipelineId = none → ¬Id.IsIssued e.issued j.id ∧ e'.store.jobs.get? j.id = some j ∧
        j.runAt = none) := by
  cases change with
  | newJob j issued key _ _ jobs _ queue =>
    rw [issued] at distinct
    refine queue.imp id fun ⟨longer, undated⟩ => ⟨j, longer, fun _ => ⟨?_, ?_, undated⟩⟩
    · exact key ▸ distinct.fresh (Nat.le_refl _) (Nat.lt_succ_self _)
    · rw [jobs, Table.get?_put_self]
  | newPipeline p _ isNew _ _ _ queue =>
    refine queue.imp id fun ⟨head, listed, longer, _⟩ => ⟨head, longer, fun alone => ?_⟩
    obtain ⟨i, here⟩ := List.mem_iff_getElem?.mp listed
    cases alone.symm.trans (isNew.placed i head here).2.1
  | kept _ _ _ queue => exact Or.inl (by rw [queue])
  | changedJob _ _ _ _ _ _ _ _ queue => exact Or.inl (by rw [queue])
  | changedPipeline _ _ _ _ _ _ queue => exact Or.inl (by rw [queue])
  | erasedJobs _ _ _ _ _ queue => exact Or.inl (by rw [queue])
  | erasedPipeline _ _ _ _ _ _ queue => exact Or.inl (by rw [queue])

/-- What a call leaves under the identifiers issued so far was there before. -/
theorem Changed.descends (change : e.Changed e') (distinct : Id.Distinct e'.issued)
    (consistent : e.store.Consistent e.issued) : Store.Descends e.issued e.store e'.store := by
  cases change with
  | kept _ jobs pipelines => exact .of_eq _ jobs pipelines
  | newJob j issued key _ _ jobs pipelines =>
    rw [issued] at distinct
    exact .newJob (key ▸ distinct.fresh (Nat.le_refl _) (Nat.lt_succ_self _)) jobs pipelines
  | newPipeline p issued isNew _ jobs pipelines =>
    rw [issued] at distinct
    exact .newPipeline isNew distinct jobs pipelines
  | changedJob j k _ stored origin _ _ edited =>
    refine edited.descends (n := e.issued) fun k' member => ?_
    cases List.mem_singleton.mp member
    exact (consistent.isCopy stored).of_origin origin
  | changedPipeline p row _ _ _ edited => exact edited.descends (n := e.issued) (by simp)
  | erasedJobs ids _ _ jobs pipelines => exact .erased jobs (by simp [pipelines])
  | erasedPipeline id row _ _ jobs pipelines =>
    refine .erased jobs fun other r found => ?_
    rw [pipelines] at found
    exact (Table.get?_of_erase found).2

/-- A call keeps the store linked. -/
theorem Changed.consistent (change : e.Changed e') (distinct : Id.Distinct e'.issued)
    (consistent : e.store.Consistent e.issued) : e'.store.Consistent e'.issued := by
  cases change with
  | kept issued jobs pipelines => exact (consistent.of_eq jobs pipelines).mono issued
  | newJob j issued key alone _ jobs pipelines =>
    rw [issued] at distinct ⊢
    exact consistent.newJob (key ▸ distinct.fresh (Nat.le_refl _) (Nat.lt_succ_self _)) key alone
      jobs pipelines
  | newPipeline p issued isNew short jobs pipelines =>
    rw [issued] at distinct ⊢
    exact consistent.newPipeline isNew distinct short jobs pipelines
  | changedJob j k issued stored origin _ _ edited =>
    rw [issued]
    refine edited.consistent (fun k' member => ?_) consistent
    cases List.mem_singleton.mp member
    exact (consistent.isCopy stored).of_origin origin
  | changedPipeline p row issued _ _ edited =>
    rw [issued]
    exact edited.consistent (by simp) consistent
  | erasedJobs ids issued alone jobs pipelines =>
    rw [issued]
    exact consistent.erasedJobs alone jobs pipelines
  | erasedPipeline id row issued found jobs pipelines =>
    rw [issued]
    exact consistent.erasedPipeline found jobs pipelines

/-- A job that is stored now is new, or it was there before with the same status and run time. -/
theorem Changed.job_cases {id : Id} {j : Job} (change : e.Changed e')
    (distinct : Id.Distinct e'.issued) (stored : e'.store.jobs.get? id = some j) :
    (¬Id.IsIssued e.issued id ∧ j.status = .pending) ∨ ∃ i, e.store.jobs.get? id = some i ∧
      i.origin = j.origin ∧ i.status = j.status ∧ i.runAt = j.runAt := by
  cases change with
  | kept _ jobs => exact Or.inr ⟨j, jobs ▸ stored, rfl, rfl, rfl⟩
  | newJob k issued key _ pending jobs =>
    rw [issued] at distinct
    rw [jobs] at stored
    rcases Table.get?_put_cases stored with ⟨same, rfl⟩ | ⟨_, before⟩
    · refine Or.inl ⟨?_, pending⟩
      rw [same, key]
      exact distinct.fresh (Nat.le_refl _) (Nat.lt_succ_self _)
    · exact Or.inr ⟨j, before, rfl, rfl, rfl⟩
  | newPipeline p issued isNew _ jobs =>
    rw [issued] at distinct
    rcases Store.newPipeline_cases isNew distinct jobs stored with ⟨i, here, _, fresh⟩ | before
    · exact Or.inl ⟨fresh, (isNew.placed i j here).2.2.2.1⟩
    · exact Or.inr ⟨j, before, rfl, rfl, rfl⟩
  | changedJob i k _ stored' origin status runAt edited =>
    rw [edited.jobs] at stored
    rcases Store.putJobs_cases stored with ⟨member, rfl⟩ | ⟨before, _⟩
    · cases List.mem_singleton.mp member
      exact Or.inr ⟨i, stored', origin.symm, status.symm, runAt.symm⟩
    · exact Or.inr ⟨j, before, rfl, rfl, rfl⟩
  | changedPipeline _ _ _ _ _ edited =>
    rw [edited.jobs] at stored
    exact Or.inr ⟨j, stored, rfl, rfl, rfl⟩
  | erasedJobs ids _ _ jobs => exact Or.inr ⟨j, (Store.get?_eraseJobs jobs stored).1, rfl, rfl, rfl⟩
  | erasedPipeline _ r _ _ jobs =>
    exact Or.inr ⟨j, (Store.get?_eraseJobs jobs stored).1, rfl, rfl, rfl⟩

/-- A pipeline that is stored now is new, or it was there before with the same status. -/
theorem Changed.record_cases {id : Id} {row : PipelineRow} (change : e.Changed e')
    (distinct : Id.Distinct e'.issued) (found : e'.store.pipelines.get? id = some row) :
    (¬Id.IsIssued e.issued id ∧ row.record.status = .pending) ∨
      ∃ r, e.store.pipelines.get? id = some r ∧ r.record.status = row.record.status := by
  cases change with
  | kept _ _ pipelines => exact Or.inr ⟨row, pipelines ▸ found, rfl⟩
  | newJob _ _ _ _ _ _ pipelines => exact Or.inr ⟨row, pipelines ▸ found, rfl⟩
  | newPipeline p issued isNew _ _ pipelines =>
    rw [issued] at distinct
    rw [pipelines] at found
    rcases Table.get?_put_cases found with ⟨same, rfl⟩ | ⟨_, before⟩
    · refine Or.inl ⟨?_, isNew.pending⟩
      rw [same, isNew.key]
      exact distinct.fresh (Nat.le_refl _) (by omega)
    · exact Or.inr ⟨row, before, rfl⟩
  | changedJob _ _ _ _ _ _ _ edited =>
    rw [edited.pipelines] at found
    exact Or.inr ⟨row, found, rfl⟩
  | changedPipeline p r _ found' status edited =>
    obtain ⟨q, before, _, ⟨kept, _⟩ | ⟨p', member, same, replaced⟩⟩ := edited.record_cases found
    · exact Or.inr ⟨q, before, by rw [kept]⟩
    · cases List.mem_singleton.mp member
      rw [same, before] at found'
      cases found'
      exact Or.inr ⟨_, before, by rw [replaced, status]⟩
  | erasedJobs _ _ _ _ pipelines => exact Or.inr ⟨row, pipelines ▸ found, rfl⟩
  | erasedPipeline _ _ _ _ _ pipelines =>
    rw [pipelines] at found
    exact Or.inr ⟨row, (Table.get?_of_erase found).2, rfl⟩

end Engine

end Rota
