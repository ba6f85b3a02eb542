import Rota.Proofs.Changes
/-! Records that have been deleted.
Only an admission makes records, and it makes them under identifiers that are new. All else that is
written goes over records that exist. So what ticks, the queue, the channel and workers have of a
deleted record never brings it back. -/
namespace Rota

def Grant.erasing : Grant :=
  { Grant.ofJobs fun _ => False with pipeline := fun _ => False }

namespace Store

/-- No record is stored under the identifier, neither of a job nor of a pipeline. -/
structure Lacks (s : Store) (id : Id) : Prop where
  job : s.jobs.get? id = none
  pipeline : s.pipelines.get? id = none

structure AddsNone (s s' : Store) : Prop where
  jobs : ∀ id, s.jobs.get? id = none → s'.jobs.get? id = none
  pipelines : ∀ id, s.pipelines.get? id = none → s'.pipelines.get? id = none

/-- No identifier is that of a job and of a pipeline. -/
def Unmixed (s : Store) : Prop := ∀ id, s.jobs.get? id = none ∨ s.pipelines.get? id = none

variable {s s' s'' : Store} {id : Id} {written : List Job} {records : List Pipeline} {G : Grant}

theorem AddsNone.of_eq (jobs : s'.jobs = s.jobs) (pipelines : s'.pipelines = s.pipelines) :
    AddsNone s s' where
  jobs _ absent := jobs ▸ absent
  pipelines _ absent := pipelines ▸ absent

theorem AddsNone.trans (first : AddsNone s s') (second : AddsNone s' s'') : AddsNone s s'' where
  jobs id absent := second.jobs id (first.jobs id absent)
  pipelines id absent := second.pipelines id (first.pipelines id absent)

private theorem AddsNone.unmixed (adds : AddsNone s s') (unmixed : s.Unmixed) : s'.Unmixed := by
  intro id
  exact (unmixed id).imp (adds.jobs id) (adds.pipelines id)

private theorem SameKeys.addsNone (same : SameKeys s s') : AddsNone s s' where
  jobs id absent := by
    have present := same.jobs id
    rw [absent] at present
    simpa using present
  pipelines id absent := by
    have lists := same.lists id
    rw [absent] at lists
    simpa using lists

private theorem addsNone_eraseAll {ids : List Id} (jobs : s'.jobs = ids.foldl Table.erase s.jobs)
    (pipelines : s'.pipelines = s.pipelines) : AddsNone s s' where
  jobs id absent := by
    rw [jobs, Table.get?_eraseAll]
    split
    next => rfl
    next => exact absent
  pipelines id absent := pipelines ▸ absent

private theorem addsNone_withoutJob (s : Store) (id : Id) : AddsNone s (s.withoutJob id) where
  jobs other absent := by
    rw [withoutJob, Table.get?_erase]
    split
    next => rfl
    next => exact absent
  pipelines _ absent := absent

private theorem addsNone_withoutPipeline (s : Store) (id : Id) (row : PipelineRow) :
    AddsNone s (s.withoutPipeline id row) where
  jobs other absent := by
    rw [withoutPipeline, Table.get?_eraseAll]
    split
    next => rfl
    next => exact absent
  pipelines other absent := by
    rw [withoutPipeline, Table.get?_erase]
    split
    next => rfl
    next => exact absent

private theorem addsNone_withRecord {p : Pipeline} {row : PipelineRow}
    (found : s.pipelines.get? p.id = some row) : AddsNone s (s.withRecord row p) where
  jobs _ absent := absent
  pipelines id absent := by
    have different : id ≠ p.id := by
      rintro rfl
      rw [found] at absent
      cases absent
    rwa [withRecord, Table.get?_put_ne _ _ different]

private theorem Write.addsNone (write : Write .erasing s s') : AddsNone s s' := by
  cases write with
  | job j may => exact may.elim
  | pipeline p may => exact may.elim
  | eraseJob id => exact addsNone_withoutJob s id
  | erasePipeline id row => exact addsNone_withoutPipeline s id row
  | record p row found => exact addsNone_withRecord found
  | result => exact .of_eq rfl rfl
  | eraseResult => exact .of_eq rfl rfl
  | transaction => exact .of_eq rfl rfl
  | close => exact .of_eq rfl rfl

private theorem Writes.addsNone (writes : Writes .erasing s s') : AddsNone s s' := by
  refine writes.keep (fun t u write adds => ?_) (AddsNone.of_eq rfl rfl : AddsNone s s)
  exact AddsNone.trans adds write.addsNone

end Store

namespace System

variable {s : System} {a : Action} {id : Id} {A : List Origin}

/-! ### What an action adds -/

/-- How the records after an action differ from those before: there are new ones of the job or the
pipeline that it admits, and no others. -/
inductive Adds (s : System) (a : Action) : Prop
  | nothing (adds : s.engine.store.AddsNone (s.perform a).engine.store)
  | job (j : Job) (key : j.id = .issued s.engine.issued)
      (issued : s.engine.issued < (s.perform a).engine.issued)
      (store : (s.perform a).engine.store = s.engine.store.withJob j)
  | pipeline (p : Pipeline) (isNew : p.IsNew s.engine.issued)
      (issued : (s.perform a).engine.issued = s.engine.issued + p.jobs.length + 1)
      (store : (s.perform a).engine.store = s.engine.store.withPipeline p)

private theorem Changes.adds (changes : s.Changes a) : s.Adds a := by
  cases changes with
  | nothing same => exact .nothing same.addsNone
  | job j key _ issued store => exact .job j key issued store
  | pipeline _ p _ _ isNew issued store => exact .pipeline p isNew issued store
  | erasedJobs ids _ jobs pipelines => exact .nothing (Store.addsNone_eraseAll jobs pipelines)
  | erasedPipeline id row _ store =>
    exact .nothing (store ▸ Store.addsNone_withoutPipeline s.engine.store id row)

private theorem adds_perform (numbered : s.engine.store.Numbered s.engine.issued) (a : Action)
    (distinct : Id.Distinct (s.perform a).engine.issued) : s.Adds a :=
  (changes_perform numbered a distinct).adds

private theorem Adds.lacks (adds : s.Adds a) (distinct : Id.Distinct (s.perform a).engine.issued)
    (issued : Id.IsIssued s.engine.issued id) :
    (s.engine.store.jobs.get? id = none → (s.perform a).engine.store.jobs.get? id = none) ∧
      (s.engine.store.pipelines.get? id = none →
        (s.perform a).engine.store.pipelines.get? id = none) := by
  cases adds with
  | nothing adds => exact ⟨adds.jobs id, adds.pipelines id⟩
  | job j key more store =>
    have different : id ≠ j.id := by
      rintro rfl
      exact distinct.fresh (Nat.le_refl _) more (key ▸ issued)
    rw [store, Store.withJob, Table.get?_put_ne _ _ different]
    exact ⟨fun absent => absent, fun absent => absent⟩
  | pipeline p isNew more store =>
    rw [more] at distinct
    have others : ∀ j ∈ p.jobs, j.id ≠ id := by
      rintro j member rfl
      exact Engine.fresh_jobs isNew distinct (Nat.le_refl _) j member issued
    have different : id ≠ p.id := by
      rintro rfl
      exact distinct.fresh (Nat.le_refl _) (by omega) (isNew.key ▸ issued)
    rw [store, Store.withPipeline, Store.get?_putJobs_other _ others,
      Table.get?_put_ne _ _ different]
    exact ⟨fun absent => absent, fun absent => absent⟩

/-- Jobs and pipelines get identifiers of their own. -/
theorem Adds.unmixed (adds : s.Adds a) (numbered : s.engine.store.Numbered s.engine.issued)
    (distinct : Id.Distinct (s.perform a).engine.issued) (unmixed : s.engine.store.Unmixed) :
    (s.perform a).engine.store.Unmixed := by
  intro id
  cases adds with
  | nothing adds => exact adds.unmixed unmixed id
  | job j key issued store =>
    rw [store, Store.withJob]
    by_cases same : id = j.id
    · have fresh := distinct.fresh (Nat.le_refl s.engine.issued) issued
      exact Or.inr (numbered.noPipeline (same ▸ key ▸ fresh))
    · rw [Table.get?_put_ne _ _ same]
      exact unmixed id
  | pipeline p isNew issued store =>
    rw [issued] at distinct
    rw [store, Store.withPipeline]
    by_cases same : id = p.id
    · have own := distinct.fresh (Nat.le_refl s.engine.issued) (by omega)
      have others : ∀ j ∈ p.jobs, j.id ≠ id := by
        intro j member equal
        obtain ⟨i, here⟩ := List.mem_iff_getElem?.mp member
        have within := (List.getElem?_eq_some_iff.mp here).1
        rw [(isNew.placed i j here).1, same, isNew.key] at equal
        exact distinct _ _ (by omega) (by omega) equal.symm
      refine Or.inl ?_
      rw [Store.get?_putJobs_other _ others]
      exact numbered.noJob (same ▸ isNew.key ▸ own)
    · rw [Table.get?_put_ne _ _ same]
      by_cases listed : ∃ j ∈ p.jobs, j.id = id
      · obtain ⟨j, member, rfl⟩ := listed
        have fresh := Engine.fresh_jobs isNew distinct (Nat.le_refl _) j member
        exact Or.inr (numbered.noPipeline fresh)
      · rw [Store.get?_putJobs_other _ fun j member here => listed ⟨j, member, here⟩]
        exact unmixed id

/-! ### Runs -/

private theorem unmixed_run {actions : List Action} (accounted : s.Accounted A)
    (unmixed : s.engine.store.Unmixed) (distinct : Id.Distinct (s.run actions).engine.issued) :
    (s.run actions).engine.store.Unmixed := by
  have anything : Along (fun _ _ => True) s actions := along_of_forall (fun _ _ _ => trivial) s
  refine (accounted.run_keeps (P := fun _ t => t.engine.store.Unmixed) unmixed ?_ anything distinct).2
  intro B t b accounted unmixed _ few
  exact (adds_perform accounted.numbered b few).unmixed accounted.numbered few unmixed

/-- Where there is no record under an identifier that has been issued, none comes later. -/
theorem lacks_run {actions : List Action} (accounted : s.Accounted A)
    (issued : Id.IsIssued s.engine.issued id) (lacks : s.engine.store.Lacks id)
    (distinct : Id.Distinct (s.run actions).engine.issued) :
    (s.run actions).engine.store.Lacks id := by
  have anything : Along (fun _ _ => True) s actions := along_of_forall (fun _ _ _ => trivial) s
  refine (accounted.run_keeps
    (P := fun _ t => Id.IsIssued t.engine.issued id ∧ t.engine.store.Lacks id) ⟨issued, lacks⟩ ?_
    anything distinct).2.2
  rintro B t b accounted ⟨issued, lacks⟩ _ few
  obtain ⟨noJob, noPipeline⟩ := (adds_perform accounted.numbered b few).lacks few issued
  exact ⟨issued.mono (issued_perform t b), noJob lacks.job, noPipeline lacks.pipeline⟩

def Removes (s : System) (a : Action) (id : Id) : Prop :=
  ((s.engine.store.jobs.get? id).isSome = true ∧
      (s.perform a).engine.store.jobs.get? id = none) ∨
    (s.engine.store.pipelines.get? id).isSome = true ∧
      (s.perform a).engine.store.pipelines.get? id = none

private theorem Removes.lacks (removes : s.Removes a id) (accounted : s.Accounted A)
    (unmixed : s.engine.store.Unmixed) (distinct : Id.Distinct (s.perform a).engine.issued) :
    Id.IsIssued s.engine.issued id ∧ (s.perform a).engine.store.Lacks id := by
  have numbered := accounted.numbered
  have adds := adds_perform numbered a distinct
  rcases removes with ⟨stored, gone⟩ | ⟨stored, gone⟩
  · obtain ⟨j, stored⟩ := Option.isSome_iff_exists.mp stored
    have issued := numbered.jobs id j stored
    refine ⟨issued, gone, (adds.lacks distinct issued).2 ((unmixed id).resolve_left ?_)⟩
    simp [stored]
  · obtain ⟨row, stored⟩ := Option.isSome_iff_exists.mp stored
    have issued := numbered.pipelines id row stored
    refine ⟨issued, (adds.lacks distinct issued).1 ((unmixed id).resolve_right ?_), gone⟩
    simp [stored]

/-! ### What deletions remove -/

private theorem removes_deleteJob (deleted : (s.engine.deleteJob id).2 = .ok ()) :
    s.Removes (.deleteJob id) id := by
  obtain ⟨row, stored, _, same⟩ := Engine.deleteJob_ok (Prod.ext rfl deleted)
  refine Or.inl ⟨by simp [stored], ?_⟩
  simp only [perform, withEngine, same, Engine.store_withStore, Store.withoutJob]
  simp [Table.get?_erase]

private theorem deleteAll_gone {store store' : Store} {ids : List Id}
    (done : Engine.deleteAll store ids = (store', .ok ())) :
    ∀ id ∈ ids, store'.jobs.get? id = none := by
  induction ids generalizing store with
  | nil => simp
  | cons id rest ih =>
    rw [Engine.deleteAll] at done
    split at done
    next deleted =>
      obtain ⟨_, rfl⟩ := Store.deleteJob_ok deleted
      intro other member
      rcases List.mem_cons.mp member with rfl | later
      · have writes := Engine.deleteAll_writes (G := .erasing) (fun _ _ => trivial) done
        exact writes.addsNone.jobs other (by simp [Store.withoutJob, Table.get?_erase])
      · exact ih done other later
    next => cases done

private theorem removes_dropJobs {count : Nat} {j : Job}
    (numbered : s.engine.store.Numbered s.engine.issued)
    (dropped : s.engine.dropJobs.2 = .ok count)
    (stored : s.engine.store.jobs.get? id = some j) (alone : j.pipelineId = none) :
    s.Removes .dropJobs id := by
  refine Or.inl ⟨by simp [stored], ?_⟩
  simp only [perform, withEngine]
  unfold Engine.dropJobs at dropped ⊢
  split at dropped
  next => cases dropped
  next all read =>
    have member : id ∈ (all.filter fun j => !j.belongsToPipeline).map (·.id) :=
      (Store.mem_alone_iff numbered.keyed numbered.jobKey read).mpr ⟨j, stored, alone⟩
    dsimp only at dropped ⊢
    split at dropped
    next deleted => exact deleteAll_gone deleted id member
    next => cases dropped

/-- A pipeline is deleted with its jobs. -/
theorem removes_deletePipeline (deleted : (s.engine.deletePipeline id).2 = .ok ()) :
    ∃ row, s.engine.store.pipelines.get? id = some row ∧ s.Removes (.deletePipeline id) id ∧
      ∀ jobId ∈ row.jobIds, (s.engine.store.jobs.get? jobId).isSome = true →
        s.Removes (.deletePipeline id) jobId := by
  unfold Engine.deletePipeline at deleted
  split at deleted
  next store erased =>
    obtain ⟨row, stored, rfl⟩ := Store.deletePipeline_ok erased
    have after : (s.perform (.deletePipeline id)).engine.store =
        s.engine.store.withoutPipeline id row := by
      simp only [perform, withEngine, Engine.deletePipeline, erased, Engine.store_withStore]
    refine ⟨row, stored, Or.inr ⟨by simp [stored], ?_⟩, fun jobId listed present =>
      Or.inl ⟨present, ?_⟩⟩
    · simp [after, Store.withoutPipeline, Table.get?_erase]
    · simp [after, Store.withoutPipeline, Table.get?_eraseAll, listed]
  next => cases deleted

variable {now : Instant} {registry : Registry} {queueCapacity : Nat} {unit : TimeUnit}
  {workers poolCapacity : Nat} {before after : List Action}

/-- In every run from an empty store, a job is gone for good when it has been deleted or dropped, and
a pipeline with its jobs when it has been deleted. Nothing comes back under an identifier whose
record was removed. -/
theorem deleted_forever (made : new? now registry queueCapacity unit workers poolCapacity = some s)
    (distinct : Id.Distinct (s.run (before ++ a :: after)).engine.issued) :
    (∀ id, a = .deleteJob id → ((s.run before).engine.deleteJob id).2 = .ok () →
      (s.run before).Removes a id) ∧
    (∀ count, a = .dropJobs → (s.run before).engine.dropJobs.2 = .ok count →
      ∀ id j, (s.run before).engine.store.jobs.get? id = some j → j.pipelineId = none →
        (s.run before).Removes a id) ∧
    (∀ id, a = .deletePipeline id → ((s.run before).engine.deletePipeline id).2 = .ok () →
      ∃ row, (s.run before).engine.store.pipelines.get? id = some row ∧
        (s.run before).Removes a id ∧
        ∀ jobId ∈ row.jobIds, ((s.run before).engine.store.jobs.get? jobId).isSome = true →
          (s.run before).Removes a jobId) ∧
    ∀ id, (s.run before).Removes a id →
      (s.run (before ++ a :: after)).engine.store.Lacks id := by
  rw [run_append, run_cons] at distinct ⊢
  have next := distinct.mono (issued_run _ after)
  have few := next.mono (issued_perform _ a)
  have accounted := accounted_run made few
  have unmixed : (s.run before).engine.store.Unmixed := by
    refine unmixed_run (accounted_new made) ?_ few
    rw [(new_eq made).1]
    exact fun id => Or.inl rfl
  refine ⟨?_, ?_, ?_, fun id removes => ?_⟩
  · rintro id rfl deleted
    exact removes_deleteJob deleted
  · rintro count rfl dropped id j stored alone
    exact removes_dropJobs accounted.numbered dropped stored alone
  · rintro id rfl deleted
    exact removes_deletePipeline deleted
  · obtain ⟨issued, lacks⟩ := removes.lacks accounted unmixed next
    exact lacks_run (accounted.perform next) (issued.mono (issued_perform _ a)) lacks distinct

/-- A worker runs the first job of a pipeline, and a tick has read that job as due before. -/
def underWay : List Action :=
  [.createPipeline { exampleRequest with runNow := false }, .start, .scan, .scan, .submit 0, .take,
    .proceed 0]

def afterwards : List Action := [.submit 1, .finish 0 (.success (.issued 1) none), .save 0]

/-- A pipeline is deleted under the hands of a worker and a tick. Neither it nor a job of it comes
back. -/
theorem deleted_forever_underWay :
    ((start.run underWay).engine.deletePipeline (.issued 0)).2.isOk = true ∧
    (start.run underWay).engine.pool.executing.map (·.current.id) = [.issued 1] ∧
    (start.run underWay).due.map (·.id) = [.issued 1] ∧
    (start.run (underWay ++ .deletePipeline (.issued 0) :: afterwards)).engine.issued = 4 ∧
    ∀ k < 3, (start.run (underWay ++ .deletePipeline (.issued 0) :: afterwards)).engine.store.Lacks
      (.issued k) := by
  have distinct : Id.Distinct
      (start.run (underWay ++ .deletePipeline (.issued 0) :: afterwards)).engine.issued :=
    Id.distinct_of_le (by decide +kernel)
  obtain ⟨_, _, removed, gone⟩ := deleted_forever new_start distinct
  obtain ⟨answer, deleted, _⟩ := ok_of_toOption
    (show ((start.run underWay).engine.deletePipeline (.issued 0)).2.toOption.map (fun _ => ()) =
      some () by decide +kernel)
  obtain ⟨row, found, removes, jobs⟩ := removed _ rfl deleted
  have listed : ((start.run underWay).engine.store.pipelines.get? (.issued 0)).map (·.jobIds) =
      some [.issued 1, .issued 2] := by decide +kernel
  rw [found] at listed
  refine ⟨by decide +kernel, by decide +kernel, by decide +kernel, by decide +kernel, fun k lt => ?_⟩
  obtain rfl | rfl | rfl : k = 0 ∨ k = 1 ∨ k = 2 := by omega
  · exact gone _ removes
  · exact gone _ (jobs _ (by simp [Option.some.inj listed]) (by decide +kernel))
  · exact gone _ (jobs _ (by simp [Option.some.inj listed]) (by decide +kernel))

end System

end Rota
