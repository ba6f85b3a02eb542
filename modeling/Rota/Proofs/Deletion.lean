import Rota.Proofs.Deleted
import Rota.Proofs.Scan
/-! Deletions take away what they name and nothing else.
The jobs of a pipeline are deleted through the list in its record. They are the jobs that say that
they belong to it: no job is admitted to a pipeline later, none is taken from it, and no action
changes what it says. -/
namespace Rota

namespace Store

variable {s s' : Store} {A : List Origin} {n : Nat} {id : Id} {row : PipelineRow}

def ownedBy (s : Store) (owner : Option Id) : List Id :=
  (s.jobs.rows.filter fun row => row.2.pipelineId = owner).map (·.1)

/-- The store without the jobs `jobs` and their results, the pipelines `pipelines`, and the
transactions of the jobs `audited`. -/
def without (s : Store) (jobs pipelines audited : List Id) : Store where
  jobs := ⟨s.jobs.rows.filter fun row => row.1 ∉ jobs⟩
  pipelines := ⟨s.pipelines.rows.filter fun row => row.1 ∉ pipelines⟩
  results := ⟨s.results.rows.filter fun row => row.1 ∉ jobs⟩
  transactions := ⟨s.transactions.rows.filter fun row => row.2.jobId ∉ audited⟩
  isClosed := s.isClosed

private theorem mem_ownedBy (keyed : s.jobs.Keyed) {owner : Option Id} :
    id ∈ s.ownedBy owner ↔ ∃ j, s.jobs.get? id = some j ∧ j.pipelineId = owner := by
  constructor
  · intro member
    obtain ⟨row, inside, rfl⟩ := List.mem_map.mp member
    obtain ⟨stored, owns⟩ := List.mem_filter.mp inside
    exact ⟨row.2, keyed.get?_of_mem row stored, by simpa using owns⟩
  · rintro ⟨j, stored, owns⟩
    obtain ⟨row, first, rfl⟩ := Option.map_eq_some_iff.mp stored
    have key : row.1 = id := by simpa using List.find?_some first
    apply List.mem_map.mpr
    exact ⟨row, List.mem_filter.mpr ⟨List.mem_of_find?_eq_some first, by simpa using owns⟩, key⟩

private theorem nodup_ownedBy (keyed : s.jobs.Keyed) (owner : Option Id) :
    (s.ownedBy owner).Nodup :=
  List.Nodup.sublist (List.Sublist.map _ List.filter_sublist) keyed

private theorem without_congr {jobs jobs' pipelines audited audited' : List Id}
    (same : ∀ id, id ∈ jobs ↔ id ∈ jobs') (sameAudited : ∀ id, id ∈ audited ↔ id ∈ audited') :
    s.without jobs pipelines audited = s.without jobs' pipelines audited' := by
  simp only [without, same, sameAudited]

private theorem without_nil (s : Store) : s.without [] [] [] = s := by
  simp [without]

private theorem withoutJob_eq (s : Store) (id : Id) : s.withoutJob id = s.without [id] [] [id] := by
  simp [withoutJob, without, Table.erase, Table.eraseIf]

private theorem without_withoutJob (s : Store) (id : Id) (ids : List Id) :
    (s.withoutJob id).without ids [] ids = s.without (id :: ids) [] (id :: ids) := by
  simp only [withoutJob, without, Table.erase, Table.eraseIf, List.filter_filter, List.mem_cons,
    not_or, Bool.decide_and, decide_not, Bool.and_comm]

private theorem withoutPipeline_eq (s : Store) (id : Id) (row : PipelineRow) :
    s.withoutPipeline id row = s.without row.jobIds [id] [] := by
  have erased {α : Type} (t : Table α) : row.jobIds.foldl Table.erase t =
      ⟨t.rows.filter fun row' => row'.1 ∉ row.jobIds⟩ :=
    congrArg Table.mk (Table.rows_eraseAll row.jobIds t)
  simp [withoutPipeline, without, Table.erase, erased]

/-! ### Whose jobs are listed -/

/-- The pipelines list the stored jobs that say that they belong to them, and no others. -/
structure Owned (s : Store) : Prop where
  listed : ∀ id j owner, s.jobs.get? id = some j → j.pipelineId = some owner →
    ∃ row, s.pipelines.get? owner = some row ∧ id ∈ row.jobIds
  stored : ∀ owner row, s.pipelines.get? owner = some row →
    ∀ id ∈ row.jobIds, (s.jobs.get? id).isSome = true

private theorem owned_empty : empty.Owned := ⟨by simp [empty], by simp [empty]⟩

/-- A stored job that a pipeline lists says that it belongs to it. -/
theorem Recorded.owner_of_listed (recorded : s.Recorded A n)
    (unique : ∀ o ∈ A, ∀ o' ∈ A, o.id = o'.id → o = o') {owner : Id} {j : Job}
    (found : s.pipelines.get? owner = some row) (listed : id ∈ row.jobIds)
    (stored : s.jobs.get? id = some j) : j.pipelineId = some owner := by
  obtain ⟨o, known, key, owns⟩ := recorded.owned owner row found id listed
  have same : j.origin = o := by
    apply unique _ (recorded.jobs j (Table.mem_values_of_get? stored)) _ known
    exact (recorded.jobKey id j stored).trans key.symm
  exact (congrArg Origin.pipelineId same).trans owns

private theorem Owned.mem_jobIds (owned : s.Owned) (recorded : s.Recorded A n)
    (unique : ∀ o ∈ A, ∀ o' ∈ A, o.id = o'.id → o = o') {owner : Id}
    (found : s.pipelines.get? owner = some row) : id ∈ row.jobIds ↔ id ∈ s.ownedBy (some owner) := by
  rw [mem_ownedBy recorded.keyed]
  constructor
  · intro listed
    obtain ⟨j, stored⟩ := Option.isSome_iff_exists.mp (owned.stored owner row found id listed)
    exact ⟨j, stored, recorded.owner_of_listed unique found listed stored⟩
  · rintro ⟨j, stored, owns⟩
    obtain ⟨row', found', listed⟩ := owned.listed id j owner stored owns
    rw [found] at found'
    cases found'
    exact listed

/-! ### What an action leaves of it -/

section

variable {B : List Origin} {m : Nat}

theorem SameKeys.owned (same : SameKeys s s') (recorded : s.Recorded A n)
    (recorded' : s'.Recorded B m) (more : A ⊆ B)
    (unique : ∀ o ∈ B, ∀ o' ∈ B, o.id = o'.id → o = o') (owned : s.Owned) : s'.Owned where
  listed id j owner stored owns := by
    obtain ⟨k, before⟩ := Option.isSome_iff_exists.mp
      ((same.jobs id).symm.trans (Option.isSome_iff_exists.mpr ⟨j, stored⟩))
    -- What is stored under one identifier before and after has been granted as one.
    have origin : k.origin = j.origin := by
      apply unique _ (more (recorded.jobs k (Table.mem_values_of_get? before))) _
        (recorded'.jobs j (Table.mem_values_of_get? stored))
      exact (recorded.jobKey id k before).trans (recorded'.jobKey id j stored).symm
    obtain ⟨row, found, member⟩ :=
      owned.listed id k owner before ((Job.pipelineId_of_origin origin).trans owns)
    obtain ⟨row', found', ids⟩ := same.record found
    exact ⟨row', found', ids ▸ member⟩
  stored owner row found id member := by
    obtain ⟨row', before, ids⟩ := same.symm.record found
    rw [same.jobs]
    exact owned.stored owner row' before id (ids.symm ▸ member)

theorem Owned.withJob (owned : s.Owned) {j : Job} (alone : j.pipelineId = none) :
    (s.withJob j).Owned where
  listed id k owner stored owns := by
    rcases Table.get?_put_cases stored with ⟨_, rfl⟩ | ⟨_, before⟩
    · rw [alone] at owns
      cases owns
    · exact owned.listed id k owner before owns
  stored owner row found id member := by
    rw [Store.withJob, Table.get?_put]
    split
    next => rfl
    next => exact owned.stored owner row found id member

theorem Owned.withPipeline (owned : s.Owned) {p : Pipeline}
    (owns : ∀ j ∈ p.jobs, j.pipelineId = some p.id) (new : s.pipelines.get? p.id = none) :
    (s.withPipeline p).Owned where
  listed id j owner stored owner' := by
    rcases putJobs_cases stored with ⟨inside, key⟩ | ⟨before, _⟩
    · rw [owns j inside] at owner'
      cases owner'
      exact ⟨_, Table.get?_put_self _ _ _, List.mem_map.mpr ⟨j, inside, key⟩⟩
    · obtain ⟨row, found, member⟩ := owned.listed id j owner before owner'
      have different : owner ≠ p.id := by
        rintro rfl
        rw [new] at found
        cases found
      refine ⟨row, ?_, member⟩
      rwa [Store.withPipeline, Table.get?_put_ne _ _ different]
  stored owner row found id member := by
    rcases Table.get?_put_cases found with ⟨_, rfl⟩ | ⟨_, before⟩
    · obtain ⟨j, inside, rfl⟩ := List.mem_map.mp member
      obtain ⟨k, _, stored, _⟩ := get?_putJobs_of_mem s.jobs inside
      simp [Store.withPipeline, stored]
    · obtain ⟨j, there⟩ := Option.isSome_iff_exists.mp (owned.stored owner row before id member)
      rw [Store.withPipeline, get?_putJobs, there]
      simp

/-- Jobs that belong to no pipeline are on no list. -/
theorem Owned.eraseAll (owned : s.Owned) (recorded : s.Recorded A n)
    (unique : ∀ o ∈ A, ∀ o' ∈ A, o.id = o'.id → o = o') {ids : List Id}
    (alone : ∀ id ∈ ids, ∀ j, s.jobs.get? id = some j → j.pipelineId = none)
    (jobs : s'.jobs = ids.foldl Table.erase s.jobs) (pipelines : s'.pipelines = s.pipelines) :
    s'.Owned where
  listed id j owner stored owns := by
    rw [jobs] at stored
    rw [pipelines]
    exact owned.listed id j owner (Table.get?_of_eraseAll stored).2 owns
  stored owner row found id member := by
    rw [pipelines] at found
    have present := owned.stored owner row found id member
    obtain ⟨j, stored⟩ := Option.isSome_iff_exists.mp present
    have outside : id ∉ ids := by
      intro erased
      have owns := recorded.owner_of_listed unique found member stored
      rw [alone id erased j stored] at owns
      cases owns
    rwa [jobs, Table.get?_eraseAll, if_neg outside]

/-- No job is on the lists of two pipelines. -/
theorem Owned.withoutPipeline (owned : s.Owned) (recorded : s.Recorded A n)
    (unique : ∀ o ∈ A, ∀ o' ∈ A, o.id = o'.id → o = o')
    (found : s.pipelines.get? id = some row) : (s.withoutPipeline id row).Owned where
  listed jobId j owner stored owns := by
    obtain ⟨outside, before⟩ := Table.get?_of_eraseAll stored
    obtain ⟨row', found', member⟩ := owned.listed jobId j owner before owns
    have different : owner ≠ id := by
      rintro rfl
      rw [found] at found'
      cases found'
      exact outside member
    refine ⟨row', ?_, member⟩
    rwa [Store.withoutPipeline, Table.get?_erase, if_neg different]
  stored owner row' found' jobId member := by
    obtain ⟨different, before⟩ := Table.get?_of_erase found'
    have present := owned.stored owner row' before jobId member
    obtain ⟨j, stored⟩ := Option.isSome_iff_exists.mp present
    have outside : jobId ∉ row.jobIds := by
      intro listed
      have owns := recorded.owner_of_listed unique before member stored
      rw [recorded.owner_of_listed unique found listed stored] at owns
      exact different (Option.some.inj owns).symm
    rwa [Store.withoutPipeline, Table.get?_eraseAll, if_neg outside]

end

end Store

/-! ### Deletions -/

namespace Engine

variable {e e' : Engine} {n : Nat}

private theorem deleteAll_eq {s s' : Store} {ids : List Id}
    (done : deleteAll s ids = (s', .ok ())) :
    s' = s.without ids [] ids := by
  induction ids generalizing s with
  | nil =>
    cases done
    exact (Store.without_nil _).symm
  | cons id ids ih =>
    rw [deleteAll] at done
    split at done
    next deleted =>
      obtain ⟨_, rfl⟩ := Store.deleteJob_ok deleted
      rw [ih done, Store.without_withoutJob]
    next => cases done

/-- The jobs that are dropped are those that belong to no pipeline, each of them once. -/
theorem dropJobs_ok {count : Nat} (numbered : e.store.Numbered n)
    (done : e.dropJobs = (e', .ok count)) : count = (e.store.ownedBy none).length ∧
      e' = e.withStore (e.store.without (e.store.ownedBy none) [] (e.store.ownedBy none)) := by
  unfold dropJobs at done
  split at done
  next => cases done
  next all read =>
    obtain ⟨_, distinct, _⟩ := numbered.listed read
    generalize asked : (all.filter fun j => !j.belongsToPipeline).map (·.id) = ids at done
    have once : ids.Nodup := by
      rw [← asked]
      exact (List.filter_sublist.map _).nodup distinct
    have same : ∀ id, id ∈ ids ↔ id ∈ e.store.ownedBy none := by
      intro id
      rw [Store.mem_ownedBy numbered.keyed, ← asked]
      exact Store.mem_alone_iff numbered.keyed numbered.jobKey read
    dsimp only at done
    split at done
    next deleted =>
      cases done
      rw [deleteAll_eq deleted, Store.without_congr same same]
      refine ⟨?_, rfl⟩
      apply List.Perm.length_eq
      exact (List.perm_ext_iff_of_nodup once (Store.nodup_ownedBy numbered.keyed none)).mpr same
    next => cases done

/-- What the deletions of an engine take out of its store. They change nothing else, in the store
or outside of it. -/
structure DeletesExactly (e : Engine) : Prop where
  owned : ∀ owner id, id ∈ e.store.ownedBy owner ↔
    ∃ j, e.store.jobs.get? id = some j ∧ j.pipelineId = owner
  job : ∀ id e', e.deleteJob id = (e', .ok ()) →
    id ∈ e.store.ownedBy none ∧ e' = e.withStore (e.store.without [id] [] [id])
  pipeline : ∀ id e', e.deletePipeline id = (e', .ok ()) →
    (e.store.pipelines.get? id).isSome = true ∧
      e' = e.withStore (e.store.without (e.store.ownedBy (some id)) [id] [])
  all : ∀ count e', e.dropJobs = (e', .ok count) → count = (e.store.ownedBy none).length ∧
    e' = e.withStore (e.store.without (e.store.ownedBy none) [] (e.store.ownedBy none))
  dropped : e.store.Readable → ∃ e' count, e.dropJobs = (e', .ok count)

end Engine

namespace System

variable {s : System} {a : Action} {A : List Origin}

theorem Changes.owned (changes : s.Changes a) (accounted : s.Accounted A)
    (distinct : Id.Distinct (s.perform a).engine.issued) (owned : s.engine.store.Owned) :
    (s.perform a).engine.store.Owned := by
  have next := accounted.perform distinct
  cases changes with
  | nothing same =>
    exact same.owned accounted.recorded next.recorded (List.subset_append_left _ _) next.unique owned
  | job j _ alone _ store => exact store ▸ owned.withJob alone
  | pipeline r p _ _ isNew issued store =>
    rw [issued] at distinct
    have fresh := distinct.fresh (Nat.le_refl s.engine.issued) (by omega)
    have owns : ∀ j ∈ p.jobs, j.pipelineId = some p.id := by
      intro j inside
      obtain ⟨i, here⟩ := List.mem_iff_getElem?.mp inside
      exact (isNew.placed i j here).2.1
    exact store ▸ owned.withPipeline owns (accounted.numbered.noPipeline (isNew.key ▸ fresh))
  | erasedJobs ids alone jobs pipelines =>
    exact owned.eraseAll accounted.recorded accounted.unique alone jobs pipelines
  | erasedPipeline id row found store =>
    exact store ▸ owned.withoutPipeline accounted.recorded accounted.unique found

private theorem Accounted.deletesExactly (accounted : s.Accounted A)
    (owned : s.engine.store.Owned) :
    s.engine.DeletesExactly where
  owned _ _ := Store.mem_ownedBy accounted.recorded.keyed
  job id e' done := by
    obtain ⟨row, stored, alone, rfl⟩ := Engine.deleteJob_ok done
    refine ⟨(Store.mem_ownedBy accounted.recorded.keyed).mpr ⟨row, stored, alone⟩, ?_⟩
    rw [Store.withoutJob_eq]
  pipeline id e' done := by
    unfold Engine.deletePipeline at done
    split at done
    next erased =>
      cases done
      obtain ⟨row, found, rfl⟩ := Store.deletePipeline_ok erased
      refine ⟨by simp [found], ?_⟩
      rw [Store.withoutPipeline_eq, Store.without_congr (fun _ =>
        owned.mem_jobIds accounted.recorded accounted.unique found) fun _ => Iff.rfl]
    next => cases done
  all count e' done := Engine.dropJobs_ok accounted.numbered done
  dropped readable := by
    obtain ⟨all, read, _⟩ := readable.readJobs accounted.recorded.keyed
    exact Engine.dropJobs_of_read accounted.numbered (bind_ok_iff.mpr ⟨all, read, rfl⟩)

variable {now : Instant} {registry : Registry} {queueCapacity : Nat} {unit : TimeUnit}
  {workers poolCapacity : Nat} {actions : List Action}

/-- In every state that a run from an empty store reaches, deletions are exact. -/
theorem deletions_exact (made : new? now registry queueCapacity unit workers poolCapacity = some s)
    (distinct : Id.Distinct (s.run actions).engine.issued) :
    (s.run actions).engine.DeletesExactly := by
  have anything : Along (fun _ _ => True) s actions := along_of_forall (fun _ _ _ => trivial) s
  have new : s.engine.store.Owned := (new_eq made).1 ▸ Store.owned_empty
  have all := (accounted_new made).run_keeps (P := fun _ t => t.engine.store.Owned) new
    (fun B t b accounted owned _ few =>
      (changes_perform accounted.numbered b few).owned accounted few owned) anything distinct
  exact all.1.deletesExactly all.2

def reminder : CreateJob where
  name := "remind"
  description := none
  taskName := "noop"
  taskParams := []
  timeout := 0
  runAt := none
  runNow := false
  disable := false
  options := ⟨none, false⟩

def withReminder : List Action := firstJob ++ [.save 0, .createJob reminder]

/-- The job besides is dropped and the pipeline stays, or the pipeline is deleted and the job stays.
-/
theorem deletions_exact_reminder :
    (start.run withReminder).engine.DeletesExactly ∧
    (start.run withReminder).engine.store.ownedBy none = [.issued 4] ∧
    (start.run withReminder).engine.store.ownedBy (some (.issued 0)) = [.issued 1, .issued 2] ∧
    (start.run withReminder).engine.store.results.values.map (·.jobId) = [.issued 1] ∧
    (start.run withReminder).engine.store.transactions.values.map (·.jobId) = [.issued 1] ∧
    ((start.run withReminder).engine.deleteJob (.issued 4)).2.isOk = true ∧
    ((start.run withReminder).engine.deletePipeline (.issued 0)).2.isOk = true ∧
    (start.run withReminder).engine.dropJobs.2.toOption = some 1 := by
  refine ⟨deletions_exact new_start (Id.distinct_of_le (by decide +kernel)), ?_⟩
  decide +kernel

end System

end Rota
