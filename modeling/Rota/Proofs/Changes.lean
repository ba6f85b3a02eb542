import Rota.Proofs.Accounts
/-! Which records an action makes and removes.
An action admits a job or a pipeline, deletes some, or leaves the same records stored under the same
identifiers. All that it writes apart from that goes over what exists. -/
namespace Rota

namespace Store

structure SameKeys (s s' : Store) : Prop where
  jobs : ∀ id, (s'.jobs.get? id).isSome = (s.jobs.get? id).isSome
  lists : ∀ id, (s'.pipelines.get? id).map PipelineRow.jobIds =
    (s.pipelines.get? id).map PipelineRow.jobIds

variable {s s' : Store} {written : List Job} {records : List Pipeline}

theorem SameKeys.of_eq (jobs : s'.jobs = s.jobs) (pipelines : s'.pipelines = s.pipelines) :
    SameKeys s s' where
  jobs id := by rw [jobs]
  lists id := by rw [pipelines]

theorem SameKeys.symm (same : SameKeys s s') : SameKeys s' s where
  jobs id := (same.jobs id).symm
  lists id := (same.lists id).symm

theorem SameKeys.record (same : SameKeys s s') {id : Id} {row : PipelineRow}
    (found : s.pipelines.get? id = some row) :
    ∃ row', s'.pipelines.get? id = some row' ∧ row'.jobIds = row.jobIds := by
  have lists := same.lists id
  rw [found] at lists
  exact Option.map_eq_some_iff.mp lists

private theorem Edited.sameKeys (edited : Edited s s' written records) : SameKeys s s' where
  jobs _ := edited.isSome_jobs
  lists id := edited.get?_pipelines id

end Store

namespace System

variable {s : System} {a : Action} {id : Id}

/-! ### Actions that write over what exists -/

private theorem edited_submitNext (s : System) (place : Nat) : ∃ written records,
    Store.Edited s.engine.store (s.submitNext place).engine.store written records := by
  unfold submitNext
  split
  next job _ _ _ =>
    split
    next => exact ⟨[], [], .refl _⟩
    next =>
      dsimp only
      cases done : s.engine.submit job with
      | mk e submission =>
        cases Engine.submit_submitted done with
        | unsent => exact ⟨[], [], .refl _⟩
        | rearmed _ _ _ _ _ _ _ _ _ edited => exact ⟨_, _, edited⟩
        | refused _ _ _ _ _ edited => exact ⟨_, _, edited⟩
        | sent _ _ _ _ _ _ _ _ edited => exact ⟨_, _, edited⟩
  next => exact ⟨[], [], .refl _⟩

private theorem edited_proceed (s : System) (place : Nat) : ∃ written records,
    Store.Edited s.engine.store (s.proceed place).engine.store written records := by
  unfold proceed
  split
  next => exact ⟨[], [], .refl _⟩
  next =>
    dsimp only
    split
    next begun =>
      obtain ⟨_, _, _, _, _, _, rfl, edited⟩ := Engine.beginWork_some begun
      exact ⟨_, _, edited⟩
    next lost begun =>
      obtain ⟨_, _, rfl, edited, _⟩ := Engine.beginWork_lost begun fun x same => lost x (by rw [same])
      exact ⟨_, _, edited⟩
  next =>
    dsimp only
    split
    next begun =>
      obtain ⟨_, _, _, _, _, _, updated, rfl⟩ := Engine.goOn_inl begun
      exact ⟨_, _, (Store.updateJob_ok updated).1⟩
    next begun =>
      obtain ⟨rfl, _⟩ := Engine.goOn_inr begun
      rw [Engine.store_endExecution]
      exact ⟨[], [], .refl _⟩

private theorem edited_finish (s : System) (place : Nat) (result : JobResult) : ∃ written records,
    Store.Edited s.engine.store (s.finish place result).engine.store written records := by
  unfold finish
  split
  next => exact ⟨[], [], .refl _⟩
  next =>
    split
    next =>
      dsimp only
      split
      all_goals
        next concluded =>
          obtain ⟨_, _, _, _, _, _, _, _, rfl, _, edited, _⟩ := Engine.concludeJob_spec concluded
          exact ⟨_, _, by simpa using edited⟩
    next => exact ⟨[], [], .refl _⟩

private theorem edited_save (s : System) (place : Nat) :
    Store.Edited s.engine.store (s.save place).engine.store [] [] := by
  unfold save
  split
  next => exact .refl _
  next =>
    dsimp only
    split
    next created =>
      obtain rfl := Store.createResult_ok created
      exact ⟨rfl, by simp, rfl, rfl⟩
    next => exact .refl _

private theorem edited_updateJob (e : Engine) (id : Id) (r : UpdateJob) : ∃ written records,
    Store.Edited e.store (e.updateJob id r).1.store written records := by
  cases done : e.updateJob id r with
  | mk e' answer =>
    cases answer with
    | error => exact ⟨[], [], Engine.updateJob_error done ▸ .refl _⟩
    | ok k =>
      obtain ⟨_, _, _, _, _, written, rfl⟩ := Engine.updateJob_ok done
      exact ⟨_, _, (Store.updateJob_ok written).1⟩

private theorem edited_updatePipeline (e : Engine) (id : Id) (r : UpdatePipeline) :
    ∃ written records,
    Store.Edited e.store (e.updatePipeline id r).1.store written records := by
  cases done : e.updatePipeline id r with
  | mk e' answer =>
    cases answer with
    | error => exact ⟨[], [], Engine.updatePipeline_error done ▸ .refl _⟩
    | ok p =>
      obtain ⟨_, _, _, _, _, written, rfl⟩ := Engine.updatePipeline_ok done
      exact ⟨_, _, (Store.updatePipeline_ok written).1⟩

/-! ### All actions -/

/-- How the records after an action differ from those before: there are new ones of the job or the
pipeline that it admits, those that it deletes are gone, and there are no other differences. -/
inductive Changes (s : System) (a : Action) : Prop
  | nothing (same : s.engine.store.SameKeys (s.perform a).engine.store)
  | job (j : Job) (key : j.id = .issued s.engine.issued) (alone : j.pipelineId = none)
      (issued : s.engine.issued < (s.perform a).engine.issued)
      (store : (s.perform a).engine.store = s.engine.store.withJob j)
  | pipeline (r : CreatePipeline) (p : Pipeline) (asked : a = .createPipeline r)
      (answer : (s.engine.createPipeline r).2 = .ok p) (isNew : p.IsNew s.engine.issued)
      (issued : (s.perform a).engine.issued = s.engine.issued + p.jobs.length + 1)
      (store : (s.perform a).engine.store = s.engine.store.withPipeline p)
  | erasedJobs (ids : List Id)
      (alone : ∀ id ∈ ids, ∀ j, s.engine.store.jobs.get? id = some j → j.pipelineId = none)
      (jobs : (s.perform a).engine.store.jobs = ids.foldl Table.erase s.engine.store.jobs)
      (pipelines : (s.perform a).engine.store.pipelines = s.engine.store.pipelines)
  | erasedPipeline (id : Id) (row : PipelineRow)
      (found : s.engine.store.pipelines.get? id = some row)
      (store : (s.perform a).engine.store = s.engine.store.withoutPipeline id row)

theorem Changes.of_eq (store : (s.perform a).engine.store = s.engine.store) : s.Changes a :=
  .nothing (.of_eq (congrArg Store.jobs store) (congrArg Store.pipelines store))

private theorem changes_createJob (numbered : s.engine.store.Numbered s.engine.issued)
    {r : CreateJob}
    (distinct : Id.Distinct (s.perform (.createJob r)).engine.issued) :
    s.Changes (.createJob r) := by
  change Id.Distinct (s.engine.createJob r).1.issued at distinct
  rw [issued_createJob] at distinct
  cases answer : (s.engine.createJob r).2 with
  | error => exact .of_eq (Engine.createJob_error numbered distinct answer).1
  | ok j =>
    obtain ⟨_, _, asked, _, same⟩ := Engine.createJob_ok answer
    have after : (s.perform (.createJob r)).engine = _ := same
    refine .job j (congrArg Job.id asked) (congrArg Job.pipelineId asked) ?_ (by rw [after])
    rw [after]
    exact Nat.lt_succ_self _

private theorem changes_createPipeline (numbered : s.engine.store.Numbered s.engine.issued)
    {r : CreatePipeline} (distinct : Id.Distinct (s.perform (.createPipeline r)).engine.issued) :
    s.Changes (.createPipeline r) := by
  change Id.Distinct (s.engine.createPipeline r).1.issued at distinct
  rw [issued_createPipeline] at distinct
  cases answer : (s.engine.createPipeline r).2 with
  | error => exact .of_eq (Engine.createPipeline_error numbered distinct answer).1
  | ok p =>
    obtain ⟨_, _, _, isNew, length, _, same⟩ := Engine.createPipeline_ok answer
    have after : (s.perform (.createPipeline r)).engine = _ := same
    exact .pipeline r p rfl answer isNew (by rw [after, length]) (by rw [after])

private theorem changes_deleteJob (s : System) (id : Id) : s.Changes (.deleteJob id) := by
  cases done : s.engine.deleteJob id with
  | mk e answer =>
    have after : (s.perform (.deleteJob id)).engine = e := congrArg Prod.fst done
    cases answer with
    | error => exact .of_eq (by rw [after, Engine.deleteJob_error done])
    | ok _ =>
      obtain ⟨row, stored, alone, rfl⟩ := Engine.deleteJob_ok done
      refine .erasedJobs [id] ?_ (by rw [after]; rfl) (by rw [after]; rfl)
      intro other member k found
      rw [List.mem_singleton.mp member, stored] at found
      cases found
      exact alone

private theorem changes_dropJobs (numbered : s.engine.store.Numbered s.engine.issued) :
    s.Changes .dropJobs := by
  cases done : s.engine.dropJobs with
  | mk e answer =>
    have after : (s.perform .dropJobs).engine = e := congrArg Prod.fst done
    cases answer with
    | error => exact .of_eq (by rw [after, Engine.dropJobs_error numbered done])
    | ok n =>
      unfold Engine.dropJobs at done
      split at done
      next => cases done
      next all read =>
        dsimp only at done
        split at done
        next deleted =>
          cases done
          obtain ⟨ids, early, jobs, pipelines, _⟩ := Engine.deleteAll_eraseAll deleted
          refine .erasedJobs ids ?_ (by rw [after]; exact jobs) (by rw [after]; exact pipelines)
          intro id member j stored
          obtain ⟨k, found, alone⟩ :=
            (Store.mem_alone_iff numbered.keyed numbered.jobKey read).mp (early.subset member)
          cases stored.symm.trans found
          exact alone
        next => cases done

private theorem changes_deletePipeline (s : System) (id : Id) : s.Changes (.deletePipeline id) := by
  cases erased : s.engine.store.deletePipeline id with
  | error => exact .of_eq (by simp [perform, withEngine, Engine.deletePipeline, erased])
  | ok store =>
    obtain ⟨row, found, rfl⟩ := Store.deletePipeline_ok erased
    exact .erasedPipeline id row found (by simp [perform, withEngine, Engine.deletePipeline, erased])

private theorem changes_deleteResult (s : System) (id : Id) : s.Changes (.deleteResult id) := by
  cases erased : s.engine.store.deleteResult id with
  | error => exact .of_eq (by simp [perform, withEngine, Engine.deleteResult, erased])
  | ok store =>
    obtain rfl := Store.deleteResult_ok erased
    refine .nothing (.of_eq ?_ ?_) <;> simp [perform, withEngine, Engine.deleteResult, erased]

theorem changes_perform (numbered : s.engine.store.Numbered s.engine.issued) (a : Action)
    (distinct : Id.Distinct (s.perform a).engine.issued) : s.Changes a := by
  have edits (written : ∃ written records,
      Store.Edited s.engine.store (s.perform a).engine.store written records) : s.Changes a := by
    obtain ⟨_, _, edited⟩ := written
    exact .nothing edited.sameKeys
  cases a with
  | createJob r => exact changes_createJob numbered distinct
  | createPipeline r => exact changes_createPipeline numbered distinct
  | updateJob id r => exact edits (edited_updateJob s.engine id r)
  | updatePipeline id r => exact edits (edited_updatePipeline s.engine id r)
  | deleteJob id => exact changes_deleteJob s id
  | dropJobs => exact changes_dropJobs numbered
  | deletePipeline id => exact changes_deletePipeline s id
  | deleteResult id => exact changes_deleteResult s id
  | scan => exact .of_eq (store_scan s)
  | look => exact .of_eq (store_look s)
  | submit place => exact edits (edited_submitNext s place)
  | abandon place => exact .of_eq (store_abandon s place)
  | take => exact .of_eq (store_take s)
  | proceed place => exact edits (edited_proceed s place)
  | finish place result => exact edits (edited_finish s place result)
  | save place => exact edits ⟨[], [], edited_save s place⟩
  | _ => exact .nothing (.of_eq rfl rfl)

end System

end Rota
