import Rota.Proofs.Management
import Rota.Proofs.System
/-! What callers say of jobs and pipelines.
A call checks what it is told before it stores it. What is said of a stored record changes by an
update of that record and by no other call. -/
namespace Rota

namespace Engine

variable {e e' : Engine} {a : Action} {id : Id}

/-- What a call has done to the details of jobs and pipelines. -/
structure Told (e : Engine) (a : Action) (e' : Engine) : Prop where
  jobs : ∀ id k, e'.store.jobs.get? id = some k →
    (∃ j, e.store.jobs.get? id = some j ∧ k.details = j.details) ∨
      k.validate e.registry.names = .ok () ∧ k.id = id ∧
        (Id.IsIssued e.issued id → ∃ r, a = .updateJob id r)
  pipelines : ∀ id row, e'.store.pipelines.get? id = some row →
    (∃ r, e.store.pipelines.get? id = some r ∧ row.record.details = r.record.details) ∨
      ∃ p : Pipeline, p.validate = .ok () ∧ p.id = id ∧ row.record.details = p.details ∧
        (Id.IsIssued e.issued id → ∃ r, a = .updatePipeline id r)

/-! ### Updates -/

theorem updateJob_ok {r : UpdateJob} {k : Job} (done : e.updateJob id r = (e', .ok k)) :
    ∃ c s, e.store.getJob id = .ok c ∧ k = r.applyTo c ∧
      k.validate e.registry.names = .ok () ∧ e.store.updateJob k = .ok s ∧ e' = e.withStore s := by
  unfold updateJob at done
  dsimp only at done
  split at done
  next updated =>
    cases done
    obtain ⟨c, read, rest⟩ := bind_ok updated
    obtain ⟨_, valid, rest⟩ := bind_ok rest
    obtain ⟨_, written, same⟩ := bind_ok rest
    cases same
    exact ⟨c, _, mapError_ok read, rfl, mapError_ok valid, mapError_ok written, rfl⟩
  next => cases done

theorem updateJob_error {r : UpdateJob} {err : AdmissionError}
    (done : e.updateJob id r = (e', .error err)) : e' = e := by
  unfold updateJob at done
  dsimp only at done
  split at done
  next => cases done
  next => cases done; rfl

theorem updatePipeline_ok {r : UpdatePipeline} {p : Pipeline}
    (done : e.updatePipeline id r = (e', .ok p)) :
    ∃ q s, e.store.getPipeline id = .ok q ∧ p = r.applyTo q ∧ p.validate = .ok () ∧
      e.store.updatePipeline p = .ok s ∧ e' = e.withStore s := by
  unfold updatePipeline at done
  dsimp only at done
  split at done
  next updated =>
    cases done
    obtain ⟨q, read, rest⟩ := bind_ok updated
    obtain ⟨_, valid, rest⟩ := bind_ok rest
    obtain ⟨_, written, same⟩ := bind_ok rest
    cases same
    exact ⟨q, _, mapError_ok read, rfl, mapError_ok valid, mapError_ok written, rfl⟩
  next => cases done

theorem updatePipeline_error {r : UpdatePipeline} {err : AdmissionError}
    (done : e.updatePipeline id r = (e', .error err)) : e' = e := by
  unfold updatePipeline at done
  dsimp only at done
  split at done
  next => cases done
  next => cases done; rfl

/-! ### Deletions -/

structure Erased (e e' : Engine) : Prop where
  jobs : ∃ ids : List Id, e'.store.jobs = ids.foldl Table.erase e.store.jobs
  pipelines : ∃ ids : List Id, e'.store.pipelines = ids.foldl Table.erase e.store.pipelines

theorem Erased.refl (e : Engine) : e.Erased e := ⟨⟨[], rfl⟩, ⟨[], rfl⟩⟩

theorem deleteJob_erased (e : Engine) (id : Id) : e.Erased (e.deleteJob id).1 := by
  cases done : e.deleteJob id with
  | mk e' answer =>
    cases answer with
    | error err =>
      rw [deleteJob_error done]
      exact .refl e
    | ok _ =>
      obtain ⟨_, _, _, rfl⟩ := deleteJob_ok done
      exact ⟨⟨[id], rfl⟩, ⟨[], rfl⟩⟩

theorem dropJobs_erased (e : Engine) : e.Erased e.dropJobs.1 := by
  unfold dropJobs
  split
  next => exact .refl e
  next =>
    dsimp only
    split
    all_goals
      next deleted =>
        obtain ⟨ids, _, jobs, pipelines, _⟩ := deleteAll_eraseAll deleted
        exact ⟨⟨ids, jobs⟩, ⟨[], pipelines⟩⟩

theorem deletePipeline_erased (e : Engine) (id : Id) : e.Erased (e.deletePipeline id).1 := by
  unfold deletePipeline
  split
  next deleted =>
    obtain ⟨row, _, rfl⟩ := Store.deletePipeline_ok deleted
    exact ⟨⟨row.jobIds, rfl⟩, ⟨[id], rfl⟩⟩
  next => exact .refl e

theorem deleteResult_erased (e : Engine) (id : Id) : e.Erased (e.deleteResult id).1 := by
  unfold deleteResult
  split
  next deleted =>
    obtain rfl := Store.deleteResult_ok deleted
    exact ⟨⟨[], rfl⟩, ⟨[], rfl⟩⟩
  next => exact .refl e

/-! ### What is said of records -/

theorem Told.refl (e : Engine) : e.Told a e :=
  ⟨fun _ k stored => Or.inl ⟨k, stored, rfl⟩, fun _ row found => Or.inl ⟨row, found, rfl⟩⟩

theorem Erased.told (erased : e.Erased e') : e.Told a e' where
  jobs id k stored := by
    obtain ⟨ids, jobs⟩ := erased.jobs
    exact Or.inl ⟨k, (Store.get?_eraseJobs jobs stored).1, rfl⟩
  pipelines id row found := by
    obtain ⟨ids, pipelines⟩ := erased.pipelines
    rw [pipelines] at found
    exact Or.inl ⟨row, (Table.get?_of_eraseAll found).2, rfl⟩

/-- A call that issues identifiers changes nothing that is said of what was there. -/
theorem Changed.told (change : e.Changed e') (distinct : Id.Distinct e'.issued)
    (more : e.issued < e'.issued) : e.Told a e' := by
  cases change with
  | kept _ jobs pipelines =>
    exact ⟨fun _ k stored => Or.inl ⟨k, jobs ▸ stored, rfl⟩,
      fun _ row found => Or.inl ⟨row, pipelines ▸ found, rfl⟩⟩
  | newJob j issued key _ _ jobs pipelines _ valid =>
    rw [issued] at distinct
    refine ⟨fun id k stored => ?_, fun _ row found => Or.inl ⟨row, pipelines ▸ found, rfl⟩⟩
    rw [jobs] at stored
    rcases Table.get?_put_cases stored with ⟨same, rfl⟩ | ⟨_, before⟩
    · refine Or.inr ⟨valid, same.symm, fun known => absurd known ?_⟩
      rw [same, key]
      exact distinct.fresh (Nat.le_refl _) (Nat.lt_succ_self _)
    · exact Or.inl ⟨k, before, rfl⟩
  | newPipeline p issued isNew _ jobs pipelines _ valid validJobs =>
    rw [issued] at distinct
    refine ⟨fun id k stored => ?_, fun id row found => ?_⟩
    · rcases Store.newPipeline_cases isNew distinct jobs stored with ⟨i, here, key, fresh⟩ | before
      · exact Or.inr ⟨validJobs k (List.mem_of_getElem? here), key, fun known => absurd known fresh⟩
      · exact Or.inl ⟨k, before, rfl⟩
    · rw [pipelines] at found
      rcases Table.get?_put_cases found with ⟨same, rfl⟩ | ⟨_, before⟩
      · refine Or.inr ⟨p, valid, same.symm, rfl, fun known => absurd known ?_⟩
        rw [same, isNew.key]
        exact distinct.fresh (Nat.le_refl _) (by omega)
      · exact Or.inl ⟨row, before, rfl⟩
  | changedJob _ _ issued => omega
  | changedPipeline _ _ issued => omega
  | erasedJobs _ issued => omega
  | erasedPipeline _ _ issued => omega

theorem updateJob_told (consistent : e.store.Consistent e.issued) (r : UpdateJob) :
    e.Told (.updateJob id r) (e.updateJob id r).1 := by
  cases done : e.updateJob id r with
  | mk e' answer =>
    cases answer with
    | error err =>
      cases updateJob_error done
      exact .refl e
    | ok k =>
      obtain ⟨c, store, read, rfl, valid, written, rfl⟩ := updateJob_ok done
      have edited := (Store.updateJob_ok written).1
      have key : (r.applyTo c).id = id := (consistent.isCopy_getJob read).2
      refine ⟨fun other j stored => ?_, fun other row found => Or.inl ⟨row, ?_, rfl⟩⟩
      · rw [store_withStore, edited.jobs] at stored
        rcases Store.putJobs_cases stored with ⟨member, same⟩ | ⟨before, _⟩
        · cases List.mem_singleton.mp member
          exact Or.inr ⟨valid, same, fun _ => ⟨r, by rw [← same, key]⟩⟩
        · exact Or.inl ⟨j, before, rfl⟩
      · rwa [store_withStore, edited.pipelines] at found

theorem updatePipeline_told (consistent : e.store.Consistent e.issued) (r : UpdatePipeline) :
    e.Told (.updatePipeline id r) (e.updatePipeline id r).1 := by
  cases done : e.updatePipeline id r with
  | mk e' answer =>
    cases answer with
    | error err =>
      cases updatePipeline_error done
      exact .refl e
    | ok p =>
      obtain ⟨q, store, read, rfl, valid, written, rfl⟩ := updatePipeline_ok done
      have edited := (Store.updatePipeline_ok written).1
      obtain ⟨row, loaded⟩ := consistent.loaded read
      have key : (r.applyTo q).id = id := loaded.key
      refine ⟨fun other j stored => Or.inl ⟨j, ?_, rfl⟩, fun other row found => ?_⟩
      · rwa [store_withStore, edited.jobs] at stored
      · obtain ⟨r', before, _, ⟨kept, _⟩ | ⟨p, member, same, replaced⟩⟩ := edited.record_cases found
        · exact Or.inl ⟨r', before, by rw [kept]⟩
        · cases List.mem_singleton.mp member
          refine Or.inr ⟨_, valid, same, ?_, fun _ => ⟨r, by rw [← same, key]⟩⟩
          rw [replaced]
          rfl

end Engine

end Rota
