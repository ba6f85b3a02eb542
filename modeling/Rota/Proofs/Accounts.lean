import Rota.Proofs.Running
/-! The accounts of the jobs that have been admitted.
Whatever is stored, waits or runs belongs to a job that was admitted, and no two of these have the
same identifier. So a call finds nothing under the identifiers that it issues, and is carried out in
full or not at all. -/
namespace Rota

namespace Store

variable {s s' : Store} {A B : List Origin} {n m : Nat}

/-- The jobs with the origins `A` account for all that is stored. -/
structure Recorded (s : Store) (A : List Origin) (n : Nat) : Prop where
  keyed : s.jobs.Keyed
  jobKey : ∀ id j, s.jobs.get? id = some j → j.id = id
  jobs : ∀ j ∈ s.jobs.values, j.origin ∈ A
  recordKey : ∀ id row, s.pipelines.get? id = some row → row.record.id = id ∧ Id.IsIssued n id
  owned : ∀ id row, s.pipelines.get? id = some row → ∀ jobId ∈ row.jobIds,
    ∃ o ∈ A, o.id = jobId ∧ o.pipelineId = some id
  resultsKeyed : s.results.Keyed
  results : ∀ id r, s.results.get? id = some r → r.jobId = id ∧ ∃ o ∈ A, o.id = id
  transactions : ∀ t ∈ s.transactions.values,
    ∃ o ∈ A, o.id = t.jobId ∧ o.pipelineId = t.pipelineId

def recordGrant (A : List Origin) (n : Nat) : Grant where
  job o := o ∈ A
  pipeline p := Id.IsIssued n p.id ∧ ∀ j ∈ p.jobs, j.pipelineId = some p.id
  result r := ∃ o ∈ A, o.id = r.jobId
  transaction t := ∃ o ∈ A, o.id = t.jobId ∧ o.pipelineId = t.pipelineId
  eraseJob _ := True
  erasePipeline _ := True

private theorem recorded_empty (A : List Origin) (n : Nat) : empty.Recorded A n where
  keyed := Table.keyed_empty
  jobKey := by simp [empty]
  jobs := by simp [empty, Table.values, Table.empty]
  recordKey := by simp [empty]
  owned := by simp [empty]
  resultsKeyed := Table.keyed_empty
  results := by simp [empty]
  transactions := by simp [empty, Table.values, Table.empty]

theorem Recorded.mono (recorded : s.Recorded A n) (more : A ⊆ B) (le : n ≤ m) :
    s.Recorded B m where
  keyed := recorded.keyed
  jobKey := recorded.jobKey
  jobs j inside := more (recorded.jobs j inside)
  recordKey id row found := by
    obtain ⟨key, issued⟩ := recorded.recordKey id row found
    exact ⟨key, issued.mono le⟩
  owned id row found jobId listed := by
    obtain ⟨o, known, owns⟩ := recorded.owned id row found jobId listed
    exact ⟨o, more known, owns⟩
  resultsKeyed := recorded.resultsKeyed
  results id r stored := by
    obtain ⟨key, o, known, same⟩ := recorded.results id r stored
    exact ⟨key, o, more known, same⟩
  transactions t stored := by
    obtain ⟨o, known, same⟩ := recorded.transactions t stored
    exact ⟨o, more known, same⟩

theorem Recorded.indexed (recorded : s.Recorded A n) : s.Indexed :=
  ⟨recorded.keyed, recorded.jobKey, fun id row found => (recorded.recordKey id row found).1⟩

theorem Recorded.numbered (recorded : s.Recorded A n) (issued : ∀ o ∈ A, Id.IsIssued n o.id) :
    s.Numbered n where
  keyed := recorded.keyed
  jobKey := recorded.jobKey
  jobs id j stored := by
    have known := issued _ (recorded.jobs j (Table.mem_values_of_get? stored))
    rwa [show j.origin.id = id from recorded.jobKey id j stored] at known
  pipelines id row found := (recorded.recordKey id row found).2
  results id r stored := by
    obtain ⟨_, o, known, rfl⟩ := recorded.results id r stored
    exact issued o known
  transactions t stored := by
    obtain ⟨o, known, same, _⟩ := recorded.transactions t stored
    exact same ▸ issued o known

theorem Recorded.of_fewer (recorded : s.Recorded A n) (keyed : s'.jobs.Keyed)
    (resultsKeyed : s'.results.Keyed)
    (jobs : ∀ id j, s'.jobs.get? id = some j → s.jobs.get? id = some j)
    (pipelines : ∀ id row, s'.pipelines.get? id = some row → s.pipelines.get? id = some row)
    (results : ∀ id r, s'.results.get? id = some r → s.results.get? id = some r)
    (transactions : ∀ t ∈ s'.transactions.values, t ∈ s.transactions.values) :
    s'.Recorded A n where
  keyed := keyed
  jobKey id j stored := recorded.jobKey id j (jobs id j stored)
  jobs j inside := by
    obtain ⟨id, stored⟩ := keyed.get?_of_mem_values inside
    exact recorded.jobs j (Table.mem_values_of_get? (jobs id j stored))
  recordKey id row found := recorded.recordKey id row (pipelines id row found)
  owned id row found := recorded.owned id row (pipelines id row found)
  resultsKeyed := resultsKeyed
  results id r stored := recorded.results id r (results id r stored)
  transactions t stored := recorded.transactions t (transactions t stored)

theorem Write.recorded (write : Write (recordGrant A n) s s') (recorded : s.Recorded A n) :
    s'.Recorded A n := by
  cases write with
  | job j may =>
    refine { recorded with
      keyed := recorded.keyed.put j.id j
      jobKey := ?_
      jobs := Table.forall_put (P := fun k : Job => k.origin ∈ A) recorded.jobs may }
    intro id k stored
    rcases Table.get?_put_cases stored with ⟨same, rfl⟩ | ⟨_, before⟩
    · exact same.symm
    · exact recorded.jobKey id k before
  | eraseJob id =>
    exact recorded.of_fewer (recorded.keyed.erase id) (recorded.resultsKeyed.erase id)
      (fun _ _ found => (Table.get?_of_erase found).2) (fun _ _ found => found)
      (fun _ _ found => (Table.get?_of_erase found).2) fun _ inside => (Table.mem_eraseIf inside).1
  | pipeline p may jobs =>
    refine { recorded with
      keyed := Keyed.putJobs recorded.keyed
      jobKey := ?_
      jobs := forall_putJobs (P := fun k : Job => k.origin ∈ A) recorded.jobs jobs
      recordKey := ?_
      owned := ?_ }
    · intro id k stored
      rcases putJobs_cases stored with ⟨_, same⟩ | ⟨before, _⟩
      · exact same
      · exact recorded.jobKey id k before
    · intro id row found
      rcases Table.get?_put_cases found with ⟨same, rfl⟩ | ⟨_, before⟩
      · exact ⟨same.symm, same ▸ may.1⟩
      · exact recorded.recordKey id row before
    · intro id row found jobId listed
      rcases Table.get?_put_cases found with ⟨same, rfl⟩ | ⟨_, before⟩
      · obtain ⟨j, inside, rfl⟩ := List.mem_map.mp listed
        exact ⟨j.origin, jobs j inside, rfl, same ▸ may.2 j inside⟩
      · exact recorded.owned id row before jobId listed
  | record p row found =>
    obtain ⟨_, issued⟩ := recorded.recordKey p.id row found
    refine { recorded with recordKey := ?_, owned := ?_ }
    · intro id other here
      rcases Table.get?_put_cases here with ⟨same, rfl⟩ | ⟨_, before⟩
      · exact ⟨same.symm, same ▸ issued⟩
      · exact recorded.recordKey id other before
    · intro id other here jobId listed
      rcases Table.get?_put_cases here with ⟨same, rfl⟩ | ⟨_, before⟩
      · exact same ▸ recorded.owned p.id row found jobId listed
      · exact recorded.owned id other before jobId listed
  | erasePipeline id row =>
    exact recorded.of_fewer (recorded.keyed.eraseAll row.jobIds)
      (recorded.resultsKeyed.eraseAll row.jobIds) (fun _ _ found => (Table.get?_of_eraseAll found).2)
      (fun _ _ found => (Table.get?_of_erase found).2)
      (fun _ _ found => (Table.get?_of_eraseAll found).2) fun _ inside => inside
  | result r may =>
    refine { recorded with
      resultsKeyed := recorded.resultsKeyed.put r.jobId r
      results := ?_ }
    intro id other stored
    rcases Table.get?_put_cases stored with ⟨same, rfl⟩ | ⟨_, before⟩
    · exact ⟨same.symm, same ▸ may⟩
    · exact recorded.results id other before
  | eraseResult id =>
    exact recorded.of_fewer recorded.keyed (recorded.resultsKeyed.erase id)
      (fun _ _ found => found) (fun _ _ found => found)
      (fun _ _ found => (Table.get?_of_erase found).2) fun _ inside => inside
  | transaction t may =>
    refine { recorded with transactions := ?_ }
    exact Table.forall_put
      (P := fun t : Transaction => ∃ o ∈ A, o.id = t.jobId ∧ o.pipelineId = t.pipelineId)
      recorded.transactions may
  | close => exact { recorded with }

end Store

namespace System

variable {s : System} {a : Action} {A : List Origin}

/-! ### Admitted jobs -/

private theorem admits_createPipeline {e : Engine} {r : CreatePipeline} {o : Origin}
    (admitted : o ∈ (Action.createPipeline r).admits e) :
    ∃ p, (e.createPipeline r).2 = .ok p ∧ ∃ j ∈ p.jobs, j.origin = o := by
  simp only [Action.admits] at admitted
  cases answer : (e.createPipeline r).2 with
  | error err => simp [answer, Except.toOption] at admitted
  | ok p =>
    simp only [answer, Except.toOption, Option.toList_some, List.flatMap_singleton,
      List.mem_map] at admitted
    exact ⟨p, rfl, admitted⟩

private theorem admits_createJob {e : Engine} {r : CreateJob} {o : Origin}
    (admitted : o ∈ (Action.createJob r).admits e) :
    ∃ j, (e.createJob r).2 = .ok j ∧ j.origin = o := by
  simp only [Action.admits] at admitted
  cases answer : (e.createJob r).2 with
  | error err => simp [answer, Except.toOption] at admitted
  | ok j =>
    simp only [answer, Except.toOption, Option.toList_some, List.map_cons, List.map_nil,
      List.mem_singleton] at admitted
    exact ⟨j, rfl, admitted.symm⟩

theorem admits_issued {o : Origin} (admitted : o ∈ a.admits s.engine) :
    ∃ k, s.engine.issued ≤ k ∧ k < (s.perform a).engine.issued ∧ o.id = .issued k := by
  cases a with
  | createJob r =>
    obtain ⟨j, answer, rfl⟩ := admits_createJob admitted
    obtain ⟨_, _, asked, _, same⟩ := Engine.createJob_ok answer
    refine ⟨s.engine.issued, Nat.le_refl _, ?_, congrArg Job.id asked⟩
    rw [perform, same]
    exact Nat.lt_succ_self _
  | createPipeline r =>
    obtain ⟨p, answer, j, inside, rfl⟩ := admits_createPipeline admitted
    obtain ⟨_, _, _, isNew, length, _, same⟩ := Engine.createPipeline_ok answer
    obtain ⟨i, here⟩ := List.mem_iff_getElem?.mp inside
    have within := (List.getElem?_eq_some_iff.mp here).1
    refine ⟨s.engine.issued + 1 + i, by omega, ?_, (isNew.placed i j here).1⟩
    rw [perform, same]
    change _ < s.engine.issued + r.jobs.length + 1
    omega
  | _ => cases admitted

private theorem admits_unique (distinct : Id.Distinct (s.perform a).engine.issued) {o o' : Origin}
    (admitted : o ∈ a.admits s.engine) (admitted' : o' ∈ a.admits s.engine) (same : o.id = o'.id) :
    o = o' := by
  cases a with
  | createJob r =>
    obtain ⟨j, answer, rfl⟩ := admits_createJob admitted
    obtain ⟨k, answer', rfl⟩ := admits_createJob admitted'
    rw [answer] at answer'
    cases answer'
    rfl
  | createPipeline r =>
    obtain ⟨p, answer, j, inside, rfl⟩ := admits_createPipeline admitted
    obtain ⟨q, answer', k, inside', rfl⟩ := admits_createPipeline admitted'
    rw [answer] at answer'
    cases answer'
    obtain ⟨_, _, _, isNew, length, _, done⟩ := Engine.createPipeline_ok answer
    rw [perform, done] at distinct
    have ids := Engine.nodup_ids isNew (length ▸ distinct)
    rw [List.inj_on_of_nodup_map ids inside inside' same]
  | _ => cases admitted

/-! ### Accounts -/

structure Accounted (s : System) (A : List Origin) : Prop where
  copies : ∀ j, s.Copy j → j.origin ∈ A
  issued : ∀ o ∈ A, Id.IsIssued s.engine.issued o.id
  unique : ∀ o ∈ A, ∀ o' ∈ A, o.id = o'.id → o = o'
  recorded : s.engine.store.Recorded A s.engine.issued
  unsaved : ∀ r ∈ s.engine.pool.unsaved, ∃ o ∈ A, o.id = r.jobId

theorem Accounted.numbered (accounted : s.Accounted A) :
    s.engine.store.Numbered s.engine.issued :=
  accounted.recorded.numbered accounted.issued

/-- What an action needs is granted to the jobs that are there and those that it admits. -/
theorem Accounted.grants (accounted : s.Accounted A) (a : Action) :
    s.Grants a (Store.recordGrant (A ++ a.admits s.engine) (s.perform a).engine.issued) where
  jobs j copy := List.mem_append_left _ (accounted.copies j copy)
  admits o admitted := List.mem_append_right _ admitted
  pipelines r p asked answer := by
    subst asked
    obtain ⟨_, _, _, isNew, _, _, same⟩ := Engine.createPipeline_ok answer
    constructor
    · rw [isNew.key, perform, same]
      apply Id.isIssued_of_lt
      change s.engine.issued < s.engine.issued + r.jobs.length + 1
      omega
    · intro j inside
      obtain ⟨i, here⟩ := List.mem_iff_getElem?.mp inside
      exact (isNew.placed i j here).2.1
  results r waits := by
    obtain ⟨o, known, same⟩ := accounted.unsaved r waits
    exact ⟨o, List.mem_append_left _ known, same⟩
  transactions x runs t own owner := by
    have known := accounted.copies _ (copy_executing runs List.mem_cons_self)
    exact ⟨x.current.origin, List.mem_append_left _ known, own.symm, owner.symm⟩
  erases _ _ := trivial
  pipelineErased _ _ _ _ := trivial

theorem Accounted.perform (accounted : s.Accounted A)
    (distinct : Id.Distinct (s.perform a).engine.issued) :
    (s.perform a).Accounted (A ++ a.admits s.engine) := by
  have later := issued_perform s a
  have more : A ⊆ A ++ a.admits s.engine := List.subset_append_left _ _
  refine ⟨?_, ?_, ?_, ?_, ?_⟩
  · intro j copy
    rcases copy_perform accounted.numbered distinct copy with ⟨k, before, same⟩ | admitted
    · exact same ▸ more (accounted.copies k before)
    · exact List.mem_append_right _ admitted
  · intro o known
    rcases List.mem_append.mp known with old | new
    · exact (accounted.issued o old).mono later
    · obtain ⟨k, _, below, same⟩ := admits_issued new
      exact same ▸ Id.isIssued_of_lt below
  · -- What was issued before and what the action issues are apart.
    have apart {o o' : Origin} (old : o ∈ A) (new : o' ∈ a.admits s.engine) : o.id ≠ o'.id := by
      intro same
      obtain ⟨k, above, below, number⟩ := admits_issued new
      have known := accounted.issued o old
      rw [same, number] at known
      exact distinct.fresh above below known
    intro o known o' known' same
    rcases List.mem_append.mp known with old | new <;>
      rcases List.mem_append.mp known' with old' | new'
    · exact accounted.unique o old o' old' same
    · exact absurd same (apart old new')
    · exact absurd same.symm (apart old' new)
    · exact admits_unique distinct new new' same
  · -- The accounts grow before the action writes, since it may write what it admits.
    have writes := perform_writes (accounted.grants a) accounted.numbered distinct
    exact writes.keep (fun _ _ write kept => write.recorded kept)
      (accounted.recorded.mono more later)
  · intro r waits
    rcases unsaved_perform waits with old | ⟨_, x, runs, own⟩
    · obtain ⟨o, known, same⟩ := accounted.unsaved r old
      exact ⟨o, more known, same⟩
    · have known := accounted.copies _ (copy_executing runs List.mem_cons_self)
      exact ⟨x.current.origin, more known, own.symm⟩

def admissions : System → List Action → List Origin
  | _, [] => []
  | s, a :: rest => a.admits s.engine ++ admissions (s.perform a) rest

theorem Accounted.run_keeps {allowed : System → Action → Prop} {P : List Origin → System → Prop}
    {actions : List Action} (accounted : s.Accounted A) (holds : P A s)
    (kept : ∀ A t a, t.Accounted A → P A t → allowed t a →
      Id.Distinct (t.perform a).engine.issued → P (A ++ a.admits t.engine) (t.perform a))
    (along : Along allowed s actions) (distinct : Id.Distinct (s.run actions).engine.issued) :
    (s.run actions).Accounted (A ++ s.admissions actions) ∧
      P (A ++ s.admissions actions) (s.run actions) := by
  induction actions generalizing s A with
  | nil => simpa [admissions] using ⟨accounted, holds⟩
  | cons a rest ih =>
    have few := distinct.mono (issued_run (s.perform a) rest)
    have next := kept A s a accounted holds along.1 few
    have all := ih (accounted.perform few) next along.2 distinct
    rwa [List.append_assoc] at all

section

variable {now : Instant} {registry : Registry} {queueCapacity : Nat} {unit : TimeUnit}
  {workers poolCapacity : Nat} {actions : List Action}

theorem new_pool (made : new? now registry queueCapacity unit workers poolCapacity = some s) :
    s.ticks = [] ∧ s.engine.pool.executing = [] ∧ s.engine.pool.unsaved = [] := by
  obtain ⟨e, new, rfl⟩ := Option.map_eq_some_iff.mp made
  obtain ⟨queue, _, rest⟩ := Option.bind_eq_some_iff.mp new
  obtain ⟨pool, pooled, same⟩ := Option.bind_eq_some_iff.mp rest
  cases same
  unfold Pool.new? at pooled
  split at pooled <;> cases pooled
  exact ⟨rfl, rfl, rfl⟩

theorem accounted_new (made : new? now registry queueCapacity unit workers poolCapacity = some s) :
    s.Accounted [] := by
  obtain ⟨store, issued, _, called, flights⟩ := new_eq made
  obtain ⟨ticks, _, unsaved⟩ := new_pool made
  refine ⟨?_, by simp, by simp, store ▸ Store.recorded_empty _ _, by simp [unsaved]⟩
  intro j copy
  cases copy with
  | stored inside => simp [store, Store.empty, Table.values, Table.empty] at inside
  | queued inside => simp [(List.append_eq_nil_iff.mp called).1] at inside
  | due inside => simp [due, ticks] at inside
  | flown f flies => simp [flights] at flies

/-- In every run from an empty store the admitted jobs account for all that is there. -/
theorem accounted_run (made : new? now registry queueCapacity unit workers poolCapacity = some s)
    (distinct : Id.Distinct (s.run actions).engine.issued) :
    (s.run actions).Accounted (s.admissions actions) := by
  have anything : Along (fun _ _ => True) s actions := along_of_forall (fun _ _ _ => trivial) s
  have all := (accounted_new made).run_keeps (P := fun _ _ => True) trivial
    (fun _ _ _ _ _ _ _ => trivial) anything distinct
  exact all.1

theorem perform_call (s : System) (c : Call) :
    s.perform c.action = s.withEngine (s.engine.call c).1 := by
  cases c <;> rfl

/-- In every state that a run from an empty store reaches, a call that admits, changes or deletes is
carried out in full, or refused and without effect. -/
theorem calls_atomic (made : new? now registry queueCapacity unit workers poolCapacity = some s)
    (c : Call) (distinct : Id.Distinct ((s.run actions).engine.call c).1.issued) :
    (s.run actions).engine.IsAtomic c := by
  have later := issued_perform (s.run actions) c.action
  rw [perform_call] at later
  exact Engine.isAtomic (accounted_run made (distinct.mono later)).numbered distinct

/-- A pipeline that is to run now is refused if the queue is closed, and queued if it is open. -/
theorem calls_atomic_example :
    (start.run [.closeQueue]).engine.IsAtomic (.createPipeline exampleRequest) ∧
    ((start.run [.closeQueue]).engine.call (.createPipeline exampleRequest)).2.isOk = false ∧
    (start.run firstJob).engine.IsAtomic (.createPipeline exampleRequest) ∧
    ((start.run firstJob).engine.call (.createPipeline exampleRequest)).2.isOk = true := by
  refine ⟨calls_atomic new_start _ ?_, by decide +kernel, calls_atomic new_start _ ?_,
    by decide +kernel⟩
  all_goals exact Id.distinct_of_le (by decide +kernel)

end

end System

end Rota
