import Rota.Proofs.Calls
import Rota.Proofs.Updates
/-! What each action writes.
An action writes copies of jobs, the jobs that it admits, results that wait to be stored, and the
transactions of jobs that run. It erases what it is asked to delete. -/
namespace Rota

/-- The origins of the jobs that an action admits; a call that is refused admits none. -/
def Action.admits (e : Engine) : Action → List Origin
  | .createJob r => (e.createJob r).2.toOption.toList.map Job.origin
  | .createPipeline r => ((e.createPipeline r).2.toOption.toList.flatMap (·.jobs)).map Job.origin
  | _ => []

def Action.erases (s : Store) : Action → List Id
  | .deleteJob id => ((s.jobs.get? id).toList.filter fun j => !j.belongsToPipeline).map (·.id)
  | .dropJobs => (s.jobs.values.filter fun j => !j.belongsToPipeline).map (·.id)
  | .deletePipeline id => (s.pipelines.get? id).toList.flatMap (·.jobIds)
  | _ => []

namespace Table

variable {α : Type} {t : Table α} {id : Id} {v : α} {P : α → Prop}

theorem forall_put (all : ∀ w ∈ t.values, P w) (new : P v) : ∀ w ∈ (t.put id v).values, P w := by
  intro w member
  obtain ⟨row, inside, rfl⟩ := List.mem_map.mp member
  unfold put at inside
  split at inside
  next =>
    obtain ⟨old, before, rfl⟩ := List.mem_map.mp inside
    split
    next => exact new
    next => exact all old.2 (List.mem_map_of_mem before)
  next =>
    rcases List.mem_append.mp inside with before | last
    · exact all row.2 (List.mem_map_of_mem before)
    · rw [List.mem_singleton.mp last]
      exact new

theorem forall_erase (all : ∀ w ∈ t.values, P w) (id : Id) : ∀ w ∈ (t.erase id).values, P w := by
  intro w member
  obtain ⟨row, inside, rfl⟩ := List.mem_map.mp member
  exact all row.2 (List.mem_map_of_mem (List.mem_of_mem_filter inside))

theorem forall_eraseAll (all : ∀ w ∈ t.values, P w) (ids : List Id) :
    ∀ w ∈ (ids.foldl erase t).values, P w := by
  induction ids generalizing t with
  | nil => exact all
  | cons id rest ih => exact ih (forall_erase all id)

theorem mem_eraseIf {gone : α → Bool} (inside : v ∈ (t.eraseIf gone).values) :
    v ∈ t.values ∧ gone v = false := by
  obtain ⟨row, listed, rfl⟩ := List.mem_map.mp inside
  obtain ⟨before, kept⟩ := List.mem_filter.mp listed
  exact ⟨List.mem_map_of_mem before, by simpa using kept⟩

end Table

namespace Store

theorem forall_putJobs {P : Job → Prop} {t : Table Job} {jobs : List Job}
    (all : ∀ w ∈ t.values, P w) (new : ∀ j ∈ jobs, P j) : ∀ w ∈ (putJobs t jobs).values, P w := by
  unfold putJobs
  induction jobs generalizing t with
  | nil => exact all
  | cons j rest ih =>
    apply ih (Table.forall_put all (new j List.mem_cons_self))
    intro k member
    exact new k (List.mem_cons_of_mem j member)

theorem Write.stored {G : Grant} {s s' : Store} (write : Write G s s')
    (all : ∀ j ∈ s.jobs.values, G.job j.origin) : ∀ j ∈ s'.jobs.values, G.job j.origin := by
  cases write with
  | job j may => exact Table.forall_put (P := fun k : Job => G.job k.origin) all may
  | eraseJob id => exact Table.forall_erase all id
  | pipeline p _ jobs => exact forall_putJobs (P := fun k : Job => G.job k.origin) all jobs
  | erasePipeline id row => exact Table.forall_eraseAll all row.jobIds
  | _ => exact all

end Store

namespace Engine

variable {e e' : Engine} {id : Id} {G : Grant}

open Store (Writes Write)

/-! ### What calls write -/

theorem createJob_writes {r : CreateJob} (numbered : e.store.Numbered e.issued)
    (distinct : Id.Distinct (e.issued + 1)) (may : ∀ o ∈ (Action.createJob r).admits e, G.job o) :
    Writes G e.store (e.createJob r).1.store := by
  cases answer : (e.createJob r).2 with
  | error err =>
    rw [(createJob_error numbered distinct answer).1]
    exact .refl _
  | ok j =>
    obtain ⟨_, _, _, _, same⟩ := createJob_ok answer
    have own : G.job j.origin := may _ (by simp [Action.admits, answer, Except.toOption])
    rw [same]
    exact (Write.job _ j own).writes

theorem createPipeline_writes {r : CreatePipeline} (numbered : e.store.Numbered e.issued)
    (distinct : Id.Distinct (e.issued + r.jobs.length + 1))
    (may : ∀ o ∈ (Action.createPipeline r).admits e, G.job o)
    (mayPipeline : ∀ p, (e.createPipeline r).2 = .ok p → G.pipeline p) :
    Writes G e.store (e.createPipeline r).1.store := by
  cases answer : (e.createPipeline r).2 with
  | error err =>
    rw [(createPipeline_error numbered distinct answer).1]
    exact .refl _
  | ok p =>
    obtain ⟨_, _, _, _, _, _, same⟩ := createPipeline_ok answer
    have own : ∀ j ∈ p.jobs, G.job j.origin := by
      intro j member
      apply may
      simp only [Action.admits, answer, Except.toOption, Option.toList_some, List.flatMap_singleton]
      exact List.mem_map_of_mem member
    rw [same]
    exact (Write.pipeline _ p (mayPipeline p answer) own).writes

theorem updateJob_writes (stored : ∀ j ∈ e.store.jobs.values, G.job j.origin) (id : Id)
    (r : UpdateJob) :
    ∃ store, (e.updateJob id r).1 = e.withStore store ∧ Writes G e.store store := by
  cases done : e.updateJob id r with
  | mk e' answer =>
    cases answer with
    | error err => exact ⟨e.store, updateJob_error done, .refl _⟩
    | ok k =>
      obtain ⟨c, store, read, rfl, _, written, rfl⟩ := updateJob_ok done
      obtain ⟨row, inside, same⟩ := Store.origin_of_getJob read
      have may : G.job (r.applyTo c).origin := by
        rw [Job.origin_applyTo, same]
        exact stored row inside
      exact ⟨store, rfl, Store.updateJob_writes may written⟩

theorem updatePipeline_writes (e : Engine) (id : Id) (r : UpdatePipeline) :
    ∃ store, (e.updatePipeline id r).1 = e.withStore store ∧ Writes G e.store store := by
  cases done : e.updatePipeline id r with
  | mk e' answer =>
    cases answer with
    | error err => exact ⟨e.store, updatePipeline_error done, .refl _⟩
    | ok p =>
      obtain ⟨q, store, _, rfl, _, written, rfl⟩ := updatePipeline_ok done
      exact ⟨store, rfl, Store.updatePipeline_writes written⟩

theorem deleteJob_writes {n : Nat} (numbered : e.store.Numbered n)
    (may : ∀ other ∈ (Action.deleteJob id).erases e.store, G.eraseJob other) :
    ∃ store, (e.deleteJob id).1 = e.withStore store ∧ Writes G e.store store := by
  cases done : e.deleteJob id with
  | mk e' answer =>
    cases answer with
    | error err => exact ⟨e.store, deleteJob_error done, .refl _⟩
    | ok _ =>
      obtain ⟨row, found, alone, rfl⟩ := deleteJob_ok done
      have own : G.eraseJob id := by
        apply may
        simp [Action.erases, found, Job.belongsToPipeline, alone, numbered.jobKey id row found]
      exact ⟨_, rfl, (Write.eraseJob _ id own).writes⟩

theorem deleteAll_writes {s s' : Store} {ids : List Id} {answer : Except StoreError Unit}
    (may : ∀ id ∈ ids, G.eraseJob id) (done : deleteAll s ids = (s', answer)) : Writes G s s' := by
  induction ids generalizing s with
  | nil =>
    cases done
    exact .refl _
  | cons id rest ih =>
    rw [deleteAll] at done
    split at done
    next deleted =>
      obtain ⟨_, rfl⟩ := Store.deleteJob_ok deleted
      have first := (Write.eraseJob s id (may id List.mem_cons_self)).writes
      exact first.trans (ih (fun other member => may other (List.mem_cons_of_mem id member)) done)
    next =>
      cases done
      exact .refl _

theorem dropJobs_writes (may : ∀ id ∈ Action.dropJobs.erases e.store, G.eraseJob id) :
    ∃ store, e.dropJobs.1 = e.withStore store ∧ Writes G e.store store := by
  unfold dropJobs
  split
  next => exact ⟨e.store, rfl, .refl _⟩
  next all read =>
    have own : ∀ id ∈ (all.filter fun j => !j.belongsToPipeline).map (·.id), G.eraseJob id := by
      intro id member
      obtain ⟨j, inside, rfl⟩ := List.mem_map.mp member
      obtain ⟨listed, alone⟩ := List.mem_filter.mp inside
      obtain ⟨row, present, rereads⟩ := Store.mem_jobs read listed
      have same := Job.origin_reread rereads
      apply may
      rw [Job.belongsToPipeline, Job.pipelineId_of_origin same] at alone
      exact List.mem_map.mpr
        ⟨row, List.mem_filter.mpr ⟨present, alone⟩, (Job.id_of_origin same).symm⟩
    dsimp only
    split
    all_goals
      next deleted => exact ⟨_, rfl, deleteAll_writes own deleted⟩

theorem deletePipeline_writes
    (may : ∀ row, e.store.pipelines.get? id = some row → G.erasePipeline row) :
    ∃ store, (e.deletePipeline id).1 = e.withStore store ∧ Writes G e.store store := by
  unfold deletePipeline
  split
  next deleted =>
    obtain ⟨row, found, rfl⟩ := Store.deletePipeline_ok deleted
    exact ⟨_, rfl, (Write.erasePipeline _ id row found (may row found)).writes⟩
  next => exact ⟨e.store, rfl, .refl _⟩

theorem deleteResult_writes (e : Engine) (id : Id) :
    ∃ store, (e.deleteResult id).1 = e.withStore store ∧ Writes G e.store store := by
  unfold deleteResult
  split
  next deleted =>
    obtain rfl := Store.deleteResult_ok deleted
    exact ⟨_, rfl, (Write.eraseResult _ id).writes⟩
  next => exact ⟨e.store, rfl, .refl _⟩

end Engine

namespace System

variable {s s' : System} {a : Action} {j : Job} {G : Grant}

open Store (Writes Write)

inductive Copy (s : System) (j : Job) : Prop
  | stored (inside : j ∈ s.engine.store.jobs.values)
  | queued (inside : j ∈ s.engine.queue.jobs)
  | due (inside : j ∈ s.due)
  | flown (f : Flight) (flies : f ∈ s.flights) (inside : j ∈ f.jobs)

structure Grants (s : System) (a : Action) (G : Grant) : Prop where
  jobs : ∀ j, s.Copy j → G.job j.origin
  admits : ∀ o ∈ a.admits s.engine, G.job o
  pipelines : ∀ r p, a = .createPipeline r → (s.engine.createPipeline r).2 = .ok p → G.pipeline p
  results : ∀ r ∈ s.engine.pool.unsaved, G.result r
  transactions : ∀ x ∈ s.engine.pool.executing, ∀ t : Transaction, t.jobId = x.current.id →
    t.pipelineId = x.current.pipelineId → G.transaction t
  erases : ∀ id ∈ a.erases s.engine.store, G.eraseJob id
  pipelineErased : ∀ id row, a = .deletePipeline id →
    s.engine.store.pipelines.get? id = some row → G.erasePipeline row

theorem flies_held {place : Nat} {h : Held} (here : s.held[place]? = some h) :
    h.flight ∈ s.flights :=
  List.mem_append_right _ (List.mem_map_of_mem (List.mem_of_getElem? here))

theorem flies_executing {x : Execution} (runs : x ∈ s.engine.pool.executing) :
    x.flight ∈ s.flights :=
  List.mem_append_left _ (List.mem_append_right _ (List.mem_map_of_mem runs))

theorem copy_held {place : Nat} {h : Held} (here : s.held[place]? = some h)
    (inside : j ∈ h.flight.jobs) : s.Copy j :=
  .flown h.flight (flies_held here) inside

theorem copy_executing {x : Execution} (runs : x ∈ s.engine.pool.executing)
    (inside : j ∈ x.current :: x.waiting) : s.Copy j :=
  .flown x.flight (flies_executing runs) inside

theorem copy_next {place : Nat} {isScan : Bool} {rest : List Job} {ticket : Option Nat}
    (here : s.ticks[place]? = some ⟨isScan, j :: rest, ticket⟩) : s.Copy j :=
  .due (List.mem_flatMap.mpr ⟨_, List.mem_of_getElem? here, List.mem_cons_self⟩)

theorem grants_ofJobs {job : Origin → Prop} (copies : ∀ j, s.Copy j → job j.origin)
    (admits : ∀ o ∈ a.admits s.engine, job o) : s.Grants a (.ofJobs job) where
  jobs := copies
  admits := admits
  pipelines _ _ _ _ := trivial
  results _ _ := trivial
  transactions _ _ _ _ _ := trivial
  erases _ _ := trivial
  pipelineErased _ _ _ _ := trivial

/-! ### Actions that write nothing -/

theorem store_scan (s : System) : s.scan.engine.store = s.engine.store := by
  unfold scan
  split <;> rfl

theorem store_look (s : System) : s.look.engine.store = s.engine.store := by
  unfold look
  split
  next => rfl
  next => split <;> rfl

theorem store_abandon (s : System) (place : Nat) :
    (s.abandon place).engine.store = s.engine.store := by
  unfold abandon
  split
  next => split <;> rfl
  next => rfl

theorem store_take (s : System) : s.take.engine.store = s.engine.store := by
  unfold take
  split
  next => split <;> rfl
  next => rfl

/-! ### What an action writes -/

theorem submitNext_writes (may : ∀ j, s.Copy j → G.job j.origin) (place : Nat) :
    Writes G s.engine.store (s.submitNext place).engine.store := by
  unfold submitNext
  split
  next job rest ticket here =>
    split
    next => exact .refl _
    next =>
      have stored : ∀ j ∈ s.engine.store.jobs.values, G.job j.origin := by
        intro j inside
        exact may j (.stored inside)
      exact Engine.submit_writes stored (may job (copy_next here))
        (Prod.eta (s.engine.submit job)).symm
  next => exact .refl _

theorem proceed_writes (may : ∀ j, s.Copy j → G.job j.origin) (place : Nat) :
    Writes G s.engine.store (s.proceed place).engine.store := by
  unfold proceed
  split
  next => exact .refl _
  next h here =>
    have held : ∀ j ∈ h.work.jobs, G.job j.origin := by
      intro j inside
      exact may j (copy_held here inside)
    split
    all_goals
      next begun =>
        have writes := Engine.beginWork_writes held begun
        exact writes
  next i here =>
    have held : ∀ j ∈ i.jobs, G.job j.origin := by
      intro j inside
      exact may j (copy_held here inside)
    split
    next begun =>
      have writes := Engine.goOn_writes held begun
      exact writes
    next ended begun =>
      rw [Engine.store_endExecution]
      exact Engine.goOn_writes held begun

theorem save_writes (may : ∀ r ∈ s.engine.pool.unsaved, G.result r) (place : Nat) :
    Writes G s.engine.store (s.save place).engine.store := by
  simp only [save]
  split
  next => exact .refl _
  next result here =>
    split
    next created =>
      obtain rfl := Store.createResult_ok created
      exact (Write.result _ result (may result (List.mem_of_getElem? here))).writes
    next => exact .refl _

theorem perform_writes (grants : s.Grants a G)
    (numbered : s.engine.store.Numbered s.engine.issued)
    (distinct : Id.Distinct (s.perform a).engine.issued) :
    Writes G s.engine.store (s.perform a).engine.store := by
  have stored : ∀ j ∈ s.engine.store.jobs.values, G.job j.origin := by
    intro j inside
    exact grants.jobs j (.stored inside)
  have same (store : (s.perform a).engine.store = s.engine.store) :
      Writes G s.engine.store (s.perform a).engine.store := by
    rw [store]
    exact .refl _
  cases a with
  | createJob r =>
    have few : Id.Distinct (s.engine.createJob r).1.issued := distinct
    rw [issued_createJob] at few
    exact Engine.createJob_writes numbered few grants.admits
  | createPipeline r =>
    have few : Id.Distinct (s.engine.createPipeline r).1.issued := distinct
    rw [issued_createPipeline] at few
    exact Engine.createPipeline_writes numbered few grants.admits
      fun p answer => grants.pipelines r p rfl answer
  | updateJob id r =>
    obtain ⟨store, same, writes⟩ := Engine.updateJob_writes stored id r
    rwa [perform, same]
  | updatePipeline id r =>
    obtain ⟨store, same, writes⟩ := Engine.updatePipeline_writes (G := G) s.engine id r
    rwa [perform, same]
  | deleteJob id =>
    obtain ⟨store, same, writes⟩ := Engine.deleteJob_writes numbered grants.erases
    rwa [perform, same]
  | dropJobs =>
    obtain ⟨store, same, writes⟩ := Engine.dropJobs_writes grants.erases
    rwa [perform, same]
  | deletePipeline id =>
    obtain ⟨store, same, writes⟩ :=
      Engine.deletePipeline_writes fun row => grants.pipelineErased id row rfl
    rwa [perform, same]
  | deleteResult id =>
    obtain ⟨store, same, writes⟩ := Engine.deleteResult_writes (G := G) s.engine id
    rwa [perform, same]
  | scan => exact same (store_scan s)
  | look => exact same (store_look s)
  | submit place => exact submitNext_writes grants.jobs place
  | abandon place => exact same (store_abandon s place)
  | take => exact same (store_take s)
  | proceed place => exact proceed_writes grants.jobs place
  | finish place result =>
    simp only [perform, finish]
    split
    next => exact .refl _
    next x here =>
      have runs := List.mem_of_getElem? here
      have may : G.job x.current.origin :=
        grants.jobs _ (copy_executing runs List.mem_cons_self)
      split
      next =>
        split
        next concluded =>
          have writes := Engine.concludeJob_writes may (grants.transactions x runs) concluded
          exact writes
        next concluded =>
          rw [Engine.store_endExecution]
          have writes := Engine.concludeJob_writes may (grants.transactions x runs) concluded
          exact writes
      next => exact .refl _
  | save place => exact save_writes grants.results place
  | closeStore => exact (Write.close _).writes
  | _ => exact .refl _

end System

end Rota
