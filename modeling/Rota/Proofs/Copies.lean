import Rota.Proofs.Grants
/-! Where the copies of jobs come from.
A job is copied from its record into ticks and works, and copies are written over records. No step
but an admission makes a job that no copy had been there of. -/
namespace Rota

def Action.isManagement : Action → Bool
  | .updateJob _ _ | .deleteJob _ | .dropJobs | .updatePipeline _ _ | .deletePipeline _
  | .deleteResult _ | .closeStore => true
  | _ => false

def Action.isWork : Action → Bool
  | .submit _ | .abandon _ | .take | .proceed _ | .finish _ _ | .save _ | .start | .stop
  | .cancel => true
  | _ => false

private theorem JobQueue.mem_pop {q q' : JobQueue} {first : Option Job} {j : Job}
    (popped : q.pop = (first, q')) (inside : j ∈ q'.jobs) : j ∈ q.jobs := by
  unfold pop at popped
  split at popped
  next =>
    cases popped
    exact inside
  next =>
    split at popped
    next =>
      cases popped
      exact inside
    next queued =>
      cases popped
      rw [queued]
      exact List.mem_cons_of_mem _ inside

namespace Engine

variable {e e' : Engine}

private theorem startJob_withStore (e : Engine) (executor : Executor) (isSaved : Bool)
    (pipeline : Option Pipeline) (jobs : List Job) (previous : Option Json)
    (results : List JobResult) : ∃ store,
      (e.startJob executor isSaved pipeline jobs previous results).1 = e.withStore store := by
  unfold startJob
  split
  next => exact ⟨e.store, rfl⟩
  next =>
    dsimp only
    split <;> exact ⟨_, rfl⟩

theorem beginWork_withStore (e : Engine) (executor : Executor) (h : Handover) :
    ∃ store, (e.beginWork executor h).1 = e.withStore store := by
  unfold beginWork
  split
  next => exact startJob_withStore e executor h.isSaved none _ none []
  next jobs _ =>
    split
    next => exact ⟨e.store, rfl⟩
    next p _ =>
      dsimp only
      split
      next => exact ⟨e.store, rfl⟩
      next marked _ =>
        exact startJob_withStore (e.withStore marked) executor h.isSaved
          (some (p.markStarted e.now)) jobs none []

theorem goOn_withStore (e : Engine) (i : Interlude) :
    ∃ store, (e.goOn i).1 = e.withStore store := by
  have starts :=
    startJob_withStore e i.executor i.isSaved i.pipeline i.jobs i.previous i.results
  unfold goOn
  split
  all_goals
    next begun =>
      rw [begun] at starts
      exact starts

/-- The jobs behind the first of a chain are read from the store. -/
theorem Resolved.behind {job k : Job} {c : Chain} (resolved : Resolved e job e' (.run c))
    (inside : k ∈ c.toList.tail) : ∃ id, e.store.getJob id = .ok k := by
  cases resolved.runsThrough with
  | alone => cases inside
  | whole id p chain _ owner read runs first idle loaded covers linked =>
    obtain ⟨rest, rfl⟩ := loadChain_cons loaded
    rw [Chain.toList_ofList linked] at inside
    exact loadChain_read loaded k inside

end Engine

namespace System

variable {s : System} {a : Action} {j : Job}

/-! ### Queue and ticks -/

private theorem queued_createJob {r : CreateJob}
    (inside : j ∈ (s.engine.createJob r).1.queue.jobs) :
    j ∈ s.engine.queue.jobs ∨ j.origin ∈ (Action.createJob r).admits s.engine := by
  have done := Engine.createJob_created s.engine r
  cases answer : (s.engine.createJob r).2
  all_goals
    rw [answer] at done
    generalize (s.engine.createJob r).1 = e' at done inside
    cases done
  next => exact Or.inl inside
  next => exact Or.inl inside
  next k runAt queue asked queued =>
    rw [queued] at inside
    rcases List.mem_append.mp inside with old | new
    · exact Or.inl old
    · split at new
      next =>
        rw [List.mem_singleton.mp new]
        exact Or.inr (by simp [Action.admits, answer, Except.toOption])
      next => cases new

private theorem queued_createPipeline {r : CreatePipeline}
    (inside : j ∈ (s.engine.createPipeline r).1.queue.jobs) :
    j ∈ s.engine.queue.jobs ∨ j.origin ∈ (Action.createPipeline r).admits s.engine := by
  have done := Engine.createPipeline_created s.engine r
  cases answer : (s.engine.createPipeline r).2
  all_goals
    rw [answer] at done
    generalize (s.engine.createPipeline r).1 = e' at done inside
    cases done
  next => exact Or.inl inside
  next => exact Or.inl inside
  next p runAt queue asked isNew length queued =>
    rw [queued] at inside
    rcases List.mem_append.mp inside with old | new
    · exact Or.inl old
    · split at new
      next =>
        have own : j ∈ p.jobs := List.mem_of_head? (Option.mem_toList.mp new)
        refine Or.inr ?_
        simp only [Action.admits, answer, Except.toOption, Option.toList_some,
          List.flatMap_singleton]
        exact List.mem_map_of_mem own
      next => cases new

theorem queue_proceed (s : System) (place : Nat) :
    (s.proceed place).engine.queue = s.engine.queue := by
  unfold proceed
  split
  next => rfl
  next h _ =>
    obtain ⟨store, same⟩ := s.engine.beginWork_withStore .worker h
    dsimp only
    split
    all_goals
      next begun =>
        rw [begun] at same
        cases same
        rfl
  next i _ =>
    obtain ⟨store, same⟩ := s.engine.goOn_withStore i
    dsimp only
    split
    all_goals
      next begun =>
        rw [begun] at same
        cases same
        simp [Engine.addExecution]

theorem queue_finish (s : System) (place : Nat) (result : JobResult) :
    (s.finish place result).engine.queue = s.engine.queue := by
  unfold finish
  split
  next => rfl
  next =>
    split
    next =>
      dsimp only
      split
      all_goals
        next concluded =>
          obtain ⟨_, _, _, _, _, _, _, _, rfl, _⟩ := Engine.concludeJob_spec concluded
          simp
    next => rfl

theorem queue_submitNext (s : System) (place : Nat) :
    (s.submitNext place).engine.queue = s.engine.queue := by
  unfold submitNext
  split
  next job _ _ _ =>
    split
    next => rfl
    next =>
      dsimp only
      cases done : s.engine.submit job with
      | mk e submission => cases Engine.submit_submitted done <;> rfl
  next => rfl

theorem perform_management (manages : a.isManagement = true) :
    ∃ store, s.perform a = s.withEngine (s.engine.withStore store) := by
  cases a with
  | updateJob id r =>
    simp only [perform, Engine.updateJob]
    split <;> exact ⟨_, rfl⟩
  | updatePipeline id r =>
    simp only [perform, Engine.updatePipeline]
    split <;> exact ⟨_, rfl⟩
  | deleteJob id =>
    simp only [perform, Engine.deleteJob]
    split <;> exact ⟨_, rfl⟩
  | dropJobs =>
    simp only [perform, Engine.dropJobs]
    split
    next => exact ⟨_, rfl⟩
    next => split <;> exact ⟨_, rfl⟩
  | deletePipeline id =>
    simp only [perform, Engine.deletePipeline]
    split <;> exact ⟨_, rfl⟩
  | deleteResult id =>
    simp only [perform, Engine.deleteResult]
    split <;> exact ⟨_, rfl⟩
  | closeStore => exact ⟨_, rfl⟩
  | _ => cases manages

/-- A job gets into the queue when it is admitted. -/
theorem queued_perform (inside : j ∈ (s.perform a).engine.queue.jobs) :
    j ∈ s.engine.queue.jobs ∨ j.origin ∈ a.admits s.engine := by
  have kept {queue : JobQueue} (same : queue = s.engine.queue) (inside : j ∈ queue.jobs) :
      j ∈ s.engine.queue.jobs ∨ j.origin ∈ a.admits s.engine := Or.inl (same ▸ inside)
  by_cases manages : a.isManagement = true
  · obtain ⟨store, same⟩ := perform_management (s := s) manages
    rw [same] at inside
    exact Or.inl inside
  · cases a with
    | createJob r => exact queued_createJob inside
    | createPipeline r => exact queued_createPipeline inside
    | scan =>
      refine kept ?_ inside
      simp only [perform, scan]
      split <;> rfl
    | look =>
      simp only [perform, look] at inside
      split at inside
      next => exact Or.inl inside
      next popped =>
        split at inside
        all_goals exact Or.inl (JobQueue.mem_pop popped inside)
    | submit place => exact kept (queue_submitNext s place) inside
    | abandon place =>
      refine kept ?_ inside
      simp only [perform, abandon]
      split
      next => split <;> rfl
      next => rfl
    | take =>
      refine kept ?_ inside
      simp only [perform, take]
      split
      next => split <;> rfl
      next => rfl
    | proceed place => exact kept (queue_proceed s place) inside
    | finish place result => exact kept (queue_finish s place result) inside
    | save place =>
      refine kept ?_ inside
      simp only [perform, save]
      split
      next => rfl
      next => split <;> rfl
    | _ => first | exact absurd rfl manages | exact Or.inl inside

/-- A tick gets its jobs from the store. -/
theorem read_perform (inside : j ∈ (s.perform a).due) :
    j ∈ s.due ∨ ∃ row ∈ s.engine.store.jobs.values, j.origin = row.origin := by
  have same (ticks : (s.perform a).ticks = s.ticks) :
      j ∈ s.due ∨ ∃ row ∈ s.engine.store.jobs.values, j.origin = row.origin := by
    unfold due at inside ⊢
    exact Or.inl (ticks ▸ inside)
  obtain ⟨t, here, own⟩ := List.mem_flatMap.mp inside
  have before {t' : Tick} (old : t' ∈ s.ticks) (listed : j ∈ t'.due) :
      j ∈ s.due ∨ ∃ row ∈ s.engine.store.jobs.values, j.origin = row.origin :=
    Or.inl (List.mem_flatMap.mpr ⟨t', old, listed⟩)
  cases a with
  | scan =>
    simp only [perform, scan] at here
    split at here
    next due read =>
      rcases List.mem_append.mp here with old | new
      · exact before old own
      · rw [List.mem_singleton.mp new] at own
        obtain ⟨_, row, stored, rereads⟩ := Store.mem_due read own
        exact Or.inr ⟨row, stored, Job.origin_reread rereads⟩
    next => exact before here own
  | look =>
    simp only [perform, look] at here
    split at here
    next => exact before here own
    next =>
      split at here
      next job read =>
        rcases List.mem_append.mp here with old | new
        · exact before old own
        · rw [List.mem_singleton.mp new] at own
          cases List.mem_singleton.mp own
          exact Or.inr (Store.origin_of_getJob read)
      next => exact before here own
  | submit place =>
    simp only [perform, submitNext] at here
    split at here
    next was =>
      split at here
      next => exact before here own
      next =>
        obtain ⟨t', old, fewer⟩ := due_afterSubmission was here
        exact before old (fewer j own)
    next => exact before here own
  | abandon place =>
    simp only [perform, abandon] at here
    split at here
    next =>
      split at here
      next => exact before (List.mem_of_mem_eraseIdx here) own
      next => exact before here own
    next => exact before here own
  | take => exact same (ticks_take s)
  | proceed place => exact same (ticks_proceed s place)
  | finish place result => exact same (ticks_finish s place result)
  | save place => exact same (ticks_save s place)
  | _ => exact same rfl

/-! ### Flights -/

private theorem mem_flights {f : Flight} (flies : f ∈ s.flights) :
    f ∈ s.engine.pool.flights ∨ ∃ h ∈ s.held, h.flight = f := by
  rcases List.mem_append.mp flies with inPool | inHand
  · exact Or.inl inPool
  · exact Or.inr (List.mem_map.mp inHand)

/-- Pool and workers are as before, unless the action is one of them. -/
theorem pool_perform (quiet : a.isWork = false) :
    (s.perform a).engine.pool = s.engine.pool ∧ (s.perform a).held = s.held := by
  by_cases manages : a.isManagement = true
  · obtain ⟨store, same⟩ := perform_management (s := s) manages
    rw [same]
    exact ⟨rfl, rfl⟩
  · cases a with
    | createJob r =>
      have done := Engine.createJob_created s.engine r
      refine ⟨?_, rfl⟩
      change (s.engine.createJob r).1.pool = _
      generalize (s.engine.createJob r).2 = answer at done
      generalize (s.engine.createJob r).1 = e' at done ⊢
      cases done <;> rfl
    | createPipeline r =>
      have done := Engine.createPipeline_created s.engine r
      refine ⟨?_, rfl⟩
      change (s.engine.createPipeline r).1.pool = _
      generalize (s.engine.createPipeline r).2 = answer at done
      generalize (s.engine.createPipeline r).1 = e' at done ⊢
      cases done <;> rfl
    | scan =>
      simp only [perform, scan]
      split <;> exact ⟨rfl, rfl⟩
    | look =>
      simp only [perform, look]
      split
      next => exact ⟨rfl, rfl⟩
      next => split <;> exact ⟨rfl, rfl⟩
    | advance millis => exact ⟨rfl, rfl⟩
    | closeQueue => exact ⟨rfl, rfl⟩
    | _ => first | exact absurd rfl manages | cases quiet

/-- A job that is on its way is a copy of one that was there. -/
def Follows (s : System) (j : Job) : Prop := ∃ k, s.Copy k ∧ j.origin = k.origin

private theorem follows_of_copy (copy : s.Copy j) : s.Follows j := ⟨j, copy, rfl⟩

private theorem follows_of_read {id : Id} (read : s.engine.store.getJob id = .ok j) :
    s.Follows j := by
  obtain ⟨row, inside, same⟩ := Store.origin_of_getJob read
  exact ⟨row, .stored inside, same⟩

private theorem follows_sent {c : Chain} {w : Work} {job : Job} {e' : Engine} {t : Instant}
    (resolved : Engine.Resolved s.engine job e' (.run c)) (copy : s.Copy job)
    (made : Work.ofChain (c.withHead (job.markScheduled t)) = .ok w) (inside : j ∈ w.jobs) :
    s.Follows j := by
  rw [(Work.ofChain_ok made).1, Chain.toList_withHead] at inside
  rcases List.mem_cons.mp inside with rfl | behind
  · exact ⟨job, copy, rfl⟩
  · obtain ⟨id, read⟩ := resolved.behind behind
    exact follows_of_read read

/-- A worker that starts a job goes on with the jobs that it held. -/
theorem flown_started {f : Flight} {e : Engine} {x : Execution} {place : Nat} {h : Held}
    {job : Job} {store : Store} {t : Instant} (here : s.held[place]? = some h)
    (same : e = s.engine.withStore store) (held : h.flight.jobs = job :: x.waiting)
    (current : x.current = job.markStarted t)
    (flies : f ∈ System.flights ⟨e.addExecution x, s.ticks, s.held.eraseIdx place⟩)
    (inside : j ∈ f.jobs) : s.Follows j := by
  subst same
  rcases mem_flights flies with inPool | ⟨k, later, rfl⟩
  · rcases List.mem_cons.mp ((Pool.flights_addExecution _ x).mem_iff.mp inPool) with rfl | old
    · rcases List.mem_cons.mp inside with rfl | waits
      · rw [current]
        exact ⟨job, copy_held here (held ▸ List.mem_cons_self), Job.origin_markStarted job t⟩
      · exact follows_of_copy (copy_held here (held ▸ List.mem_cons_of_mem job waits))
    · exact follows_of_copy (.flown f (List.mem_append_left _ old) inside)
  · have old := List.mem_map_of_mem (f := Held.flight) (List.mem_of_mem_eraseIdx later)
    exact follows_of_copy (.flown _ (List.mem_append_right _ old) inside)

private theorem flown_dropped {f : Flight} {e : Engine} {place : Nat}
    (pool : e.pool.flights = s.engine.pool.flights)
    (flies : f ∈ System.flights ⟨e, s.ticks, s.held.eraseIdx place⟩) : f ∈ s.flights := by
  rcases mem_flights flies with inPool | ⟨k, later, rfl⟩
  · exact List.mem_append_left _ (pool ▸ inPool)
  · exact List.mem_append_right _ (List.mem_map_of_mem (List.mem_of_mem_eraseIdx later))

private theorem flown_proceed {f : Flight} {place : Nat} (flies : f ∈ (s.proceed place).flights)
    (inside : j ∈ f.jobs) : s.Follows j := by
  unfold proceed at flies
  split at flies
  next => exact follows_of_copy (.flown f flies inside)
  next h here =>
    obtain ⟨store, same⟩ := s.engine.beginWork_withStore .worker h
    dsimp only at flies
    split at flies
    next begun =>
      obtain ⟨job, store', held, current, _, _, kept, _⟩ := Engine.beginWork_some begun
      exact flown_started here kept held current flies inside
    next begun =>
      rw [begun] at same
      have pool := congrArg (fun e : Engine => e.pool.flights) same
      exact follows_of_copy (.flown f (flown_dropped pool flies) inside)
  next i here =>
    obtain ⟨store, same⟩ := s.engine.goOn_withStore i
    dsimp only at flies
    split at flies
    next begun =>
      obtain ⟨job, store', held, current, _, _, _, kept⟩ := Engine.goOn_inl begun
      exact flown_started here kept held current flies inside
    next begun =>
      rw [begun] at same
      have pool := congrArg (fun e : Engine => e.pool.flights) same
      have dropped := flown_dropped ((congrArg Pool.flights (by simp)).trans pool) flies
      exact follows_of_copy (.flown f dropped inside)

private theorem flown_finish {f : Flight} {place : Nat} {result : JobResult}
    (flies : f ∈ (s.finish place result).flights) (inside : j ∈ f.jobs) : s.Follows j := by
  unfold finish at flies
  split at flies
  next => exact follows_of_copy (.flown f flies inside)
  next x here =>
    have others {g : Flight} (old : g ∈ { s.engine.pool with
        executing := s.engine.pool.executing.eraseIdx place }.flights) : g ∈ s.flights :=
      List.mem_append_left _ ((Pool.flights_eraseIdx here).mem_iff.mpr (List.mem_cons_of_mem _ old))
    split at flies
    next =>
      dsimp only at flies
      split at flies
      next i concluded =>
        obtain ⟨_, _, _, _, _, _, _, _, rfl, _, _, _, _, goes | stops⟩ :=
          Engine.concludeJob_spec concluded
        · obtain ⟨p, i', _, same, _, _, _, _, jobs, _⟩ := goes
          cases same
          rcases mem_flights flies with inPool | ⟨h, held, rfl⟩
          · exact follows_of_copy (.flown f (others inPool) inside)
          · rcases List.mem_append.mp held with old | new
            · have old := List.mem_map_of_mem (f := Held.flight) old
              exact follows_of_copy (.flown _ (List.mem_append_right _ old) inside)
            · rw [List.mem_singleton.mp new] at inside
              have waits : j ∈ x.waiting := jobs ▸ inside
              exact follows_of_copy
                (copy_executing (List.mem_of_getElem? here) (List.mem_cons_of_mem _ waits))
        · obtain ⟨_, same, _⟩ := stops
          cases same
      next ended concluded =>
        obtain ⟨_, _, _, _, _, _, _, _, rfl, _⟩ := Engine.concludeJob_spec concluded
        rcases mem_flights flies with inPool | ⟨h, held, rfl⟩
        · rw [Engine.pool_endExecution] at inPool
          exact follows_of_copy (.flown f (others inPool) inside)
        · have old := List.mem_map_of_mem (f := Held.flight) held
          exact follows_of_copy (.flown _ (List.mem_append_right _ old) inside)
    next => exact follows_of_copy (.flown f flies inside)

private theorem flown_submit {f : Flight} {place : Nat} (flies : f ∈ (s.submitNext place).flights)
    (inside : j ∈ f.jobs) : s.Follows j := by
  have before {g : Flight} (old : g ∈ s.flights) (listed : j ∈ g.jobs) : s.Follows j :=
    follows_of_copy (.flown g old listed)
  unfold submitNext at flies
  split at flies
  next job rest ticket here =>
    split at flies
    next => exact before flies inside
    next =>
      cases done : s.engine.submit job with
      | mk e submission =>
        rw [done] at flies
        cases Engine.submit_submitted done with
        | sent c w store pool answer _ resolved made _ taken accepted =>
          rcases mem_flights flies with inPool | ⟨h, held, rfl⟩
          · rcases List.mem_cons.mp
              ((Pool.flights_send taken accepted).mem_iff.mp inPool) with rfl | old
            · exact follows_sent resolved (copy_next here) made inside
            · exact before (List.mem_append_left _ old) inside
          · exact before (List.mem_append_right _ (List.mem_map_of_mem held)) inside
        | _ => exact before flies inside
  next => exact before flies inside

private theorem flown_take {f : Flight} (flies : f ∈ s.take.flights) (inside : j ∈ f.jobs) :
    s.Follows j := by
  have before {g : Flight} (old : g ∈ s.flights) (listed : j ∈ g.jobs) : s.Follows j :=
    follows_of_copy (.flown g old listed)
  unfold take at flies
  split at flies
  next =>
    split at flies
    next h pool taken =>
      have moved := Pool.flights_take taken
      rcases mem_flights flies with inPool | ⟨k, held, rfl⟩
      · have old := moved.mem_iff.mpr (List.mem_cons_of_mem _ inPool)
        exact before (List.mem_append_left _ old) inside
      · rcases List.mem_append.mp held with old | new
        · exact before (List.mem_append_right _ (List.mem_map_of_mem old)) inside
        · rw [List.mem_singleton.mp new] at inside
          have old := moved.mem_iff.mpr (List.mem_cons_self)
          exact before (List.mem_append_left _ old) inside
    next => exact before flies inside
  next => exact before flies inside

private theorem flown_perform {f : Flight} (flies : f ∈ (s.perform a).flights)
    (inside : j ∈ f.jobs) :
    s.Follows j := by
  have before {g : Flight} (old : g ∈ s.flights) (listed : j ∈ g.jobs) : s.Follows j :=
    follows_of_copy (.flown g old listed)
  have same {s' : System} (pool : s'.engine.pool.flights = s.engine.pool.flights)
      (held : s'.held = s.held) (flies : f ∈ s'.flights) : s.Follows j := by
    rw [flights, pool, held] at flies
    exact before flies inside
  -- Only the pool and the workers have works; other actions leave them alone.
  by_cases works : a.isWork = true
  · cases a with
    | submit place => exact flown_submit flies inside
    | abandon place =>
      simp only [perform, abandon] at flies
      split at flies
      next ticket here =>
        split at flies
        next =>
          rcases mem_flights flies with inPool | ⟨h, held, rfl⟩
          · have old := mem_of_fewer (Pool.flights_abandon s.engine.pool ticket) inPool
            exact before (List.mem_append_left _ old) inside
          · exact before (List.mem_append_right _ (List.mem_map_of_mem held)) inside
        next => exact before flies inside
      next => exact before flies inside
    | take => exact flown_take flies inside
    | proceed place => exact flown_proceed flies inside
    | finish place result => exact flown_finish flies inside
    | save place =>
      refine same ?_ ?_ flies
      all_goals
        simp only [perform, save]
        split
        next => rfl
        next => split <;> rfl
    | start =>
      have pool : (s.perform .start).engine.pool.flights = s.engine.pool.flights := by
        simp only [perform, withEngine, Engine.start, Pool.start]
        split <;> rfl
      exact same pool rfl flies
    | stop => exact same rfl rfl flies
    | cancel => exact same rfl rfl flies
    | _ => cases works
  · obtain ⟨pool, held⟩ := pool_perform (s := s) (by simpa using works)
    exact same (congrArg Pool.flights pool) held flies

/-- An action copies what is there, or admits it. -/
theorem copy_perform (numbered : s.engine.store.Numbered s.engine.issued)
    (distinct : Id.Distinct (s.perform a).engine.issued) (copy : (s.perform a).Copy j) :
    s.Follows j ∨ j.origin ∈ a.admits s.engine := by
  cases copy with
  | stored inside =>
    -- Nothing is written but what is known, whatever the action is.
    let known (o : Origin) : Prop := (∃ k, s.Copy k ∧ o = k.origin) ∨ o ∈ a.admits s.engine
    have grants : s.Grants a (.ofJobs known) :=
      grants_ofJobs (fun k copy => Or.inl ⟨k, copy, rfl⟩) fun _ admitted => Or.inr admitted
    have before : ∀ k ∈ s.engine.store.jobs.values, known k.origin := by
      intro k stored
      exact Or.inl ⟨k, .stored stored, rfl⟩
    have writes := perform_writes grants numbered distinct
    exact writes.keep (fun _ _ write all => write.stored all) before j inside
  | queued inside =>
    rcases queued_perform inside with old | new
    · exact Or.inl (follows_of_copy (.queued old))
    · exact Or.inr new
  | due inside =>
    rcases read_perform inside with old | ⟨row, stored, same⟩
    · exact Or.inl (follows_of_copy (.due old))
    · exact Or.inl ⟨row, .stored stored, same⟩
  | flown f flies inside => exact Or.inl (flown_perform flies inside)

end System

end Rota
