import Rota.Proofs.Copies
/-! Running jobs, and results that wait to be stored.
A job runs from when a worker has stored it as started, and a result waits from when its job has
ended. -/
namespace Rota

def Action.isRun : Action → Bool
  | .proceed _ | .finish _ _ | .save _ => true
  | _ => false

namespace System

variable {s : System} {a : Action}

private theorem lasting_send {p q : Pool} {h : Handover} {answer : Sent}
    (sent : p.send h = (q, answer)) :
    q.executing = p.executing ∧ q.unsaved = p.unsaved := by
  unfold Pool.send at sent
  split at sent
  next =>
    cases sent
    exact ⟨rfl, rfl⟩
  next => split at sent <;> cases sent <;> exact ⟨rfl, rfl⟩

private theorem lasting_submitNext (s : System) (place : Nat) :
    (s.submitNext place).engine.pool.executing = s.engine.pool.executing ∧
      (s.submitNext place).engine.pool.unsaved = s.engine.pool.unsaved := by
  unfold submitNext
  split
  next job rest ticket here =>
    split
    next => exact ⟨rfl, rfl⟩
    next =>
      dsimp only
      cases done : s.engine.submit job with
      | mk e submission =>
        cases Engine.submit_submitted done with
        | sent _ _ _ _ _ _ _ _ _ taken => exact lasting_send taken
        | _ => exact ⟨rfl, rfl⟩
  next => exact ⟨rfl, rfl⟩

/-- Other steps than those that start, end or store leave running jobs and results alone. -/
theorem lasting_perform (quiet : a.isRun = false) :
    (s.perform a).engine.pool.executing = s.engine.pool.executing ∧
      (s.perform a).engine.pool.unsaved = s.engine.pool.unsaved := by
  by_cases works : a.isWork = true
  · cases a with
    | submit place => exact lasting_submitNext s place
    | abandon place =>
      simp only [perform, abandon]
      split
      next => split <;> exact ⟨rfl, rfl⟩
      next => exact ⟨rfl, rfl⟩
    | take =>
      simp only [perform, take]
      split
      next =>
        split
        next taken =>
          unfold Pool.take? at taken
          split at taken <;> cases taken <;> exact ⟨rfl, rfl⟩
        next => exact ⟨rfl, rfl⟩
      next => exact ⟨rfl, rfl⟩
    | start =>
      simp only [perform, withEngine, Engine.start, Pool.start]
      split <;> exact ⟨rfl, rfl⟩
    | stop => exact ⟨rfl, rfl⟩
    | cancel => exact ⟨rfl, rfl⟩
    | proceed place => cases quiet
    | finish place result => cases quiet
    | save place => cases quiet
    | _ => cases works
  · obtain ⟨pool, _⟩ := pool_perform (s := s) (by simpa using works)
    exact ⟨congrArg Pool.executing pool, congrArg Pool.unsaved pool⟩

/-- A worker that begins or goes on starts one job, which is stored, or none. -/
theorem running_proceed (s : System) (place : Nat) :
    (s.proceed place).engine.pool.unsaved = s.engine.pool.unsaved ∧
      ((s.proceed place).engine.pool.executing = s.engine.pool.executing ∨
        ∃ x, (s.proceed place).engine.pool.executing = s.engine.pool.executing ++ [x] ∧
          ((s.proceed place).engine.store.jobs.get? x.current.id).isSome = true) := by
  have present {store store' : Store} {x : Execution} {records : List Pipeline}
      (edited : Store.Edited store store' [x.current] records) :
      (store'.jobs.get? x.current.id).isSome = true := by
    rw [edited.isSome_jobs]
    exact edited.known _ (List.mem_singleton_self _)
  unfold proceed
  split
  next => exact ⟨rfl, Or.inl rfl⟩
  next h _ =>
    obtain ⟨store, same⟩ := s.engine.beginWork_withStore .worker h
    dsimp only
    split
    next x begun =>
      obtain ⟨_, store', _, _, _, _, rfl, edited⟩ := Engine.beginWork_some begun
      exact ⟨rfl, Or.inr ⟨x, rfl, present edited⟩⟩
    next begun =>
      rw [begun] at same
      cases same
      exact ⟨rfl, Or.inl rfl⟩
  next i _ =>
    obtain ⟨store, same⟩ := s.engine.goOn_withStore i
    dsimp only
    split
    next x begun =>
      obtain ⟨_, store', _, _, _, _, updated, rfl⟩ := Engine.goOn_inl begun
      have edited := (Store.updateJob_ok updated).1
      exact ⟨rfl, Or.inr ⟨x, rfl, present edited⟩⟩
    next begun =>
      rw [begun] at same
      cases same
      rw [Engine.pool_endExecution]
      exact ⟨rfl, Or.inl rfl⟩

/-- A job that ends runs no more, and its result is kept or waits to be stored. -/
theorem running_finish {place : Nat} {result : JobResult} :
    (∀ x ∈ (s.finish place result).engine.pool.executing, x ∈ s.engine.pool.executing) ∧
      ∀ r ∈ (s.finish place result).engine.pool.unsaved, r ∈ s.engine.pool.unsaved ∨
        r = result ∧ ∃ x ∈ s.engine.pool.executing, r.jobId = x.current.id := by
  unfold finish
  split
  next => exact ⟨fun _ => id, fun _ => Or.inl⟩
  next x here =>
    split
    next own =>
      obtain ⟨store, feed, issued, unsaved, results, _, _, _, _, concludes, _, sends, _⟩ :=
        Engine.concludeJob_eq { s.engine with pool := { s.engine.pool with
          executing := s.engine.pool.executing.eraseIdx place } } x result
      have waits : ∀ r ∈ unsaved, r ∈ s.engine.pool.unsaved ∨
          r = result ∧ ∃ x ∈ s.engine.pool.executing, r.jobId = x.current.id := by
        intro r member
        unfold Engine.Sends at sends
        split at sends
        next =>
          obtain ⟨rfl, _⟩ := Prod.mk.inj sends
          rcases List.mem_append.mp member with old | new
          · exact Or.inl old
          · rw [List.mem_singleton.mp new]
            exact Or.inr ⟨rfl, x, List.mem_of_getElem? here, own⟩
        next =>
          obtain ⟨rfl, _⟩ := Prod.mk.inj sends
          exact Or.inl member
      dsimp only
      rw [concludes]
      split
      next concluded =>
        obtain ⟨rfl, _⟩ := Prod.mk.inj concluded
        exact ⟨fun _ => List.mem_of_mem_eraseIdx, waits⟩
      next concluded =>
        obtain ⟨rfl, _⟩ := Prod.mk.inj concluded
        rw [Engine.pool_endExecution]
        exact ⟨fun _ => List.mem_of_mem_eraseIdx, waits⟩
    next => exact ⟨fun _ => id, fun _ => Or.inl⟩

theorem running_save (s : System) (place : Nat) :
    (s.save place).engine.pool.executing = s.engine.pool.executing ∧
      ∀ r ∈ (s.save place).engine.pool.unsaved, r ∈ s.engine.pool.unsaved := by
  unfold save
  split
  next => exact ⟨rfl, fun _ => id⟩
  next =>
    dsimp only
    split <;> exact ⟨rfl, fun _ => List.mem_of_mem_eraseIdx⟩

/-- A job runs when its record says so. -/
theorem executing_perform {x : Execution} (runs : x ∈ (s.perform a).engine.pool.executing) :
    x ∈ s.engine.pool.executing ∨
      ((s.perform a).engine.store.jobs.get? x.current.id).isSome = true := by
  by_cases run : a.isRun = true
  · cases a with
    | proceed place =>
      obtain ⟨_, same | ⟨y, more, present⟩⟩ := running_proceed s place
      · exact Or.inl (same ▸ runs)
      · rcases List.mem_append.mp (more ▸ runs) with old | new
        · exact Or.inl old
        · rw [List.mem_singleton.mp new]
          exact Or.inr present
    | finish place result => exact Or.inl (running_finish.1 x runs)
    | save place => exact Or.inl ((running_save s place).1 ▸ runs)
    | _ => cases run
  · exact Or.inl ((lasting_perform (s := s) (by simpa using run)).1 ▸ runs)

/-- A result waits to be stored from when its job has ended. -/
theorem unsaved_perform {r : JobResult} (waits : r ∈ (s.perform a).engine.pool.unsaved) :
    r ∈ s.engine.pool.unsaved ∨ (∃ place, a = .finish place r) ∧
      ∃ x ∈ s.engine.pool.executing, r.jobId = x.current.id := by
  by_cases run : a.isRun = true
  · cases a with
    | proceed place => exact Or.inl ((running_proceed s place).1 ▸ waits)
    | finish place result =>
      rcases running_finish.2 r waits with old | ⟨rfl, own⟩
      · exact Or.inl old
      · exact Or.inr ⟨⟨place, rfl⟩, own⟩
    | save place => exact Or.inl ((running_save s place).2 r waits)
    | _ => cases run
  · exact Or.inl ((lasting_perform (s := s) (by simpa using run)).2 ▸ waits)

end System

end Rota
