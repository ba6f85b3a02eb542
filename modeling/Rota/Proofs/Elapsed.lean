import Rota.Proofs.Clock
import Rota.Proofs.Sources
/-! How much time passes in a run.
Only the clock's own steps let time pass. The wall clock and the count of milliseconds go together
until the wall clock stops, so the time that a job has run by the one bounds what it has run by the
other. -/
namespace Rota

namespace Instant

variable {t u : Instant}

/-- Nanoseconds since 1970; a leap second counts with the second that it stretches. -/
def nanos (t : Instant) : Int := t.second * 1000000000 + t.nano

private theorem nanos_addNanos {n : Int} (forward : 0 ≤ n) (moved : t.addNanos? n = some u) :
    u.nanos ≤ t.nanos + n := by
  rw [addNanos?_forwards forward] at moved
  unfold nanos
  split at moved
  next =>
    obtain ⟨second, nano⟩ := of?_eq_some moved
    omega
  next =>
    obtain ⟨second, nano⟩ := of?_eq_some moved
    by_cases leap : 1000000000 ≤ t.nano
    · rw [if_pos leap] at second nano
      omega
    · rw [if_neg leap] at second nano
      omega

/-- A leap second adds a second to what lies between, or takes one away. -/
theorem nanosBetween_bounds (ordered : t.le u = true) :
    -2000000000 < nanosBetween t u ∧ nanosBetween t u ≤ u.nanos - t.nanos + 1000000000 := by
  rw [le_iff] at ordered
  have lt := t.nano_lt
  have lt' := u.nano_lt
  unfold nanosBetween nanos
  dsimp only
  split
  next => omega
  next => split <;> omega

end Instant

/-- At most as much passes on the wall clock as is counted. -/
theorem Engine.nanos_advance (e : Engine) (millis : Nat) :
    (e.advance millis).now.nanos ≤ e.now.nanos + millis * 1000000 := by
  unfold advance
  cases moved : e.now.addMillis? millis with
  | none =>
    dsimp only [Option.getD_none]
    omega
  | some u => exact Instant.nanos_addNanos (by omega) moved

/-- A running job has a result after thirty years at most. -/
theorem Execution.dueAt_le (x : Execution) : x.dueAt ≤ x.startedAt + Timer.longest := by
  have expires : x.expiry ≤ Timer.longest := Nat.min_le_right _ _
  exact Nat.add_le_add_left (Nat.le_trans (Nat.min_le_left _ _) expires) _

namespace System

variable {s : System} {a : Action}

private theorem clock_createJob (e : Engine) (r : CreateJob) :
    (e.createJob r).1.now = e.now ∧ (e.createJob r).1.time = e.time := by
  have done := Engine.createJob_created e r
  generalize (e.createJob r).1 = e', (e.createJob r).2 = answer at done ⊢
  cases done <;> exact ⟨rfl, rfl⟩

private theorem clock_createPipeline (e : Engine) (r : CreatePipeline) :
    (e.createPipeline r).1.now = e.now ∧ (e.createPipeline r).1.time = e.time := by
  have done := Engine.createPipeline_created e r
  generalize (e.createPipeline r).1 = e', (e.createPipeline r).2 = answer at done ⊢
  cases done <;> exact ⟨rfl, rfl⟩

private theorem clock_endExecution (e : Engine) (executor : Executor) (ended : Engine.Ended) :
    (e.endExecution executor ended).now = e.now ∧
      (e.endExecution executor ended).time = e.time := by
  unfold Engine.endExecution
  split <;> exact ⟨rfl, rfl⟩

private theorem clock_proceed (s : System) (place : Nat) :
    (s.proceed place).engine.now = s.engine.now ∧
      (s.proceed place).engine.time = s.engine.time := by
  unfold proceed
  split
  next => exact ⟨rfl, rfl⟩
  next =>
    dsimp only
    split
    next begun =>
      obtain ⟨_, _, _, _, _, _, rfl, _⟩ := Engine.beginWork_some begun
      exact ⟨rfl, rfl⟩
    next lost begun =>
      obtain ⟨_, _, rfl, _⟩ := Engine.beginWork_lost begun fun x same => lost x (by rw [same])
      exact ⟨rfl, rfl⟩
  next =>
    dsimp only
    split
    next begun =>
      obtain ⟨_, _, _, _, _, _, _, rfl⟩ := Engine.goOn_inl begun
      exact ⟨rfl, rfl⟩
    next begun =>
      obtain ⟨rfl, _⟩ := Engine.goOn_inr begun
      exact clock_endExecution _ _ _

private theorem clock_finish (s : System) (place : Nat) (result : JobResult) :
    (s.finish place result).engine.now = s.engine.now ∧
      (s.finish place result).engine.time = s.engine.time := by
  unfold finish
  split
  next => exact ⟨rfl, rfl⟩
  next =>
    split
    next =>
      dsimp only
      split
      next concluded =>
        obtain ⟨_, _, _, _, _, _, _, _, rfl, _⟩ := Engine.concludeJob_spec concluded
        exact ⟨rfl, rfl⟩
      next concluded =>
        obtain ⟨_, _, _, _, _, _, _, _, rfl, _⟩ := Engine.concludeJob_spec concluded
        exact clock_endExecution _ _ _
    next => exact ⟨rfl, rfl⟩

private theorem clock_submitNext (s : System) (place : Nat) :
    (s.submitNext place).engine.now = s.engine.now ∧
      (s.submitNext place).engine.time = s.engine.time := by
  unfold submitNext
  split
  next job _ _ _ =>
    split
    next => exact ⟨rfl, rfl⟩
    next =>
      dsimp only
      cases done : s.engine.submit job with
      | mk e submission => cases Engine.submit_submitted done <;> exact ⟨rfl, rfl⟩
  next => exact ⟨rfl, rfl⟩

/-- Time passes only when it is let pass. -/
theorem clock_perform (s : System) (a : Action) :
    (∃ millis, (s.perform a).engine = s.engine.advance millis) ∨
      (s.perform a).engine.now = s.engine.now ∧ (s.perform a).engine.time = s.engine.time := by
  by_cases manages : a.isManagement = true
  · obtain ⟨store, same⟩ := perform_management (s := s) manages
    rw [same]
    exact Or.inr ⟨rfl, rfl⟩
  · cases a with
    | advance millis => exact Or.inl ⟨millis, rfl⟩
    | createJob r => exact Or.inr (clock_createJob s.engine r)
    | createPipeline r => exact Or.inr (clock_createPipeline s.engine r)
    | submit place => exact Or.inr (clock_submitNext s place)
    | proceed place => exact Or.inr (clock_proceed s place)
    | finish place result => exact Or.inr (clock_finish s place result)
    | scan =>
      simp only [perform, scan]
      split <;> exact Or.inr ⟨rfl, rfl⟩
    | look =>
      simp only [perform, look]
      split
      next => exact Or.inr ⟨rfl, rfl⟩
      next => split <;> exact Or.inr ⟨rfl, rfl⟩
    | abandon place =>
      simp only [perform, abandon]
      split
      next => split <;> exact Or.inr ⟨rfl, rfl⟩
      next => exact Or.inr ⟨rfl, rfl⟩
    | take =>
      simp only [perform, take]
      split
      next => split <;> exact Or.inr ⟨rfl, rfl⟩
      next => exact Or.inr ⟨rfl, rfl⟩
    | save place =>
      simp only [perform, save]
      split
      next => exact Or.inr ⟨rfl, rfl⟩
      next => split <;> exact Or.inr ⟨rfl, rfl⟩
    | start => exact Or.inr ⟨rfl, rfl⟩
    | stop => exact Or.inr ⟨rfl, rfl⟩
    | cancel => exact Or.inr ⟨rfl, rfl⟩
    | closeQueue => exact Or.inr ⟨rfl, rfl⟩
    | _ => exact absurd rfl manages

theorem now_le_perform (s : System) (a : Action) :
    s.engine.now.le (s.perform a).engine.now = true := by
  rcases clock_perform s a with ⟨millis, same⟩ | ⟨now, _⟩
  · exact same ▸ Engine.le_now_advance s.engine millis
  · simp [now]

/-- What has passed on the wall clock has been counted. -/
theorem nanos_perform (s : System) (a : Action) :
    (s.perform a).engine.now.nanos - s.engine.now.nanos ≤
      ((s.perform a).engine.time - s.engine.time : Int) * 1000000 := by
  rcases clock_perform s a with ⟨millis, same⟩ | ⟨now, time⟩
  · have passed := Engine.nanos_advance s.engine millis
    have counted : (s.engine.advance millis).time = s.engine.time + millis := rfl
    rw [same, counted]
    omega
  · simp [now, time]

def ending? (s : System) : Action → Option Execution
  | .finish place _ => s.engine.pool.executing[place]?
  | _ => none

/-- A job ends at most a century after it was due. -/
def Prompt (s : System) (a : Action) : Prop :=
  ∀ x ∈ s.ending? a, s.engine.time ≤ x.dueAt + 100 * 365 * 86400000

instance (s : System) (a : Action) : Decidable (s.Prompt a) :=
  inferInstanceAs (Decidable (∀ x ∈ s.ending? a,
    s.engine.time ≤ x.dueAt + 100 * 365 * 86400000))

end System

end Rota
