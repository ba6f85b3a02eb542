import Rota.Proofs.Perform
/-! What holds in every run.
A property that steps keep holds in every run from an empty store, whatever the order of the
actions. The first is that pipelines and jobs stay linked. -/
namespace Rota

namespace System

variable {s : System}

/-! ### Identifiers

Identifiers are issued when something is admitted and when a recurring job has ended. None is taken
back. -/

private theorem issued_updateJob (e : Engine) (id : Id) (r : UpdateJob) :
    (e.updateJob id r).1.issued = e.issued := by
  unfold Engine.updateJob
  dsimp only
  split <;> rfl

private theorem issued_updatePipeline (e : Engine) (id : Id) (r : UpdatePipeline) :
    (e.updatePipeline id r).1.issued = e.issued := by
  unfold Engine.updatePipeline
  dsimp only
  split <;> rfl

private theorem issued_deleteJob (e : Engine) (id : Id) : (e.deleteJob id).1.issued = e.issued := by
  unfold Engine.deleteJob
  dsimp only
  split <;> rfl

private theorem issued_dropJobs (e : Engine) : e.dropJobs.1.issued = e.issued := by
  unfold Engine.dropJobs
  split
  next => rfl
  next =>
    dsimp only
    split <;> rfl

private theorem issued_deletePipeline (e : Engine) (id : Id) :
    (e.deletePipeline id).1.issued = e.issued := by
  unfold Engine.deletePipeline
  split <;> rfl

private theorem issued_deleteResult (e : Engine) (id : Id) :
    (e.deleteResult id).1.issued = e.issued := by
  unfold Engine.deleteResult
  split <;> rfl

private theorem issued_scan (s : System) : s.scan.engine.issued = s.engine.issued := by
  unfold scan
  split <;> rfl

private theorem issued_look (s : System) : s.look.engine.issued = s.engine.issued := by
  unfold look
  split
  next => rfl
  next => split <;> rfl

private theorem issued_submitNext (s : System) (place : Nat) :
    (s.submitNext place).engine.issued = s.engine.issued := by
  unfold submitNext
  split
  next job _ _ _ =>
    split
    next => rfl
    next =>
      dsimp only
      cases done : s.engine.submit job with
      | mk e submission => cases Engine.submit_submitted done <;> rfl
  next => rfl

private theorem issued_abandon (s : System) (place : Nat) :
    (s.abandon place).engine.issued = s.engine.issued := by
  unfold abandon
  split
  next => split <;> rfl
  next => rfl

private theorem issued_take (s : System) : s.take.engine.issued = s.engine.issued := by
  unfold take
  split
  next => split <;> rfl
  next => rfl

private theorem issued_proceed (s : System) (place : Nat) :
    (s.proceed place).engine.issued = s.engine.issued := by
  unfold proceed
  split
  next => rfl
  next =>
    dsimp only
    split
    next begun =>
      obtain ⟨_, _, _, _, _, _, rfl, _⟩ := Engine.beginWork_some begun
      rfl
    next lost begun =>
      obtain ⟨_, _, rfl, _⟩ := Engine.beginWork_lost begun fun x same => lost x (by rw [same])
      rfl
  next =>
    dsimp only
    split
    next begun =>
      obtain ⟨_, _, _, _, _, _, _, rfl⟩ := Engine.goOn_inl begun
      rfl
    next ended begun =>
      obtain ⟨rfl, _⟩ := Engine.goOn_inr begun
      exact Engine.issued_endExecution _ _ _

theorem issued_finish (s : System) (place : Nat) (result : JobResult) :
    s.engine.issued ≤ (s.finish place result).engine.issued := by
  unfold finish
  split
  next => exact Nat.le_refl _
  next =>
    split
    next =>
      dsimp only
      split
      next concluded =>
        obtain ⟨_, _, _, _, _, _, _, _, rfl, later, _⟩ := Engine.concludeJob_spec concluded
        exact later
      next ended concluded =>
        obtain ⟨_, _, _, _, _, _, _, _, rfl, later, _⟩ := Engine.concludeJob_spec concluded
        simpa using later
    next => exact Nat.le_refl _

private theorem issued_save (s : System) (place : Nat) :
    (s.save place).engine.issued = s.engine.issued := by
  unfold save
  split
  next => rfl
  next =>
    dsimp only
    split <;> rfl

theorem issued_perform (s : System) (a : Action) :
    s.engine.issued ≤ (s.perform a).engine.issued := by
  cases a with
  | createJob r =>
    rw [perform, withEngine, issued_createJob]
    exact Nat.le_succ _
  | createPipeline r =>
    rw [perform, withEngine, issued_createPipeline]
    omega
  | updateJob id r => exact Nat.le_of_eq (issued_updateJob s.engine id r).symm
  | updatePipeline id r => exact Nat.le_of_eq (issued_updatePipeline s.engine id r).symm
  | deleteJob id => exact Nat.le_of_eq (issued_deleteJob s.engine id).symm
  | dropJobs => exact Nat.le_of_eq (issued_dropJobs s.engine).symm
  | deletePipeline id => exact Nat.le_of_eq (issued_deletePipeline s.engine id).symm
  | deleteResult id => exact Nat.le_of_eq (issued_deleteResult s.engine id).symm
  | scan => exact Nat.le_of_eq (issued_scan s).symm
  | look => exact Nat.le_of_eq (issued_look s).symm
  | submit place => exact Nat.le_of_eq (issued_submitNext s place).symm
  | abandon place => exact Nat.le_of_eq (issued_abandon s place).symm
  | take => exact Nat.le_of_eq (issued_take s).symm
  | proceed place => exact Nat.le_of_eq (issued_proceed s place).symm
  | finish place result => exact issued_finish s place result
  | save place => exact Nat.le_of_eq (issued_save s place).symm
  | start => exact Nat.le_refl _
  | stop => exact Nat.le_refl _
  | cancel => exact Nat.le_refl _
  | advance millis => exact Nat.le_refl _
  | closeQueue => exact Nat.le_refl _
  | closeStore => exact Nat.le_refl _

theorem issued_run (s : System) (actions : List Action) :
    s.engine.issued ≤ (s.run actions).engine.issued := by
  induction actions generalizing s with
  | nil => exact Nat.le_refl _
  | cons a rest ih => exact Nat.le_trans (issued_perform s a) (ih (s.perform a))

/-! ### Runs -/

theorem along_of_forall {allowed : System → Action → Prop} {actions : List Action}
    (all : ∀ a ∈ actions, ∀ t, allowed t a) (s : System) : Along allowed s actions := by
  induction actions generalizing s with
  | nil => trivial
  | cons a rest ih =>
    exact ⟨all a (by simp) s, ih (fun b member => all b (by simp [member])) (s.perform a)⟩

/-- What every allowed step keeps holds of every run. -/
theorem run_keeps {allowed : System → Action → Prop} {P : System → Prop} {actions : List Action}
    (kept : ∀ t a, t.Sound → P t → allowed t a → Id.Distinct (t.perform a).engine.issued →
      Step t a (t.perform a) → P (t.perform a))
    (sound : s.Sound) (holds : P s) (along : Along allowed s actions)
    (short : ∀ a ∈ actions, a.IsShort) (distinct : Id.Distinct (s.run actions).engine.issued) :
    (s.run actions).Sound ∧ P (s.run actions) := by
  induction actions generalizing s with
  | nil => exact ⟨sound, holds⟩
  | cons a rest ih =>
    have few := distinct.mono (issued_run (s.perform a) rest)
    have step := perform_step sound a (short a (by simp)) few
    exact ih (step.sound sound few) (kept s a sound holds along.1 few step) along.2
      (fun b member => short b (by simp [member])) distinct

variable {now : Instant} {registry : Registry} {queueCapacity : Nat} {unit : TimeUnit}
  {workers poolCapacity : Nat} {actions : List Action}

/-- A new system has nothing on its way. -/
theorem new_eq (made : new? now registry queueCapacity unit workers poolCapacity = some s) :
    s.engine.store = .empty ∧ s.engine.issued = 0 ∧ s.scanned = [] ∧ s.called = [] ∧
      s.flights = [] := by
  obtain ⟨e, new, rfl⟩ := Option.map_eq_some_iff.mp made
  obtain ⟨queue, queued, rest⟩ := Option.bind_eq_some_iff.mp new
  obtain ⟨pool, pooled, same⟩ := Option.bind_eq_some_iff.mp rest
  cases same
  unfold JobQueue.new? at queued
  unfold Pool.new? at pooled
  split at queued
  next =>
    split at pooled
    next =>
      cases queued
      cases pooled
      exact ⟨rfl, rfl, rfl, rfl, rfl⟩
    next => cases pooled
  next => cases queued

theorem sound_new (made : new? now registry queueCapacity unit workers poolCapacity = some s) :
    s.Sound := by
  obtain ⟨store, issued, scanned, called, flights⟩ := new_eq made
  refine ⟨?_, ?_, ?_⟩
  · rw [store, issued]
    exact Store.consistent_empty
  · rw [scanned, called]
    simp
  · rw [flights]
    simp

theorem sound_run (made : new? now registry queueCapacity unit workers poolCapacity = some s)
    (short : ∀ a ∈ actions, a.IsShort) (distinct : Id.Distinct (s.run actions).engine.issued) :
    (s.run actions).Sound := by
  have along : Along (fun _ _ => True) s actions := along_of_forall (fun _ _ _ => trivial) s
  exact (run_keeps (P := fun _ => True) (fun _ _ _ _ _ _ _ => trivial) (sound_new made) trivial along
    short distinct).1

/-- In every run from an empty store pipelines have their jobs, each in its place, and jobs their
pipelines. -/
theorem linked_run (made : new? now registry queueCapacity unit workers poolCapacity = some s)
    (short : ∀ a ∈ actions, a.IsShort) (distinct : Id.Distinct (s.run actions).engine.issued) :
    (s.run actions).engine.store.Linked :=
  (sound_run made short distinct).consistent.linked

theorem distinct_firstJob : Id.Distinct (start.run firstJob).engine.issued :=
  Id.distinct_of_le (by decide +kernel)

theorem linked_firstJob : (start.run firstJob).engine.store.Linked ∧
    ((start.run firstJob).engine.store.pipelines.get? (.issued 0)).isSome = true :=
  ⟨linked_run new_start short_firstJob distinct_firstJob, by decide +kernel⟩

end System

end Rota
