import Rota.Proofs.Accounts
import Rota.Proofs.Clock
/-! Dates that a tick computes.
A tick that arms a pipeline again adds a delay for every job to the date of the first one. Nothing
bounds these delays when a pipeline is admitted, and where the last date lies beyond the supported
years the tick crashes. It does not as long as the last date of every pipeline that is to be armed
again is a supported one. -/
namespace Rota

namespace Instant

variable {t : Instant}

theorem isSome_of?_iff {second : Int} {nano : Nat} : (of? second nano).isSome = true ↔
    (-8334601228800 ≤ second ∧ second < 8210266876800) ∧ nano < 2000000000 ∧
      (1000000000 ≤ nano → second % 60 = 59) := by
  unfold of?
  split
  next within => simpa using within
  next outside => simpa using outside

/-- Only the end of the supported years keeps an instant from being moved forwards. -/
theorem isSome_addSeconds?_iff {seconds : Int} (forward : 0 ≤ seconds) :
    (t.addSeconds? seconds).isSome = true ↔ t.second + seconds < 8210266876800 := by
  have inRange := t.inRange
  have nano := t.nano_lt
  have ends := t.leap_end
  rw [addSeconds?, addNanos?_forwards (by omega)]
  split
  next =>
    rw [isSome_of?_iff]
    omega
  next =>
    dsimp only
    rw [isSome_of?_iff]
    split
    all_goals omega

theorem isSome_addSeconds?_of_le {few many : Nat} (le : few ≤ many)
    (moved : (t.addSeconds? many).isSome = true) : (t.addSeconds? few).isSome = true := by
  rw [isSome_addSeconds?_iff (Int.natCast_nonneg _)] at moved ⊢
  omega

end Instant

namespace Pipeline

variable {p q : Pipeline} {now : Instant} {count count' : Nat}

/-! ### Arming a pipeline -/

theorem stagger_eq {delay : UInt64} {position : Nat} (positive : 1 ≤ delay.toNat)
    (small : delay.toNat * position < 9223372036854775808) :
    stagger delay position = (delay.toNat * position : Nat) := by
  -- The position lies below the product, so neither of them wraps in 64 bits.
  have below : position ≤ delay.toNat * position := Nat.le_mul_of_pos_left position positive
  have fits : position < UInt64.size := by
    simp only [UInt64.size]
    omega
  have product : (delay * UInt64.ofNat position).toNat = delay.toNat * position := by
    rw [UInt64.toNat_mul, UInt64.toNat_ofNat_of_lt' fits, Nat.mod_eq_of_lt (by omega)]
  rw [stagger, product]
  exact Int64.toInt_ofNat_of_lt small

theorem one_le_delay (p : Pipeline) : 1 ≤ p.delay.toNat := by
  unfold delay
  rw [UInt64.toNat_max]
  exact Nat.le_max_right _ _

def base (p : Pipeline) (now : Instant) : Except ScheduleError Instant := do
  let interval ← p.interval
  (interval.getD ⟨1, .second⟩).adjust now

theorem recycle_error {e : ScheduleError} (failed : p.base now = .error e) :
    p.recycle now = (p, .error (.error e)) := by
  unfold base at failed
  unfold recycle
  dsimp only
  rw [failed]

private theorem recycle_of_base {first : Instant} (moved : p.base now = .ok first) :
    (p.recycle now).2 = (recycleJobs first p.delay 0 p.jobs).2 := by
  unfold base at moved
  unfold recycle
  dsimp only
  rw [moved]
  dsimp only
  split <;> simp [*]

/-- When `count` jobs are armed, the date of the last one is supported. -/
def InReach (p : Pipeline) (now : Instant) (count : Nat) : Prop :=
  ∀ base, p.base now = .ok base →
    (base.addSeconds? (p.delay.toNat * (count - 1) : Nat)).isSome = true

instance InReach.decidable (p : Pipeline) (now : Instant) (count : Nat) :
    Decidable (p.InReach now count) :=
  match moved : p.base now with
  | .error e => .isTrue fun first other => by rw [moved] at other; cases other
  | .ok first =>
    decidable_of_iff ((first.addSeconds? (p.delay.toNat * (count - 1) : Nat)).isSome = true) (by
      simp only [InReach, moved, Except.ok.injEq, forall_eq'])

theorem InReach.fewer (inReach : p.InReach now count) (le : count' ≤ count) :
    p.InReach now count' := by
  intro base moved
  apply Instant.isSome_addSeconds?_of_le _ (inReach base moved)
  exact Nat.mul_le_mul_left _ (by omega)

private theorem recycleJobs_overflow_iff {base : Instant} {delay : UInt64} {position : Nat}
    {jobs : List Job} (positive : 1 ≤ delay.toNat)
    (spans : ∀ i < jobs.length, (delay.toNat * (position + i) : Nat) ≤ maxSpan) :
    (recycleJobs base delay position jobs).2 = .error .overflow ↔
      ∃ i < jobs.length, base.addSeconds? (delay.toNat * (position + i) : Nat) = none := by
  -- Where the first job can be moved, those behind it decide.
  induction jobs generalizing position with
  | nil => simp [recycleJobs]
  | cons j rest ih =>
    have spanned : (delay.toNat * position : Nat) ≤ maxSpan := spans 0 (by simp)
    have later := @ih (position + 1) fun i lt => by
      rw [Nat.add_assoc, Nat.add_comm 1]
      exact spans (i + 1) (by simpa using lt)
    have seconds : stagger delay position = (delay.toNat * position : Nat) := by
      apply stagger_eq positive
      unfold maxSpan at spanned
      omega
    have isSpan :
        ¬(stagger delay position < -maxSpan || maxSpan < stagger delay position) = true := by
      rw [seconds, Bool.or_eq_true, decide_eq_true_eq, decide_eq_true_eq]
      unfold maxSpan at spanned ⊢
      omega
    rw [recycleJobs, List.length_cons, Nat.exists_lt_succ_left, Nat.add_zero]
    dsimp only
    rw [if_neg isSpan, seconds]
    cases moved : base.addSeconds? (delay.toNat * position : Nat) with
    | none => simp
    | some t => simp [later, Nat.add_assoc, Nat.add_comm 1]

/-- Arming a pipeline leaves the supported years exactly if it takes the date of its last job out of
them. -/
theorem recycle_overflow_iff (spans : (p.delay.toNat * (p.jobs.length - 1) : Nat) ≤ maxSpan) :
    (p.recycle now).2 = .error .overflow ↔ ¬p.InReach now p.jobs.length := by
  cases moved : p.base now with
  | error e => simp [recycle_error moved, InReach, moved]
  | ok first =>
    have earlier : ∀ i < p.jobs.length,
        p.delay.toNat * (0 + i) ≤ p.delay.toNat * (p.jobs.length - 1) := by
      intro i lt
      exact Nat.mul_le_mul_left _ (by omega)
    have arms : (recycleJobs first p.delay 0 p.jobs).2 = .error .overflow ↔
        ∃ i < p.jobs.length, first.addSeconds? (p.delay.toNat * (0 + i) : Nat) = none := by
      apply recycleJobs_overflow_iff p.one_le_delay
      intro i lt
      exact Int.le_trans (Int.ofNat_le.mpr (earlier i lt)) spans
    rw [recycle_of_base moved, arms]
    simp only [InReach, moved, Except.ok.injEq, forall_eq']
    constructor
    · rintro ⟨i, lt, beyond⟩ inReach
      have within := Instant.isSome_addSeconds?_of_le (earlier i lt) inReach
      rw [beyond] at within
      cases within
    · intro beyond
      cases jobs : p.jobs with
      | nil =>
        have inRange := first.inRange
        rw [jobs, Instant.isSome_addSeconds?_iff (Int.natCast_nonneg _)] at beyond
        simp only [List.length_nil] at beyond
        omega
      | cons j rest =>
        rw [jobs] at beyond
        exact ⟨rest.length, by simp, by simpa using beyond⟩

private theorem recycle_inReach (inReach : p.InReach now p.jobs.length) :
    (p.recycle now).2 ≠ .error .overflow := by
  cases moved : p.base now with
  | error e => simp [recycle_error moved]
  | ok first =>
    have last := (Instant.isSome_addSeconds?_iff (Int.natCast_nonneg _)).mp (inReach first moved)
    have spans : (p.delay.toNat * (p.jobs.length - 1) : Nat) ≤ maxSpan := by
      have inRange := first.inRange
      unfold maxSpan
      omega
    rw [ne_eq, recycle_overflow_iff spans, not_not]
    exact inReach

private theorem base_congr (details : p.details = q.details) : p.base now = q.base now := by
  have options : p.options = q.options := congrArg PipelineDetails.options details
  simp only [base, interval, options]

theorem InReach.congr (inReach : p.InReach now count) (details : q.details = p.details) :
    q.InReach now count := by
  have delay : q.delay = p.delay :=
    congrArg (fun d : PipelineDetails => max d.options.delayBetweenTask 1) details
  intro first moved
  rw [delay]
  exact inReach first ((base_congr details).symm.trans moved)

end Pipeline

namespace Store

variable {s : Store} {p : Pipeline} {id : Id} {row : PipelineRow}

private theorem recyclePipeline_overflow {now : Instant}
    (stopped : (s.recyclePipeline p now).2.2 = .error .overflow) :
    (p.recycle now).2 = .error .overflow := by
  unfold recyclePipeline at stopped
  split at stopped
  next => cases stopped
  next recycled => rw [recycled]
  next =>
    split at stopped
    next => cases stopped
    next => split at stopped <;> cases stopped

private theorem length_loadPipeline (loads : s.loadPipeline row = .ok p) :
    p.jobs.length ≤ row.jobIds.length := by
  obtain ⟨jobs, read, rfl⟩ := loadPipeline_ok loads
  rw [(sortBy_perm _ _).length_eq, ← read.length_eq]
  exact List.length_filterMap_le _ _

end Store

namespace Engine

variable {e e' : Engine} {job : Job} {submission : Submission}

/-! ### Submissions -/

private theorem resolve_overflow (stopped : (e.resolve job).2 = .overflow) :
    ∃ id p, e.store.getPipeline id = .ok p ∧ p.isRearmed = true ∧
      (p.recycle e.now).2 = .error .overflow := by
  have rearms {p : Pipeline} (stopped : (e.rearm p).2 = .overflow) :
      (p.recycle e.now).2 = .error .overflow := by
    apply Store.recyclePipeline_overflow (s := e.store)
    unfold rearm at stopped
    split at stopped
    next => cases stopped
    next => cases stopped
    next recycled => rw [recycled]
  unfold resolve at stopped
  split at stopped
  next => split at stopped <;> cases stopped
  next id owner =>
    split at stopped
    next => cases stopped
    next p read =>
      split at stopped
      next disabled => exact ⟨id, p, read, by simp [Pipeline.isRearmed, disabled], rearms stopped⟩
      next =>
        split at stopped
        next failed => exact ⟨id, p, read, by simp [Pipeline.isRearmed, failed], rearms stopped⟩
        next =>
          exfalso
          repeat' split at stopped
          all_goals cases stopped

private theorem submit_overflow (stopped : (e.submit job).2 = .overflow) :
    (e.resolve job).2 = .overflow := by
  unfold submit at stopped
  split at stopped
  next => cases stopped
  next => cases stopped
  next resolved => rw [resolved]
  next =>
    exfalso
    dsimp only at stopped
    split at stopped
    next => cases stopped
    next =>
      unfold sendChain unschedule at stopped
      repeat' split at stopped
      all_goals cases stopped

/-- No pipeline that is to be armed again would be armed beyond the supported years. -/
def DatesFit (e : Engine) : Prop :=
  ∀ id row, e.store.pipelines.get? id = some row → row.record.isRearmed = true →
    row.record.InReach e.now row.jobIds.length

structure Fits (e : Engine) : Prop where
  recordKey : ∀ id row, e.store.pipelines.get? id = some row → row.record.id = id
  dates : e.DatesFit

private theorem Fits.submit_ne (fits : e.Fits) (job : Job) : (e.submit job).2 ≠ .overflow := by
  intro stopped
  obtain ⟨id, p, read, rearms, overflows⟩ := resolve_overflow (submit_overflow stopped)
  obtain ⟨row, found, loads⟩ := Store.getPipeline_ok read
  have few := Store.length_loadPipeline loads
  obtain ⟨jobs, _, rfl⟩ := Store.loadPipeline_ok loads
  have last := (fits.dates id row found rearms).fewer few
  exact Pipeline.recycle_inReach (last.congr rfl) overflows

/-- A pipeline that was armed again is as it was admitted, so it can be armed once more. -/
theorem Fits.submitted (fits : e.Fits) (submitted : Submitted e job e' submission) : e'.Fits := by
  have unwritten {store : Store} {written : List Job} {pool : Pool}
      (edited : Store.Edited e.store store written []) :
      Fits { e with store := store, pool := pool } := by
    have same : store.pipelines = e.store.pipelines := edited.pipelines
    refine ⟨?_, ?_⟩
    · rw [same]
      exact fits.recordKey
    · intro id row found
      rw [same] at found
      exact fits.dates id row found
  cases submitted with
  | unsent => exact fits
  | refused _ _ _ _ _ edited => exact unwritten edited
  | sent _ _ _ _ _ _ _ _ edited => exact unwritten edited
  | rearmed id p store jobs records _ owner read holds edited _ pendingRecords =>
    obtain ⟨r, stored, loads⟩ := Store.getPipeline_ok read
    obtain ⟨_, _, rfl⟩ := Store.loadPipeline_ok loads
    have key := fits.recordKey id r stored
    constructor
    · intro id' row found
      obtain ⟨r', before, _, ⟨kept, _⟩ | ⟨q, _, same, replaced⟩⟩ := edited.record_cases found
      · rw [kept]
        exact fits.recordKey id' r' before
      · rw [replaced]
        exact same
    · intro id' row found rearms
      obtain ⟨r', before, same, ⟨kept, _⟩ | ⟨q, member, id, replaced⟩⟩ := edited.record_cases found
      · rw [kept] at rearms ⊢
        rw [same]
        exact fits.dates id' r' before rearms
      · -- The record that was written has the options of the one before.
        obtain ⟨own, _, details⟩ := pendingRecords q member
        obtain rfl : id' = _ := id.symm.trans (own.trans key)
        rw [stored] at before
        cases before
        rw [same, replaced]
        exact (fits.dates _ r stored holds).congr details

theorem Fits.submit (fits : e.Fits) (job : Job) : (e.submit job).1.Fits :=
  fits.submitted (submit_submitted (Prod.eta (e.submit job)).symm)

private theorem Fits.submitAll_ne (fits : e.Fits) (count : Nat) (due : List Job) :
    (e.submitAll count due).2 ≠ .overflow := by
  induction due generalizing e count with
  | nil => simp [submitAll]
  | cons job rest ih =>
    have fits₁ := fits.submit job
    have within := fits.submit_ne job
    rw [submitAll]
    split
    next done =>
      rw [done] at fits₁
      exact ih fits₁ (count + 1)
    next done =>
      rw [done] at fits₁
      exact ih fits₁ count
    next done =>
      rw [done] at fits₁
      exact ih fits₁ count
    next done => exact absurd (congrArg Prod.snd done) within
    next => simp

private theorem Fits.scheduleTick_ne (fits : e.Fits) : e.scheduleTick.2 ≠ .overflow := by
  unfold scheduleTick
  split
  next => simp
  next due _ => exact fits.submitAll_ne 0 due

private theorem Fits.dispatchTick_ne (fits : e.Fits) : e.dispatchTick.2 ≠ .overflow := by
  unfold dispatchTick
  split
  next => simp
  next queue _ =>
    dsimp only
    split
    next => simp
    next job _ =>
      have popped : Fits { e with queue := queue } := ⟨fits.recordKey, fits.dates⟩
      have within := popped.submit_ne job
      split
      next => simp
      next => simp
      next => simp
      next done => exact absurd (congrArg Prod.snd done) within
      next => simp

private theorem Fits.resumeTick_ne (fits : e.Fits) {t : TickState} (runs : t ≠ .overflow) :
    (e.resumeTick t).2 ≠ .overflow := by
  unfold resumeTick
  split
  next count due =>
    split
    next => simp
    next => exact fits.submitAll_ne count due
  next => exact runs

end Engine

namespace System

variable {s : System} {now : Instant} {registry : Registry} {queueCapacity : Nat} {unit : TimeUnit}
  {workers poolCapacity : Nat} {actions : List Action}

/-- Whatever was admitted and whatever has happened, no tick leaves the supported years if no date
does that arming a pipeline again would compute. -/
theorem no_overflow (made : new? now registry queueCapacity unit workers poolCapacity = some s)
    (distinct : Id.Distinct (s.run actions).engine.issued)
    (fit : (s.run actions).engine.DatesFit) :
    (s.run actions).engine.scheduleTick.2 ≠ .overflow ∧
    (s.run actions).engine.dispatchTick.2 ≠ .overflow ∧
    (∀ t, t ≠ .overflow → ((s.run actions).engine.resumeTick t).2 ≠ .overflow) ∧
    ∀ job, ((s.run actions).engine.submit job).2 ≠ .overflow := by
  have accounted := accounted_run made distinct
  have fits : (s.run actions).engine.Fits := by
    refine ⟨fun id row found => ?_, fit⟩
    exact (accounted.recorded.recordKey id row found).1
  refine ⟨fits.scheduleTick_ne, fits.dispatchTick_ne, ?_, fits.submit_ne⟩
  intro t runs
  exact fits.resumeTick_ne runs

/-- The pipeline is disabled, so the first tick that submits one of its jobs arms it again. -/
def delayedRequest (delay : UInt64) (runNow : Bool) : CreatePipeline :=
  { exampleRequest with disable := true, runNow := runNow, options := ⟨none, delay, false⟩ }

def delayed (delay : UInt64) (runNow : Bool) : System :=
  start.run [.createPipeline (delayedRequest delay runNow)]

theorem no_overflow_delayed :
    ((delayed 60 false).engine.scheduleTick.2 ≠ .overflow ∧
      (delayed 60 false).engine.dispatchTick.2 ≠ .overflow ∧
      (∀ t, t ≠ .overflow → ((delayed 60 false).engine.resumeTick t).2 ≠ .overflow) ∧
      ∀ job, ((delayed 60 false).engine.submit job).2 ≠ .overflow) ∧
    (delayed 60 false).engine.store.pipelines.values.map
      (fun row => (row.record.isRearmed, row.jobIds.length)) = [(true, 2)] := by
  refine ⟨no_overflow new_start (Id.distinct_of_le (by decide +kernel)) ?_, by decide +kernel⟩
  have all : ∀ row ∈ (delayed 60 false).engine.store.pipelines.values,
      row.record.InReach .epoch row.jobIds.length := by decide +kernel
  intro id row found _
  exact all row (Table.mem_values_of_get? found)

def isOverflow : TickState → Bool
  | .overflow => true
  | _ => false

private theorem eq_of_isOverflow {t : TickState} (overflows : isOverflow t = true) :
    t = .overflow := by
  unfold isOverflow at overflows
  split at overflows
  next => rfl
  next => cases overflows

/-- The pipeline is admitted, and the first tick that submits one of its jobs crashes. -/
theorem overflow_delayed :
    (∀ runNow,
      (start.engine.createPipeline (delayedRequest 10000000000000 runNow)).2.isOk = true) ∧
    (delayed 10000000000000 false).engine.scheduleTick.2 = .overflow ∧
    (delayed 10000000000000 true).engine.dispatchTick.2 = .overflow :=
  ⟨by decide +kernel, eq_of_isOverflow (by decide +kernel), eq_of_isOverflow (by decide +kernel)⟩

end System

end Rota
