import Rota.Proofs.Reach
import Rota.Proofs.Recycle
/-! The run times of a pipeline that is armed again.
Each job runs one delay after the one before it. The delays are summed up in 64 bits while the jobs
are armed one after the other, so where the date of the last job is not supported the sum may have
wrapped, or some jobs have been armed when it stops. Where the last date is supported, all of them
are exact. -/
namespace Rota

theorem Instant.addSeconds?_zero (t : Instant) : t.addSeconds? 0 = some t := by
  cases t with
  | mk second nano inRange nano_lt leap_end =>
    by_cases leap : 1000000000 ≤ nano
    · simp [addSeconds?, addNanos?, inLeapSecond, leap, of?, inRange, nano_lt, leap_end leap]
    · have part : (nano : Int) % 1000000000 = nano := by omega
      have whole : (nano : Int) / 1000000000 = 0 := by omega
      simp [addSeconds?, addNanos?, inLeapSecond, leap, carry?, of?, part, whole, inRange, nano_lt]

namespace Pipeline

variable {p q : Pipeline} {now base : Instant}

/-- The pipeline `q` is `p`, armed so that the first job runs at `base` and each further job a
delay, of one second at least, after the one before it. Nothing is left of the last run, and all
else is as it was. -/
structure ArmedFrom (p q : Pipeline) (base : Instant) : Prop where
  count : q.jobs.length = p.jobs.length
  job : ∀ i (h : i < p.jobs.length), ∃ t,
    base.addSeconds? (i * max p.options.delayBetweenTask.toNat 1 : Nat) = some t ∧
    q.jobs[i]? = some { p.jobs[i] with
      status := .pending
      runAt := some t
      scheduledAt := none
      startedAt := none
      completedAt := none
      duration := none }
  record : q = { p with
    jobs := q.jobs
    status := .pending
    runAt := q.jobs.head?.bind (·.runAt)
    startedAt := none
    completedAt := none
    duration := none }

/-- Arming the pipeline gives exact run times for all of its jobs, or an error that leaves the
pipeline as it was. -/
def RecyclesWhole (p : Pipeline) (now : Instant) : Prop :=
  (∃ base q, p.base now = .ok base ∧ p.recycle now = (q, .ok ()) ∧ p.ArmedFrom q base) ∨
    ∃ e, p.recycle now = (p, .error (.error e))

theorem toNat_delay (p : Pipeline) : p.delay.toNat = max p.options.delayBetweenTask.toNat 1 := by
  unfold delay
  rw [UInt64.toNat_max]
  rfl

private theorem span_of_isSome {seconds : Nat} (moved : (base.addSeconds? seconds).isSome = true) :
    (seconds : Int) ≤ maxSpan := by
  have last := (Instant.isSome_addSeconds?_iff (Int.natCast_nonneg _)).mp moved
  have inRange := base.inRange
  unfold maxSpan
  omega

/-- The stagger of a position whose date is supported has not wrapped. -/
theorem stagger_of_isSome {delay : UInt64} {position : Nat} (positive : 1 ≤ delay.toNat)
    (moved : (base.addSeconds? (delay.toNat * position : Nat)).isSome = true) :
    stagger delay position = (delay.toNat * position : Nat) ∧
      ¬(stagger delay position < -maxSpan || maxSpan < stagger delay position) = true := by
  have spanned := span_of_isSome moved
  have exact : stagger delay position = (delay.toNat * position : Nat) := by
    apply stagger_eq positive
    unfold maxSpan at spanned
    omega
  refine ⟨exact, ?_⟩
  rw [exact, Bool.or_eq_true, decide_eq_true_eq, decide_eq_true_eq]
  unfold maxSpan at spanned ⊢
  omega

private theorem recycleJobs_exact {delay : UInt64} {position : Nat} {jobs : List Job}
    (positive : 1 ≤ delay.toNat)
    (moves : ∀ i < jobs.length,
      (base.addSeconds? (delay.toNat * (position + i) : Nat)).isSome = true) :
    ∃ armed, recycleJobs base delay position jobs = (armed, .ok ()) ∧
      armed.length = jobs.length ∧
      ∀ i (h : i < jobs.length), ∃ t,
        base.addSeconds? (delay.toNat * (position + i) : Nat) = some t ∧
        armed[i]? = some (jobs[i].reset (some t)) := by
  induction jobs generalizing position with
  | nil => exact ⟨[], rfl, rfl, fun i h => absurd h (Nat.not_lt_zero i)⟩
  | cons j rest ih =>
    have first : (base.addSeconds? (delay.toNat * position : Nat)).isSome = true :=
      moves 0 (Nat.zero_lt_succ _)
    obtain ⟨seconds, isSpan⟩ := stagger_of_isSome positive first
    obtain ⟨t, moved⟩ := Option.isSome_iff_exists.mp first
    have shift (i : Nat) : position + 1 + i = position + (i + 1) := by omega
    obtain ⟨armed, done, count, each⟩ := @ih (position + 1) fun i lt => by
      rw [shift]
      exact moves (i + 1) (Nat.succ_lt_succ lt)
    refine ⟨j.reset (some t) :: armed, ?_, by simp [count], ?_⟩
    · rw [recycleJobs]
      dsimp only
      rw [if_neg isSpan, seconds, moved, done]
    · rintro (_ | i) lt
      · exact ⟨t, moved, rfl⟩
      · obtain ⟨u, date, row⟩ := each i (Nat.lt_of_succ_lt_succ lt)
        exact ⟨u, shift i ▸ date, row⟩

/-- Arming succeeds with exact run times exactly if the date of the last job is supported. -/
theorem recycle_exact_iff (moved : p.base now = .ok base) :
    (∃ q, p.recycle now = (q, .ok ()) ∧ p.ArmedFrom q base) ↔ p.InReach now p.jobs.length := by
  constructor
  · rintro ⟨q, _, armed⟩ base' moved'
    obtain rfl : base = base' := Except.ok.inj (moved.symm.trans moved')
    cases count : p.jobs.length with
    | zero =>
      have inRange := base.inRange
      rw [Instant.isSome_addSeconds?_iff (Int.natCast_nonneg _)]
      omega
    | succ last =>
      obtain ⟨t, date, _⟩ := armed.job last (by omega)
      rw [toNat_delay, Nat.add_sub_cancel, Nat.mul_comm, date]
      rfl
  · intro inReach
    have moves : ∀ i < p.jobs.length,
        (base.addSeconds? (p.delay.toNat * (0 + i) : Nat)).isSome = true := fun i lt =>
      Instant.isSome_addSeconds?_of_le (Nat.mul_le_mul_left _ (by omega)) (inReach base moved)
    obtain ⟨armed, done, count, each⟩ := recycleJobs_exact p.one_le_delay moves
    obtain ⟨interval, readable, adjusted⟩ := bind_ok moved
    refine ⟨_, recycle_of readable adjusted done, ⟨count, fun i lt => ?_, rfl⟩⟩
    obtain ⟨t, date, row⟩ := each i lt
    rw [Nat.zero_add, toNat_delay, Nat.mul_comm] at date
    exact ⟨t, date, row⟩

/-- When the date of the last job is supported, or not even the first can be computed, arming is
exact or has no effect. It has an effect if the first date can be computed. -/
theorem recycle_whole (inReach : p.InReach now p.jobs.length) :
    p.RecyclesWhole now ∧ ((p.base now).isOk = true → (p.recycle now).2 = .ok ()) := by
  cases moved : p.base now with
  | error e => exact ⟨Or.inr ⟨e, recycle_error moved⟩, nofun⟩
  | ok base =>
    obtain ⟨q, arms, armed⟩ := (recycle_exact_iff moved).mpr inReach
    exact ⟨Or.inl ⟨base, q, moved, arms, armed⟩, fun _ => congrArg Prod.snd arms⟩

/-- The first job is armed before any date can fail. -/
theorem head_recycle {j : Job} (moved : p.base now = .ok base) (first : p.jobs.head? = some j) :
    (p.recycle now).1.jobs.head? = some (j.reset (some base)) := by
  obtain ⟨rest, split⟩ : ∃ rest, p.jobs = j :: rest := List.head?_eq_some_iff.mp first
  have head : (recycleJobs base p.delay 0 p.jobs).1.head? = some (j.reset (some base)) := by
    have none : stagger p.delay 0 = 0 := by simp [stagger]
    rw [split, recycleJobs]
    simp [none, Instant.addSeconds?_zero, maxSpan]
  obtain ⟨interval, readable, adjusted⟩ := bind_ok moved
  cases done : recycleJobs base p.delay 0 p.jobs with
  | mk armed answer =>
    rw [done] at head
    cases answer <;> simpa only [recycle, readable, bind, Except.bind, adjusted, done] using head

/-- Unless the first job is armed for this date already, no other pipeline is armed exactly or left
as it was. -/
theorem RecyclesWhole.inReach (whole : p.RecyclesWhole now)
    (ran : ∀ base j, p.base now = .ok base → p.jobs.head? = some j → j.reset (some base) ≠ j) :
    p.InReach now p.jobs.length := by
  intro base moved
  obtain ⟨base', q, moved', arms, armed⟩ | ⟨e, unchanged⟩ := whole
  · exact (recycle_exact_iff moved').mp ⟨q, arms, armed⟩ base moved
  · cases first : p.jobs.head? with
    | none =>
      have inRange := base.inRange
      rw [List.head?_eq_none_iff.mp first, Instant.isSome_addSeconds?_iff (Int.natCast_nonneg _)]
      simp only [List.length_nil]
      omega
    | some j =>
      have head := head_recycle moved first
      rw [unchanged, first] at head
      exact absurd (Option.some.inj head).symm (ran base j moved first)

def ranOnce (delay : UInt64) : Pipeline :=
  let first := Job.new (.issued 1) "a" "noop" [] none
  let second := Job.new (.issued 2) "b" "noop" [] none
  { new (.issued 0) "p" [(first.markStarted .epoch).markCompleted .epoch, second] none with
    options := ⟨some "1 min", delay, false⟩
    status := .inProgress }

theorem recycle_whole_ranOnce :
    (ranOnce 60).InReach .epoch 2 ∧ (ranOnce 60).RecyclesWhole .epoch ∧
      ((ranOnce 60).recycle .epoch).2 = .ok () := by
  have inReach : (ranOnce 60).InReach .epoch (ranOnce 60).jobs.length := by decide +kernel
  obtain ⟨whole, arms⟩ := recycle_whole inReach
  exact ⟨inReach, whole, arms (by decide +kernel)⟩

/-- The delay is too long to be a span of time, which shows when the first job is armed already; it
is so long that the second job is armed for the second before the first; and it leads out of the
supported years. -/
theorem recycle_partly_ranOnce :
    ¬(ranOnce 9223372036854775808).RecyclesWhole .epoch ∧
    ¬(ranOnce 18446744073709551615).RecyclesWhole .epoch ∧
    ¬(ranOnce 10000000000000).RecyclesWhole .epoch := by
  have ran (delay : UInt64) : ∀ base j, (ranOnce delay).base .epoch = .ok base →
      (ranOnce delay).jobs.head? = some j → j.reset (some base) ≠ j := by
    rintro base j - first armed
    cases first
    have same : Status.pending = Status.completed := congrArg Job.status armed
    cases same
  refine ⟨fun whole => ?_, fun whole => ?_, fun whole => ?_⟩
  all_goals exact absurd (whole.inReach (ran _)) (by decide +kernel)

end Pipeline

end Rota
