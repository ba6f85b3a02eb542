import Rota.Config
import Rota.Engine
import Rota.Proofs.Answer
/-! Starting an engine from a configuration.
Validation bounds the polling intervals from both sides and the sizes only from below. The queue and
the channel of the pool cannot be made for more than `JobQueue.maxCapacity` items, and the capacity
that is planned for two works a worker is counted in 64 bits, so the largest sizes pass validation
and still do not give an engine. -/
namespace Rota

private theorem JobQueue.isSome_new? {capacity : Nat} :
    (JobQueue.new? capacity).isSome = true ↔ 0 < capacity ∧ capacity ≤ JobQueue.maxCapacity := by
  unfold JobQueue.new?
  split <;> simp_all

private theorem Pool.isSome_new? {unit : TimeUnit} {workers capacity : Nat} :
    (Pool.new? unit workers capacity).isSome = true ↔ capacity ≤ JobQueue.maxCapacity := by
  have one_le : 1 ≤ JobQueue.maxCapacity := by unfold JobQueue.maxCapacity; omega
  unfold Pool.new?
  split
  · next fits => simpa using Nat.le_trans (Nat.le_max_left _ _) fits
  · next large =>
    rw [Nat.max_le] at large
    simp only [Option.isSome_none, Bool.false_eq_true, false_iff]
    intro fits
    exact large ⟨fits, one_le⟩

namespace Config

variable {c : Config} {processors : UInt64}

structure IsValid (c : Config) (processors : UInt64) : Prop where
  workers : 0 < (c.workerCount processors).toNat
  pool : 0 < (c.poolCapacity processors).toNat
  queue : 0 < c.jobQueueCapacity.toNat
  storage : 0 < c.storagePollingInterval.toNat ∧ c.storagePollingInterval.toNat < UInt32.size
  jobQueue : 0 < c.jobQueuePollingInterval.toNat ∧ c.jobQueuePollingInterval.toNat < UInt32.size

/-- Both loops wait for the whole of the interval that is given for them, and for some time. -/
structure PollsExactly (c : Config) : Prop where
  storage : c.storagePollingMillis = c.storagePollingInterval.toNat * c.timeoutUnit.millis
  storage_pos : 0 < c.storagePollingMillis
  jobQueue : c.jobQueuePollingMillis = c.jobQueuePollingInterval.toNat * c.timeoutUnit.millis
  jobQueue_pos : 0 < c.jobQueuePollingMillis

structure Starts (c : Config) (processors : UInt64) : Prop where
  queue : (JobQueue.new? c.jobQueueCapacity.toNat).isSome = true
  pool : (Pool.new? c.timeoutUnit (c.workerCount processors).toNat
    (c.poolCapacity processors).toNat).isSome = true
  twofold : c.queueCapacity = none →
    (c.poolCapacity processors).toNat = 2 * (c.workerCount processors).toNat

/-- The capacity of the pool, counted without a limit. -/
def plannedCapacity (c : Config) (processors : UInt64) : Nat :=
  match c.queueCapacity with
  | some capacity => capacity.toNat
  | none => 2 * (c.workerCount processors).toNat

/-- There can be a queue and a channel of these sizes. -/
structure IsModerate (c : Config) (processors : UInt64) : Prop where
  queue : c.jobQueueCapacity.toNat ≤ JobQueue.maxCapacity
  pool : c.plannedCapacity processors ≤ JobQueue.maxCapacity

private theorem requirePositive_ok_iff {s : Setting} {value : UInt64} {u : Unit} :
    requirePositive s value = .ok u ↔ 0 < value.toNat := by
  unfold requirePositive
  split
  · next zero => simp [zero]
  · next nonzero =>
    have positive : value.toNat ≠ 0 := fun zero => nonzero (UInt64.toNat_inj.mp zero)
    simp only [true_iff]
    omega

theorem validate_ok_iff : c.validate processors = .ok () ↔ c.IsValid processors := by
  unfold validate
  simp only [check_ok_iff, requirePositive_ok_iff]
  constructor
  · rintro ⟨workers, pool, queue, storage, jobQueue, last⟩
    split at last
    · next fits =>
      rw [Bool.and_eq_true, fitsPolling, fitsPolling, decide_eq_true_eq, decide_eq_true_eq] at fits
      exact ⟨workers, pool, queue, ⟨storage, fits.1⟩, ⟨jobQueue, fits.2⟩⟩
    · cases last
  · intro valid
    refine ⟨valid.workers, valid.pool, valid.queue, valid.storage.1, valid.jobQueue.1, ?_⟩
    simp [fitsPolling, valid.storage.2, valid.jobQueue.2]

private theorem pollingMillis_of_lt {interval : UInt64} (fits : interval.toNat < UInt32.size) :
    c.pollingMillis interval = interval.toNat * c.timeoutUnit.millis := by
  unfold pollingMillis
  rw [UInt64.toNat_toUInt32, Nat.mod_eq_of_lt fits]

private theorem pollingMillis_pos {interval : UInt64} (positive : 0 < interval.toNat)
    (fits : interval.toNat < UInt32.size) : 0 < c.pollingMillis interval := by
  rw [pollingMillis_of_lt fits]
  apply Nat.mul_pos positive
  cases c.timeoutUnit <;> decide

private theorem IsValid.pollsExactly (valid : c.IsValid processors) : c.PollsExactly where
  storage := pollingMillis_of_lt valid.storage.2
  storage_pos := pollingMillis_pos valid.storage.1 valid.storage.2
  jobQueue := pollingMillis_of_lt valid.jobQueue.2
  jobQueue_pos := pollingMillis_pos valid.jobQueue.1 valid.jobQueue.2

private theorem toNat_poolCapacity (twofold : c.queueCapacity = none →
      (c.poolCapacity processors).toNat = 2 * (c.workerCount processors).toNat) :
    (c.poolCapacity processors).toNat = c.plannedCapacity processors := by
  unfold plannedCapacity
  split
  · next given => rw [poolCapacity, given, Option.getD_some]
  · next absent => exact twofold absent

/-- Twice the workers does not wrap where a channel of that size can be made. -/
theorem IsModerate.twofold (moderate : c.IsModerate processors) (absent : c.queueCapacity = none) :
    (c.poolCapacity processors).toNat = 2 * (c.workerCount processors).toNat := by
  have planned := moderate.pool
  unfold plannedCapacity at planned
  rw [absent] at planned
  have small : 2 * (c.workerCount processors).toNat < 2 ^ 64 :=
    Nat.lt_of_le_of_lt planned (by decide)
  rw [poolCapacity, absent, Option.getD_none, UInt64.toNat_mul, Nat.mul_comm]
  exact Nat.mod_eq_of_lt small

private theorem IsValid.starts_iff (valid : c.IsValid processors) :
    c.Starts processors ↔ c.IsModerate processors := by
  constructor
  · intro starts
    refine ⟨(JobQueue.isSome_new?.mp starts.queue).2, ?_⟩
    exact toNat_poolCapacity starts.twofold ▸ Pool.isSome_new?.mp starts.pool
  · intro moderate
    refine ⟨JobQueue.isSome_new?.mpr ⟨valid.queue, moderate.queue⟩, ?_, moderate.twofold⟩
    rw [Pool.isSome_new?, toNat_poolCapacity moderate.twofold]
    exact moderate.pool

/-- A valid configuration polls as it says, and the engine starts as it says exactly if a queue and
a channel of the sizes that are asked for can be made. -/
theorem validated_starts (valid : c.validate processors = .ok ()) :
    c.PollsExactly ∧ (c.Starts processors ↔ c.IsModerate processors) := by
  rw [validate_ok_iff] at valid
  exact ⟨valid.pollsExactly, valid.starts_iff⟩

theorem validated_starts_default :
    (default.PollsExactly ∧ (default.Starts 8 ↔ default.IsModerate 8)) ∧ default.IsModerate 8 :=
  ⟨validated_starts rfl, by constructor <;> decide +kernel⟩

def wideQueue : Config := { default with workers := some 1, jobQueueCapacity := 2305843009213693952 }

def manyWorkers : Config := { default with workers := some 9223372036854775809 }

/-- The first cannot be started for its queue; the second plans a channel for two works. -/
theorem validated_unstarted :
    (wideQueue.validate 8 = .ok () ∧ JobQueue.new? wideQueue.jobQueueCapacity.toNat = none) ∧
      manyWorkers.validate 8 = .ok () ∧ (manyWorkers.poolCapacity 8).toNat = 2 := by
  refine ⟨⟨rfl, ?_⟩, rfl, rfl⟩
  decide +kernel

end Config

end Rota
