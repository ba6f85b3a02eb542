import Rota.TimeUnit
/-! The configuration of an engine.
A configuration says how many workers run, how much waits for them, and how often the scheduler
looks. A valid one has no size and no interval of zero, and intervals of at most 32 bits. -/
namespace Rota

inductive LogFormat where
  | text
  | json
deriving DecidableEq

namespace LogFormat

def all : List LogFormat := [text, json]

def name : LogFormat → String
  | text => "text"
  | json => "json"

end LogFormat

inductive Setting where
  | workers
  | queueCapacity
  | jobQueueCapacity
  | timeoutUnit
  | storagePollingInterval
  | jobQueuePollingInterval
  | logFormat
  | manifest
deriving DecidableEq

namespace Setting

def all : List Setting :=
  [workers, queueCapacity, jobQueueCapacity, timeoutUnit, storagePollingInterval,
    jobQueuePollingInterval, logFormat, manifest]

def words : Setting → List String
  | workers => ["workers"]
  | queueCapacity => ["queue", "capacity"]
  | jobQueueCapacity => ["job", "queue", "capacity"]
  | timeoutUnit => ["timeout", "unit"]
  | storagePollingInterval => ["storage", "polling", "interval"]
  | jobQueuePollingInterval => ["job", "queue", "polling", "interval"]
  | logFormat => ["log", "format"]
  | manifest => ["manifest"]

def name (s : Setting) : String := String.intercalate "_" s.words

def option (s : Setting) : String := String.intercalate "-" s.words

def environmentName (s : Setting) : String := s.name.map Char.toUpper

end Setting

structure Config where
  /-- As many as there are processors when none is given. -/
  workers : Option UInt64
  /-- Room in the channel of the pool; two works for each worker when none is given. -/
  queueCapacity : Option UInt64
  jobQueueCapacity : UInt64
  /-- The unit of timeouts and polling intervals. -/
  timeoutUnit : TimeUnit
  storagePollingInterval : UInt64
  jobQueuePollingInterval : UInt64
  logFormat : LogFormat
  /-- The path of a manifest to admit at the start. -/
  manifest : Option String

inductive ConfigError where
  | zero (setting : Setting)
  | longInterval
deriving DecidableEq

def ConfigError.message : ConfigError → String
  | .zero setting => setting.name ++ " must be greater than 0"
  | .longInterval => "polling intervals must fit in 32 bits"

namespace Config

def default : Config where
  workers := none
  queueCapacity := none
  jobQueueCapacity := 100
  timeoutUnit := .second
  storagePollingInterval := 60
  jobQueuePollingInterval := 1
  logFormat := .text
  manifest := none

def workerCount (c : Config) (processors : UInt64) : UInt64 := c.workers.getD processors

/-- Twice the workers, counted in 64 bits, when no capacity is given. -/
def poolCapacity (c : Config) (processors : UInt64) : UInt64 :=
  c.queueCapacity.getD (c.workerCount processors * 2)

/-- Milliseconds in an interval, of which the lower 32 bits count. -/
def pollingMillis (c : Config) (interval : UInt64) : Nat :=
  interval.toUInt32.toNat * c.timeoutUnit.millis

def storagePollingMillis (c : Config) : Nat := c.pollingMillis c.storagePollingInterval

def jobQueuePollingMillis (c : Config) : Nat := c.pollingMillis c.jobQueuePollingInterval

def requirePositive (s : Setting) (value : UInt64) : Except ConfigError Unit :=
  if value = 0 then .error (.zero s) else .ok ()

def fitsPolling (interval : UInt64) : Bool := interval.toNat < UInt32.size

def validate (c : Config) (processors : UInt64) : Except ConfigError Unit := do
  requirePositive .workers (c.workerCount processors)
  requirePositive .queueCapacity (c.poolCapacity processors)
  requirePositive .jobQueueCapacity c.jobQueueCapacity
  requirePositive .storagePollingInterval c.storagePollingInterval
  requirePositive .jobQueuePollingInterval c.jobQueuePollingInterval
  if fitsPolling c.storagePollingInterval && fitsPolling c.jobQueuePollingInterval then .ok ()
  else .error .longInterval

end Config

end Rota
