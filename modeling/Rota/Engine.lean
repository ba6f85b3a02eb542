import Rota.Feed
import Rota.Pool
import Rota.Store
/-! The engine: store, job queue, pool, registry, event feed and clock.
Everything the engine does is a function of this state. The clock has a wall time, which records
carry, and a count of milliseconds, by which deadlines go. -/
namespace Rota

structure Engine where
  /-- The wall clock. -/
  now : Instant
  /-- Milliseconds since the engine was made. -/
  time : Nat
  registry : Registry
  store : Store
  queue : JobQueue
  pool : Pool
  feed : Feed
  /-- How many identifiers have been issued. -/
  issued : Nat
  /-- The results of the execution that a caller waited for, once it has ended. -/
  returned : Option (List JobResult × Option StoreError)

inductive EngineError where
  | poolStopped
  | notAPipeline (jobId : Id)
  | brokenChain (pipelineId : Id)
  | store (error : StoreError)
deriving DecidableEq

def EngineError.message : EngineError → String
  | .poolStopped => "worker pool is stopped"
  | .notAPipeline id => "job " ++ id.text ++ " is not part of a pipeline"
  | .brokenChain id => "pipeline " ++ id.text ++ " has a broken job chain"
  | .store e => e.message

namespace Engine

def new? (now : Instant) (registry : Registry) (queueCapacity : Nat) (unit : TimeUnit)
    (workers poolCapacity : Nat) : Option Engine := do
  let queue ← JobQueue.new? queueCapacity
  let pool ← Pool.new? unit workers poolCapacity
  some ⟨now, 0, registry, .empty, queue, pool, .new, 0, none⟩

def issueId (e : Engine) : Id × Engine := (Id.issued e.issued, { e with issued := e.issued + 1 })

/-- Lets time pass; the wall clock stops at the end of the supported years. -/
def advance (e : Engine) (millis : Nat) : Engine :=
  { e with now := (e.now.addMillis? millis).getD e.now, time := e.time + millis }

def publish (e : Engine) (topic : String) (payload : Json) : Except StoreError Engine := do
  e.store.ensureOpen
  .ok { e with feed := e.feed.publish ⟨topic, payload⟩ }

def announce (e : Engine) (topic : String) (payload : Json) : Engine :=
  match e.publish topic payload with
  | .ok e => e
  | .error _ => e

def start (e : Engine) : Engine := { e with pool := e.pool.start }

def cancel (e : Engine) : Engine := { e with pool := e.pool.cancel }

def withStore (e : Engine) (s : Store) : Engine := { e with store := s }

end Engine

end Rota
