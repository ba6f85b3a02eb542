import Rota.Job
/-! Jobs linked for one run.
A chain is a job with the jobs that run behind it. The link is made for a run and is not part of
the job's record. -/
namespace Rota

inductive Chain where
  | single (job : Job)
  | link (job : Job) (next : Chain)

namespace Chain

def head : Chain → Job
  | single job => job
  | link job _ => job

def next? : Chain → Option Chain
  | single _ => none
  | link _ next => some next

def toList : Chain → List Job
  | single job => [job]
  | link job next => job :: next.toList

def ofNext (job : Job) : Option Chain → Chain
  | none => single job
  | some next => link job next

def ofList? : List Job → Option Chain
  | [] => none
  | job :: rest => some (ofNext job (ofList? rest))

def withHead (c : Chain) (job : Job) : Chain := ofNext job c.next?

def detach (c : Chain) : Chain := single c.head

/-- Links jobs in the given order, from the last one on; what hangs behind each of them is dropped. -/
def relink? (cs : List Chain) : Option Chain :=
  cs.reverse.foldl (fun next c => some (ofNext c.head next)) none

def apart : Chain → List Chain
  | single job => [single job]
  | link job next => single job :: next.apart

/-- Links each job to the chain of the one behind it; the last one keeps what it has. -/
def linkAll : List Chain → List Chain
  | [] => []
  | c :: rest =>
    match linkAll rest with
    | [] => [c]
    | next :: later => link c.head next :: next :: later

end Chain

end Rota
