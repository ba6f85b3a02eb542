import Rota.Proofs.Calls
import Rota.Proofs.Id
import Rota.Proofs.Writes
/-! Works as scripts: the accesses to storage that a work makes, one after the other, each depending
on the answers to those before. What a script reads and writes lies within a realm, and whatever
happens outside that realm makes no difference to it. -/
namespace Rota

inductive Access where
  | getPipeline (id : Id)
  | updatePipeline (p : Pipeline)
  | updateJob (job : Job)
  /-- The finished run of a job is recorded, under a new identifier. -/
  | record (job : Job) (now : Instant)

@[reducible]
def Access.Answer : Access → Type
  | getPipeline _ => Except StoreError Pipeline
  | updatePipeline _ | updateJob _ | record _ _ => Except StoreError Unit

inductive Script where
  | finished
  | access (a : Access) (next : a.Answer → Script)
  | send (result : JobResult) (next : Script)

structure Storage where
  store : Store
  issued : Nat

namespace Storage

def write (s : Storage) : Except StoreError Store → Storage × Except StoreError Unit
  | .ok store => ({ s with store := store }, .ok ())
  | .error e => (s, .error e)

def access (s : Storage) : (a : Access) → Storage × a.Answer
  | .getPipeline id => (s, s.store.getPipeline id)
  | .updatePipeline p => s.write (s.store.updatePipeline p)
  | .updateJob job => s.write (s.store.updateJob job)
  | .record job now => { s with issued := s.issued + 1 }.write
      (s.store.createTransaction (.ofJob (.issued s.issued) job now))

end Storage

/-- What a transaction says, whatever its identifier is. -/
def Transaction.anonymous (t : Transaction) : Transaction := { t with id := ⟨0⟩ }

namespace Access

def cost : Access → Nat
  | record _ _ => 1
  | getPipeline _ | updatePipeline _ | updateJob _ => 0

def recorded (s : Storage) : Access → List Transaction
  | record job now => if s.store.isClosed then [] else [.ofJob ⟨0⟩ job now]
  | getPipeline _ | updatePipeline _ | updateJob _ => []

/-- A pipeline that is read has the identifier under which it was looked up. -/
def Fits : (a : Access) → a.Answer → Prop
  | getPipeline id, answer => ∀ p, answer = .ok p → p.id = id
  | updatePipeline _, _ | updateJob _, _ | record _ _, _ => True

end Access

def Storage.save (s : Storage) (result : JobResult) : Storage :=
  (s.write (s.store.createResult result)).1

namespace Script

/-- What a script leaves behind that nobody disturbs. -/
structure Outcome where
  storage : Storage
  sent : List JobResult
  recorded : List Transaction

def runOut (s : Storage) : Script → Outcome
  | finished => ⟨s, [], []⟩
  | access a next =>
    let outcome := (next (s.access a).2).runOut (s.access a).1
    { outcome with recorded := a.recorded s ++ outcome.recorded }
  | send result next =>
    let outcome := next.runOut s
    { outcome with sent := result :: outcome.sent }

end Script

structure Realm where
  jobs : List Id
  pipelines : List Id

def Access.Inside (r : Realm) : Access → Prop
  | getPipeline id => id ∈ r.pipelines
  | updatePipeline p => p.id ∈ r.pipelines
  | updateJob job | record job _ => job.id ∈ r.jobs

def Script.Inside (r : Realm) : Nat → Script → Prop
  | _, finished => True
  | n, access a next => a.Inside r ∧ a.cost ≤ n ∧
      ∀ answer, a.Fits answer → (next answer).Inside r (n - a.cost)
  | n, send result next => result.jobId ∈ r.jobs ∧ next.Inside r n

namespace Realm

def Reads (r : Realm) (s : Store) (id : Id) : Prop :=
  id ∈ r.jobs ∨ ∃ p ∈ r.pipelines, ∃ row, s.pipelines.get? p = some row ∧ id ∈ row.jobIds

structure Agree (r : Realm) (s s' : Store) : Prop where
  isClosed : s'.isClosed = s.isClosed
  jobs (id : Id) (reads : r.Reads s id) : s'.jobs.get? id = s.jobs.get? id
  pipelines (p : Id) (own : p ∈ r.pipelines) : s'.pipelines.get? p = s.pipelines.get? p
  results (id : Id) (own : id ∈ r.jobs) : s'.results.get? id = s.results.get? id

structure Keeps (r : Realm) (s s' : Store) : Prop where
  isClosed : s'.isClosed = s.isClosed
  jobs (id : Id) (other : id ∉ r.jobs) : s'.jobs.get? id = s.jobs.get? id
  pipelines (p : Id) (other : p ∉ r.pipelines) : s'.pipelines.get? p = s.pipelines.get? p
  listed (p : Id) : (s'.pipelines.get? p).map (·.jobIds) = (s.pipelines.get? p).map (·.jobIds)
  results (id : Id) (other : id ∉ r.jobs) : s'.results.get? id = s.results.get? id
  transactions : ∃ new, s'.transactions.rows = s.transactions.rows ++ new ∧
    ∀ row ∈ new, row.2.id = row.1 ∧ row.2.jobId ∈ r.jobs

def Filed (r : Realm) (s : Store) : Prop :=
  ∀ p ∈ r.pipelines, ∀ row, s.pipelines.get? p = some row → row.record.id = p

/-- What `q` writes does not matter to `r`. -/
structure Aside (r q : Realm) (s : Store) : Prop where
  jobs (id : Id) (reads : r.Reads s id) : id ∉ q.jobs
  pipelines (p : Id) (own : p ∈ r.pipelines) : p ∉ q.pipelines

variable {r q : Realm} {s s' s'' : Store} {id : Id}

namespace Agree

theorem refl (s : Store) : r.Agree s s := ⟨rfl, fun _ _ => rfl, fun _ _ => rfl, fun _ _ => rfl⟩

theorem reads (agree : r.Agree s s') : r.Reads s' id ↔ r.Reads s id := by
  unfold Reads
  refine or_congr Iff.rfl (exists_congr fun p => and_congr_right fun own => ?_)
  rw [agree.pipelines p own]

theorem trans (first : r.Agree s s') (second : r.Agree s' s'') : r.Agree s s'' where
  isClosed := second.isClosed.trans first.isClosed
  jobs id reads := (second.jobs id (first.reads.mpr reads)).trans (first.jobs id reads)
  pipelines p own := (second.pipelines p own).trans (first.pipelines p own)
  results id own := (second.results id own).trans (first.results id own)

theorem symm (agree : r.Agree s s') : r.Agree s' s where
  isClosed := agree.isClosed.symm
  jobs id reads := (agree.jobs id (agree.reads.mp reads)).symm
  pipelines p own := (agree.pipelines p own).symm
  results id own := (agree.results id own).symm

end Agree

private theorem reads_of_listed
    (listed : ∀ p, (s'.pipelines.get? p).map (·.jobIds) = (s.pipelines.get? p).map (·.jobIds)) :
    r.Reads s' id ↔ r.Reads s id := by
  have lists (t : Store) (p : Id) : (∃ row, t.pipelines.get? p = some row ∧ id ∈ row.jobIds) ↔
      ∃ ids, (t.pipelines.get? p).map (·.jobIds) = some ids ∧ id ∈ ids := by
    cases t.pipelines.get? p <;> simp
  unfold Reads
  refine or_congr Iff.rfl (exists_congr fun p => and_congr_right fun _ => ?_)
  rw [lists s', lists s, listed]

namespace Keeps

theorem refl (s : Store) : r.Keeps s s :=
  ⟨rfl, fun _ _ => rfl, fun _ _ => rfl, fun _ => rfl, fun _ _ => rfl, [], by simp, by simp⟩

theorem trans (first : r.Keeps s s') (second : r.Keeps s' s'') : r.Keeps s s'' where
  isClosed := second.isClosed.trans first.isClosed
  jobs id other := (second.jobs id other).trans (first.jobs id other)
  pipelines p other := (second.pipelines p other).trans (first.pipelines p other)
  listed p := (second.listed p).trans (first.listed p)
  results id other := (second.results id other).trans (first.results id other)
  transactions := by
    obtain ⟨new, rows, own⟩ := first.transactions
    obtain ⟨new', rows', own'⟩ := second.transactions
    refine ⟨new ++ new', by rw [rows', rows, List.append_assoc], fun row member => ?_⟩
    exact (List.mem_append.mp member).elim (own row) (own' row)

theorem agree (keeps : q.Keeps s s') (aside : r.Aside q s) : r.Agree s s' where
  isClosed := keeps.isClosed
  jobs id reads := keeps.jobs id (aside.jobs id reads)
  pipelines p own := keeps.pipelines p (aside.pipelines p own)
  results id own := keeps.results id (aside.jobs id (.inl own))

end Keeps

def join (r q : Realm) : Realm := ⟨r.jobs ++ q.jobs, r.pipelines ++ q.pipelines⟩

theorem Keeps.mono (keeps : r.Keeps s s') (jobs : r.jobs ⊆ q.jobs)
    (pipelines : r.pipelines ⊆ q.pipelines) : q.Keeps s s' where
  isClosed := keeps.isClosed
  jobs id other := keeps.jobs id fun own => other (jobs own)
  pipelines p other := keeps.pipelines p fun own => other (pipelines own)
  listed := keeps.listed
  results id other := keeps.results id fun own => other (jobs own)
  transactions := by
    obtain ⟨new, rows, own⟩ := keeps.transactions
    exact ⟨new, rows, fun row member => ⟨(own row member).1, jobs (own row member).2⟩⟩

theorem Aside.of_listed (aside : r.Aside q s)
    (listed : ∀ p, (s'.pipelines.get? p).map (·.jobIds) = (s.pipelines.get? p).map (·.jobIds)) :
    r.Aside q s' :=
  ⟨fun id reads => aside.jobs id ((reads_of_listed listed).mp reads), aside.pipelines⟩

theorem Filed.of_agree (filed : r.Filed s) (agree : r.Agree s s') : r.Filed s' := by
  intro p own row found
  rw [agree.pipelines p own] at found
  exact filed p own row found

end Realm

namespace Storage

variable {r q : Realm} {s s' : Storage} {a : Access} {k : Nat}

/-- The next `k` identifiers are new and no two of them are the same. -/
structure Roomy (s : Storage) (k : Nat) : Prop where
  distinct : Id.Distinct (s.issued + k)
  unused (n : Nat) (later : s.issued ≤ n) (soon : n < s.issued + k) :
    s.store.transactions.get? (.issued n) = none

private theorem updateJob_eq (s : Store) (job : Job) : s.updateJob job =
    if s.isClosed then .error .closed
    else if (s.jobs.get? job.id).isSome then .ok (s.withJob job)
    else .error (.notFound .job job.id) := by
  unfold Store.updateJob Store.ensureOpen
  split <;> rfl

theorem updatePipeline_eq (s : Store) (p : Pipeline) : s.updatePipeline p =
    if s.isClosed then .error .closed
    else match s.pipelines.get? p.id with
      | some row => .ok (s.withRecord row p)
      | none => .error (.notFound .pipeline p.id) := by
  unfold Store.updatePipeline Store.ensureOpen
  split <;> rfl

private theorem createTransaction_eq (s : Store) (t : Transaction) : s.createTransaction t =
    if s.isClosed then .error .closed
    else .ok { s with transactions := s.transactions.put t.id t } := by
  unfold Store.createTransaction Store.ensureOpen
  split <;> rfl

private theorem listed_withRecord {store : Store} {p : Pipeline} {row : PipelineRow}
    (found : store.pipelines.get? p.id = some row) (id : Id) :
    ((store.withRecord row p).pipelines.get? id).map (·.jobIds) =
      (store.pipelines.get? id).map (·.jobIds) := by
  have reads := congrArg (Option.map PipelineRow.jobIds)
    (Table.get?_put store.pipelines p.id { row with record := { p with jobs := [] } } id)
  by_cases same : id = p.id
  · rw [if_pos same] at reads
    rw [same, found]
    exact same ▸ reads
  · rw [if_neg same] at reads
    exact reads

inductive Left (s : Storage) : Access → Store → Prop
  | same (a : Access) (none_ : a.recorded s = []) : Left s a s.store
  | job (job : Job) : Left s (.updateJob job) (s.store.withJob job)
  | pipeline (p : Pipeline) (row : PipelineRow) (found : s.store.pipelines.get? p.id = some row) :
      Left s (.updatePipeline p) (s.store.withRecord row p)
  | transaction (job : Job) (now : Instant) (open_ : s.store.isClosed = false) :
      Left s (.record job now) { s.store with
        transactions := s.store.transactions.put (.issued s.issued)
          (.ofJob (.issued s.issued) job now) }

private theorem access_left (s : Storage) (a : Access) : s.Left a (s.access a).1.store := by
  cases a with
  | getPipeline id => exact .same _ rfl
  | updateJob job =>
    unfold access write
    dsimp only
    split
    next written =>
      rw [(Store.updateJob_ok written).2]
      exact .job job
    next => exact .same _ rfl
  | updatePipeline p =>
    unfold access write
    dsimp only
    split
    next written =>
      obtain ⟨row, found, rfl⟩ := Store.updatePipeline_eq written
      exact .pipeline p row found
    next => exact .same _ rfl
  | record job now =>
    unfold access
    dsimp only
    rw [createTransaction_eq]
    split
    next closed => exact .same _ (by simp [Access.recorded, closed])
    next open_ => exact .transaction job now (by simpa using open_)

private theorem isClosed_access (s : Storage) (a : Access) :
    (s.access a).1.store.isClosed = s.store.isClosed := by
  have left := s.access_left a
  generalize (s.access a).1.store = store at left
  cases left <;> rfl

private theorem issued_access (s : Storage) (a : Access) :
    (s.access a).1.issued = s.issued + a.cost := by
  cases a
  all_goals
    unfold access write
    dsimp only
    try split
  all_goals rfl

theorem access_keeps (inside : a.Inside r) (roomy : s.Roomy (a.cost + k)) :
    r.Keeps s.store (s.access a).1.store := by
  have left := s.access_left a
  generalize (s.access a).1.store = store at left
  cases left with
  | same => exact .refl _
  | job job =>
    refine { Realm.Keeps.refl s.store with jobs := fun id other => ?_ }
    exact Table.get?_put_ne _ _ fun same => other (same ▸ inside)
  | pipeline p row found =>
    refine { Realm.Keeps.refl s.store with
      pipelines := fun id other => ?_, listed := listed_withRecord found }
    exact Table.get?_put_ne _ _ fun same => other (same ▸ inside)
  | transaction job now open_ =>
    have unused := roomy.unused s.issued (Nat.le_refl _) (by dsimp only [Access.cost]; omega)
    refine { Realm.Keeps.refl s.store with
      transactions := ⟨_, Table.rows_put_absent _ unused, fun row member => ?_⟩ }
    rw [List.mem_singleton.mp member]
    exact ⟨rfl, inside⟩

theorem access_roomy (roomy : s.Roomy (a.cost + k)) : (s.access a).1.Roomy k := by
  refine ⟨by rw [issued_access, Nat.add_assoc]; exact roomy.distinct, fun n later soon => ?_⟩
  rw [issued_access] at later soon
  have unused := roomy.unused n (by omega) (by omega)
  have left := s.access_left a
  generalize (s.access a).1.store = store at left
  cases left with
  | same | job | pipeline => exact unused
  | transaction job now =>
    refine (Table.get?_put_ne _ _ fun same => ?_).trans unused
    have first : s.issued < s.issued + (1 + k) := by omega
    have equal := roomy.distinct.inj (by simpa [Access.cost, Nat.add_assoc] using soon) first same
    simp only [Access.cost] at later
    omega

/-- An access appends what it records to the transactions. -/
theorem access_recorded (roomy : s.Roomy (a.cost + k)) :
    (s.access a).1.store.transactions.values.map Transaction.anonymous =
      s.store.transactions.values.map Transaction.anonymous ++ a.recorded s := by
  have left := s.access_left a
  generalize (s.access a).1.store = store at left
  cases left with
  | same _ none_ => rw [none_, List.append_nil]
  | job | pipeline => exact (List.append_nil _).symm
  | transaction job now open_ =>
    have unused := roomy.unused s.issued (Nat.le_refl _) (by dsimp only [Access.cost]; omega)
    simp only [Table.values, Table.rows_put_absent _ unused, Access.recorded, open_]
    simp [Transaction.anonymous, Transaction.ofJob]

theorem access_filed (filed : r.Filed s.store) : r.Filed (s.access a).1.store := by
  have left := s.access_left a
  generalize (s.access a).1.store = store at left
  cases left with
  | same | job | transaction => exact filed
  | pipeline p row found =>
    intro id own other there
    rw [show (s.store.withRecord row p).pipelines.get? id = _ from
      Table.get?_put s.store.pipelines p.id { row with record := { p with jobs := [] } } id] at there
    split at there
    next same =>
      cases there
      exact same.symm
    next => exact filed id own other there

theorem access_fits (inside : a.Inside r) (filed : r.Filed s.store) : a.Fits (s.access a).2 := by
  cases a with
  | getPipeline id =>
    intro p read
    obtain ⟨row, found, loaded⟩ := Store.getPipeline_ok read
    obtain ⟨jobs, _, rfl⟩ := Store.loadPipeline_ok loaded
    exact filed id inside row found
  | updatePipeline | updateJob | record => exact trivial

/-! ### What an access sees -/

private theorem getPipeline_agree {store store' : Store} {id : Id} (agree : r.Agree store store')
    (own : id ∈ r.pipelines) : store'.getPipeline id = store.getPipeline id := by
  unfold Store.getPipeline Store.ensureOpen Store.loadPipeline
  rw [agree.isClosed, agree.pipelines id own]
  cases found : store.pipelines.get? id with
  | none => rfl
  | some row =>
    have jobs : row.jobIds.filterMap store'.jobs.get? = row.jobIds.filterMap store.jobs.get? :=
      List.filterMap_congr fun j listed => agree.jobs j (.inr ⟨id, own, row, found, listed⟩)
    dsimp only
    rw [jobs]

private theorem agree_withJob {store store' : Store} (agree : r.Agree store store') (job : Job) :
    r.Agree (store.withJob job) (store'.withJob job) where
  isClosed := agree.isClosed
  jobs id reads := by
    have same := agree.jobs id reads
    simp only [Store.withJob, Table.get?_put, same]
  pipelines := agree.pipelines
  results := agree.results

private theorem agree_withRecord {store store' : Store} (agree : r.Agree store store')
    {p : Pipeline}
    {row : PipelineRow} (found : store.pipelines.get? p.id = some row) :
    r.Agree (store.withRecord row p) (store'.withRecord row p) where
  isClosed := agree.isClosed
  jobs id reads := agree.jobs id ((Realm.reads_of_listed (listed_withRecord found)).mp reads)
  pipelines id own := by
    have same := agree.pipelines id own
    simp only [Store.withRecord, Table.get?_put, same]
  results := agree.results

/-- An access answers the same in two stores that agree within its realm, and it leaves them so. -/
theorem access_agree (inside : a.Inside r) (agree : r.Agree s.store s'.store) :
    (s'.access a).2 = (s.access a).2 ∧ r.Agree (s.access a).1.store (s'.access a).1.store := by
  cases a with
  | getPipeline id => exact ⟨getPipeline_agree agree inside, agree⟩
  | updateJob job =>
    have found := agree.jobs job.id (.inl inside)
    unfold access
    dsimp only
    rw [updateJob_eq, updateJob_eq, agree.isClosed, found]
    split
    next => exact ⟨rfl, agree⟩
    next =>
      split
      next => exact ⟨rfl, agree_withJob agree job⟩
      next => exact ⟨rfl, agree⟩
  | updatePipeline p =>
    have found := agree.pipelines p.id inside
    unfold access
    dsimp only
    rw [updatePipeline_eq, updatePipeline_eq, agree.isClosed, found]
    split
    next => exact ⟨rfl, agree⟩
    next =>
      split
      next row there => exact ⟨rfl, agree_withRecord agree there⟩
      next => exact ⟨rfl, agree⟩
  | record job now =>
    unfold access
    dsimp only
    rw [createTransaction_eq, createTransaction_eq, agree.isClosed]
    split
    next => exact ⟨rfl, agree⟩
    next => exact ⟨rfl, ⟨rfl, agree.jobs, agree.pipelines, agree.results⟩⟩

private theorem recorded_of_isClosed (same : s'.store.isClosed = s.store.isClosed) (a : Access) :
    a.recorded s' = a.recorded s := by
  cases a with
  | record job now =>
    unfold Access.recorded
    rw [same]
  | getPipeline | updatePipeline | updateJob => rfl

/-! ### Storing results -/

private theorem save_eq (s : Storage) (result : JobResult) : s.save result =
    if s.store.isClosed then s
    else { s with store := { s.store with
      results := s.store.results.put result.jobId result } } := by
  unfold save Store.createResult Store.ensureOpen
  split <;> rfl

private theorem isClosed_save (s : Storage) (result : JobResult) :
    (s.save result).store.isClosed = s.store.isClosed := by
  rw [save_eq]
  split <;> rfl

/-- Nothing but the results changes. -/
theorem save_aside (s : Storage) (result : JobResult) : (s.save result).issued = s.issued ∧
    (s.save result).store.pipelines = s.store.pipelines ∧
    (s.save result).store.transactions = s.store.transactions := by
  rw [save_eq]
  split <;> exact ⟨rfl, rfl, rfl⟩

theorem save_keeps {result : JobResult} (own : result.jobId ∈ r.jobs) :
    r.Keeps s.store (s.save result).store := by
  rw [save_eq]
  split
  next => exact .refl _
  next =>
    refine { Realm.Keeps.refl s.store with results := fun id other => ?_ }
    exact Table.get?_put_ne _ _ fun same => other (same ▸ own)

theorem save_agree (agree : r.Agree s.store s'.store) (result : JobResult) :
    r.Agree (s.save result).store (s'.save result).store := by
  rw [save_eq, save_eq, agree.isClosed]
  split
  next => exact agree
  next =>
    refine ⟨agree.isClosed, agree.jobs, agree.pipelines, fun id own => ?_⟩
    simp only [Table.get?_put, agree.results id own]

/-- To store a result and to make an access can be exchanged. -/
theorem access_save (s : Storage) (result : JobResult) (a : Access) :
    (s.save result).access a = ((s.access a).1.save result, (s.access a).2) := by
  rw [save_eq, save_eq, isClosed_access]
  split
  next => rfl
  next =>
    cases a with
    | getPipeline id => rfl
    | updateJob job =>
      unfold access
      dsimp only
      rw [updateJob_eq, updateJob_eq]
      dsimp only
      split
      next => rfl
      next => split <;> rfl
    | updatePipeline p =>
      unfold access
      dsimp only
      rw [updatePipeline_eq, updatePipeline_eq]
      dsimp only
      split
      next => rfl
      next => split <;> rfl
    | record job now =>
      unfold access
      dsimp only
      rw [createTransaction_eq, createTransaction_eq]
      split <;> rfl

end Storage

namespace Script

variable {r : Realm} {s s' : Storage} {n : Nat}

theorem runOut_save (script : Script) (s : Storage) (result : JobResult) :
    script.runOut (s.save result) =
      { script.runOut s with storage := (script.runOut s).storage.save result } := by
  induction script generalizing s with
  | finished => rfl
  | access a next ih =>
    have recorded := Storage.recorded_of_isClosed (s.isClosed_save result) a
    unfold runOut
    dsimp only
    rw [Storage.access_save, ih, recorded]
  | send r next ih =>
    unfold runOut
    dsimp only
    rw [ih]

/-- A script does the same with two storages that agree within its realm, and leaves them so. -/
theorem runOut_agree {script : Script} (inside : script.Inside r n) (filed : r.Filed s.store)
    (agree : r.Agree s.store s'.store) :
    r.Agree (script.runOut s).storage.store (script.runOut s').storage.store ∧
      (script.runOut s').sent = (script.runOut s).sent ∧
      (script.runOut s').recorded = (script.runOut s).recorded := by
  induction script generalizing s s' n with
  | finished => exact ⟨agree, rfl, rfl⟩
  | access a next ih =>
    obtain ⟨own, _, rest⟩ := inside
    obtain ⟨answer, after⟩ := Storage.access_agree own agree
    obtain ⟨final, sent, recorded⟩ :=
      ih (s.access a).2 (rest _ (Storage.access_fits own filed)) (Storage.access_filed filed) after
    have now := Storage.recorded_of_isClosed agree.isClosed a
    unfold runOut
    dsimp only
    rw [answer, now, recorded]
    exact ⟨final, sent, rfl⟩
  | send r next ih =>
    obtain ⟨final, sent, recorded⟩ := ih inside.2 filed agree
    exact ⟨final, congrArg (r :: ·) sent, recorded⟩

end Script

end Rota
