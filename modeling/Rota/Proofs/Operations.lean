import Rota.Feed
import Rota.Proofs.Accord
import Rota.Proofs.Grants
import Rota.Proofs.InstantText
import Rota.Proofs.Numerals
import Rota.Proofs.Recycle
/-! The operations of the store, one after the other.
An operation that fails leaves everything as it was, although some write more than one row, and
although one reads transactions when it has begun to erase. Behind a closed store only those
operations succeed that touch no record. -/
namespace Rota

/-! ### Filing -/

def Transaction.IsFinite (t : Transaction) : Prop := ∀ x ∈ t.duration, x.IsFinite

def Binary64.read? (s : List Char) : Option Binary64 :=
  match Json.Numeral.read? s with
  | some (.real x) => some x
  | _ => none

def Transaction.decode (t : Transaction) : Except StoreError Transaction :=
  let read := do
    let createdAt ← Instant.ofLenient? t.createdAt.chars
    let startedAt ← t.startedAt.mapM fun date => Instant.ofLenient? date.chars
    let completedAt ← t.completedAt.mapM fun date => Instant.ofLenient? date.chars
    let duration ← t.duration.mapM fun x => Binary64.read? x.chars
    some { t with createdAt, startedAt, completedAt, duration }
  match read with
  | some t => .ok t
  | none => .error .unreadable

private theorem Transaction.decode_eq {t : Transaction} (finite : t.IsFinite) :
    t.decode = .ok t.reread := by
  have date (date : Option Instant) :
      date.mapM (fun date => Instant.ofLenient? date.chars) = some date := by
    cases date with
    | none => rfl
    | some date => simp [Instant.ofLenient?_chars]
  have number : t.duration.mapM (fun x => Binary64.read? x.chars) =
      some (t.duration.map Binary64.reread) := by
    cases duration : t.duration with
    | none => rfl
    | some x =>
      have reads := (finite x (by simp [duration])).reread
      simp [Binary64.read?, reads]
  unfold decode
  rw [date, date, number, Instant.ofLenient?_chars]
  rfl

def Grant.finite : Grant where
  job _ := True
  pipeline _ := True
  result _ := True
  transaction := Transaction.IsFinite
  eraseJob _ := True
  erasePipeline _ := True

namespace Store

variable {s s' : Store} {id : Id} {p : Pipeline} {now : Instant}

/-- Every row lies under the identifier of its record, and no two lie under one. -/
structure Filed (s : Store) : Prop extends s.Indexed where
  pipelines : s.pipelines.Keyed
  transactions : s.transactions.Keyed
  finite : ∀ t ∈ s.transactions.values, t.IsFinite

theorem filed_empty : empty.Filed where
  keyed := Table.keyed_empty
  jobKey := by simp [empty]
  pipelines := Table.keyed_empty
  recordKey := by simp [empty]
  transactions := Table.keyed_empty
  finite := by simp [empty, Table.values, Table.empty]

private theorem jobKey_putJobs {t : Table Job} (jobs : List Job)
    (jobKey : ∀ id j, t.get? id = some j → j.id = id) :
    ∀ id j, (putJobs t jobs).get? id = some j → j.id = id := by
  intro id j found
  rcases putJobs_cases found with ⟨_, own⟩ | ⟨before, _⟩
  · exact own
  · exact jobKey id j before

private theorem recordKey_put {t : Table PipelineRow} {row : PipelineRow}
    (recordKey : ∀ id row, t.get? id = some row → row.record.id = id) (own : row.record.id = id) :
    ∀ id' row', (t.put id row).get? id' = some row' → row'.record.id = id' := by
  intro id' row' found
  rcases Table.get?_put_cases found with ⟨same, rfl⟩ | ⟨_, before⟩
  · exact own.trans same.symm
  · exact recordKey id' row' before

theorem Write.filed (write : Write .finite s s') (filed : s.Filed) : s'.Filed := by
  cases write with
  | job j =>
    exact { filed with
      keyed := filed.keyed.put j.id j
      jobKey := jobKey_putJobs [j] filed.jobKey }
  | eraseJob id =>
    exact { filed with
      keyed := filed.keyed.erase id
      jobKey := fun id' j found => filed.jobKey id' j (Table.get?_of_erase found).2
      transactions := List.Nodup.sublist (List.Sublist.map _ List.filter_sublist) filed.transactions
      finite := fun t inside => filed.finite t (Table.mem_eraseIf inside).1 }
  | pipeline p =>
    exact { filed with
      keyed := Keyed.putJobs filed.keyed
      jobKey := jobKey_putJobs p.jobs filed.jobKey
      pipelines := filed.pipelines.put p.id _
      recordKey := recordKey_put filed.recordKey rfl }
  | record p row found =>
    exact { filed with
      pipelines := filed.pipelines.put p.id _
      recordKey := recordKey_put filed.recordKey rfl }
  | erasePipeline id row found =>
    exact { filed with
      keyed := filed.keyed.eraseAll row.jobIds
      jobKey := fun id' j found => filed.jobKey id' j (Table.get?_of_eraseAll found).2
      pipelines := filed.pipelines.erase id
      recordKey := fun id' row' found => filed.recordKey id' row' (Table.get?_of_erase found).2 }
  | result | eraseResult => exact { filed with }
  | transaction t may =>
    exact { filed with
      transactions := filed.transactions.put t.id t
      finite := Table.forall_put filed.finite may }
  | close => exact { filed with }

theorem Writes.filed (writes : Writes .finite s s') (filed : s.Filed) : s'.Filed :=
  writes.keep (fun _ _ write => write.filed) filed

/-! ### Deleting a job -/

/-- The identifiers of the transactions of a job. Each row has to be read to find them. -/
def orphans (id : Id) : List (Id × Transaction) → Except StoreError (List Id)
  | [] => .ok []
  | (key, row) :: rest => do
    let t ← row.decode
    let later ← orphans id rest
    .ok (if t.jobId = id then key :: later else later)

/-- Deletes a job step by step: its row, its result, and then its transactions, which are read to be
found. -/
def deleteJobInSteps (s : Store) (id : Id) : Store × Except StoreError Unit :=
  if s.isClosed then (s, .error .closed)
  else if s.jobs.contains id then
    let s := { s with jobs := s.jobs.erase id }
    let s := { s with results := s.results.erase id }
    match orphans id s.transactions.rows with
    | .ok keys => ({ s with transactions := keys.foldl Table.erase s.transactions }, .ok ())
    | .error e => (s, .error e)
  else (s, .error (.notFound .job id))

private theorem orphans_eq {rows : List (Id × Transaction)}
    (finite : ∀ row ∈ rows, row.2.IsFinite) :
    orphans id rows = .ok ((rows.filter fun row => row.2.jobId = id).map (·.1)) := by
  induction rows with
  | nil => rfl
  | cons row rest ih =>
    have first := Transaction.decode_eq (finite row List.mem_cons_self)
    have later := ih fun row inside => finite row (List.mem_cons_of_mem _ inside)
    have same : row.2.reread.jobId = row.2.jobId := rfl
    rw [orphans]
    simp only [first, later, bind, Except.bind, same, List.filter_cons]
    split <;> simp_all

private theorem eraseAll_filter {α : Type} {t : Table α} (keyed : t.Keyed) (gone : α → Bool) :
    ((t.rows.filter fun row => gone row.2).map (·.1)).foldl Table.erase t = t.eraseIf gone := by
  have rows := Table.rows_eraseAll ((t.rows.filter fun row => gone row.2).map (·.1)) t
  have same : (t.rows.filter fun row => row.1 ∉ (t.rows.filter fun row => gone row.2).map (·.1)) =
      t.rows.filter fun row => !gone row.2 := by
    refine List.filter_congr fun row inside => ?_
    have only : row.1 ∈ (t.rows.filter fun row => gone row.2).map (·.1) ↔ gone row.2 = true := by
      constructor
      · intro listed
        obtain ⟨other, member, key⟩ := List.mem_map.mp listed
        obtain ⟨stored, lost⟩ := List.mem_filter.mp member
        have first := keyed.get?_of_mem row inside
        have second := keyed.get?_of_mem other stored
        rw [key, first] at second
        rwa [Option.some.inj second]
      · exact fun lost => List.mem_map.mpr ⟨row, List.mem_filter.mpr ⟨inside, lost⟩, rfl⟩
    simp [only]
  rw [same] at rows
  exact congrArg Table.mk rows

/-- Once it has begun to erase, deleting a job cannot fail. -/
theorem deleteJobInSteps_eq (filed : s.Filed) : s.deleteJobInSteps id =
    match s.deleteJob id with
    | .ok s' => (s', .ok ())
    | .error e => (s, .error e) := by
  have found : orphans id s.transactions.rows =
      .ok ((s.transactions.rows.filter fun row => row.2.jobId = id).map (·.1)) :=
    orphans_eq fun row inside => filed.finite row.2 (List.mem_map_of_mem inside)
  have erased := eraseAll_filter filed.transactions fun t => decide (t.jobId = id)
  unfold deleteJobInSteps deleteJob ensureOpen
  cases s.isClosed with
  | true => rfl
  | false =>
    cases s.jobs.contains id with
    | true => simp [found, erased, bind, Except.bind]
    | false => rfl

/-! ### Arming a pipeline -/

private theorem recyclePipeline_closed (closed : s.isClosed = true) (p : Pipeline) (now : Instant) :
    ∃ q stop, s.recyclePipeline p now = (s, q, .error stop) := by
  unfold recyclePipeline
  rcases p.recycle now with ⟨armed, (e | _) | _⟩
  · exact ⟨_, _, rfl⟩
  · exact ⟨_, _, rfl⟩
  · -- The first write fails, of a job or, if there is none, of the record.
    refine ⟨armed, .error .closed, ?_⟩
    cases jobs : armed.jobs with
    | nil => simp [updateJobs, updatePipeline, ensureOpen, closed, jobs, bind, Except.bind]
    | cons j rest => simp [updateJobs, updateJob, ensureOpen, closed, jobs, bind, Except.bind]

/-- A pipeline that was read from the tables is armed and stored as a whole, or not at all. -/
theorem recyclePipeline_loaded {row : PipelineRow} {q : Pipeline} {stop : Stop StoreError}
    (indexed : s.Indexed) (found : s.pipelines.get? id = some row)
    (loads : s.loadPipeline row = .ok p)
    (failed : s.recyclePipeline p now = (s', q, .error stop)) : s' = s := by
  cases closed : s.isClosed with
  | true =>
    obtain ⟨_, _, same⟩ := recyclePipeline_closed closed p now
    exact (Prod.mk.inj (failed.symm.trans same)).1
  | false =>
    obtain ⟨own, jobs⟩ := indexed.loaded found loads
    unfold recyclePipeline at failed
    rcases arms : p.recycle now with ⟨armed, (e | _) | _⟩
    all_goals simp only [arms] at failed
    · exact (Prod.mk.inj failed).1.symm
    · exact (Prod.mk.inj failed).1.symm
    · have known : ∀ k ∈ armed.jobs, (s.jobs.get? k.id).isSome = true := by
        intro k inside
        obtain ⟨j, member, t, rfl⟩ := forall₂_mem_right (Pipeline.recycle_ok arms).1 inside
        obtain ⟨_, here, _⟩ := jobs j member
        exact Option.isSome_of_eq_some here
      have key : armed.id = id := (Pipeline.recycle_ok arms).2.1.trans own
      rw [updateJobs_ok closed known] at failed
      simp [updatePipeline, ensureOpen, closed, key, found, bind, Except.bind] at failed

private theorem recycleJob_closed (closed : s.isClosed = true) (j : Job) (now : Instant) :
    ∃ e, s.recycleJob j now = .error e := by
  cases recycled : s.recycleJob j now with
  | error e => exact ⟨e, rfl⟩
  | ok answer =>
    obtain ⟨interval, _, rest⟩ := bind_ok recycled
    cases interval
    all_goals
      obtain ⟨_, _, last⟩ := bind_ok rest
      obtain ⟨_, updated, _⟩ := bind_ok last
      simp [updateJob, ensureOpen, closed, bind, Except.bind] at updated

private theorem updateResult_ok {r : JobResult} (updated : s.updateResult r = .ok s') :
    s' = { s with results := s.results.put r.jobId r } := by
  obtain ⟨_, _, written⟩ := bind_ok updated
  split at written
  next =>
    cases written
    rfl
  next => cases written

theorem refused {α : Type} (closed : s.isClosed = true) (next : Unit → Except StoreError α) :
    (s.ensureOpen >>= next) = .error .closed := by
  simp [ensureOpen, closed, bind, Except.bind]

theorem readJobs_closed (closed : s.isClosed = true) : s.readJobs = .error .closed :=
  refused closed _

end Store

/-! ### Operations -/

structure Repository where
  store : Store
  feed : Feed

inductive Operation where
  | createJob (j : Job)
  | getJob (id : Id)
  | getJobs (status : Status)
  | getDueJobs (now : Instant)
  | updateJob (j : Job)
  | deleteJob (id : Id)
  | getJobsByPipeline (id : Id)
  | createPipeline (p : Pipeline)
  | getPipeline (id : Id)
  | getPipelines (status : Status)
  | updatePipeline (p : Pipeline)
  | deletePipeline (id : Id)
  | createResult (r : JobResult)
  | getResult (id : Id)
  | updateResult (r : JobResult)
  | deleteResult (id : Id)
  | createTransaction (t : Transaction)
  | getTransactions (status : Status)
  | getTransactionsByJob (id : Id)
  | publish (topic : String) (payload : Json)
  | checkHealth
  | close
  | recycleJob (j : Job) (now : Instant)
  | recyclePipeline (p : Pipeline) (now : Instant)

namespace Repository

def empty : Repository := ⟨.empty, .new⟩

def write (r : Repository) : Except StoreError Store → Repository × Except (Stop StoreError) Unit
  | .ok s => ({ r with store := s }, .ok ())
  | .error e => (r, .error (.error e))

def read {α : Type} (r : Repository) (answer : Except StoreError α) :
    Repository × Except (Stop StoreError) Unit :=
  (r, (answer.map fun _ => ()).mapError .error)

/-- Carries out an operation; of what it reads only matters whether it can be read. -/
def perform (r : Repository) : Operation → Repository × Except (Stop StoreError) Unit
  | .createJob j => r.write (r.store.createJob j)
  | .getJob id => r.read (r.store.getJob id)
  | .getJobs status => r.read (r.store.getJobs status)
  | .getDueJobs now => r.read (r.store.getDueJobs now)
  | .updateJob j => r.write (r.store.updateJob j)
  | .deleteJob id =>
    let (s, answer) := r.store.deleteJobInSteps id
    ({ r with store := s }, answer.mapError .error)
  | .getJobsByPipeline id => r.read (r.store.getJobsByPipeline id)
  | .createPipeline p => r.write (r.store.createPipeline p)
  | .getPipeline id => r.read (r.store.getPipeline id)
  | .getPipelines status => r.read (r.store.getPipelines status)
  | .updatePipeline p => r.write (r.store.updatePipeline p)
  | .deletePipeline id => r.write (r.store.deletePipeline id)
  | .createResult result => r.write (r.store.createResult result)
  | .getResult id => r.read (r.store.getResult id)
  | .updateResult result => r.write (r.store.updateResult result)
  | .deleteResult id => r.write (r.store.deleteResult id)
  | .createTransaction t => r.write (r.store.createTransaction t)
  | .getTransactions status => r.read (r.store.getTransactions status)
  | .getTransactionsByJob id => r.read (r.store.getTransactionsByJob id)
  | .publish topic payload =>
    match r.store.ensureOpen with
    | .ok () => ({ r with feed := r.feed.publish ⟨topic, payload⟩ }, .ok ())
    | .error e => (r, .error (.error e))
  | .checkHealth => (r, .ok ())
  | .close => ({ r with store := r.store.close }, .ok ())
  | .recycleJob j now => r.write ((r.store.recycleJob j now).map (·.1))
  | .recyclePipeline p now =>
    let (s, _, answer) := r.store.recyclePipeline p now
    ({ r with store := s }, answer)

def run (r : Repository) (operations : List Operation) : Repository :=
  operations.foldl (fun r o => (r.perform o).1) r

end Repository

namespace Operation

/-- A transaction that is stored has a finite duration or none. Durations that are not finite are
not covered: they have no text of their own. -/
def IsSound : Operation → Prop
  | createTransaction t => t.IsFinite
  | _ => True

/-- A pipeline that is to be armed has been read from the tables. -/
def IsCurrent (s : Store) : Operation → Prop
  | recyclePipeline p _ => ∃ row ∈ s.pipelines.values, s.loadPipeline row = .ok p
  | _ => True

end Operation

namespace Repository

variable {r : Repository} {o : Operation} {operations : List Operation}

theorem run_append (r : Repository) (first second : List Operation) :
    r.run (first ++ second) = (r.run first).run second := List.foldl_append

private theorem write_writes {answer : Except StoreError Store}
    (writes : ∀ s, answer = .ok s → Store.Writes .finite r.store s) :
    Store.Writes .finite r.store (r.write answer).1.store := by
  cases answer with
  | ok s => exact writes s rfl
  | error e => exact .refl _

theorem perform_writes (sound : o.IsSound) (filed : r.store.Filed) :
    Store.Writes .finite r.store (r.perform o).1.store := by
  cases o with
  | createJob j =>
    refine write_writes fun s created => ?_
    obtain ⟨_, rfl⟩ := Store.createJob_ok created
    exact (Store.Write.job _ j trivial).writes
  | updateJob j => exact write_writes fun s updated => Store.updateJob_writes trivial updated
  | deleteJob id =>
    simp only [perform, Store.deleteJobInSteps_eq filed]
    cases deleted : r.store.deleteJob id with
    | ok s =>
      obtain ⟨_, rfl⟩ := Store.deleteJob_ok deleted
      exact (Store.Write.eraseJob _ id trivial).writes
    | error e => exact .refl _
  | createPipeline p =>
    refine write_writes fun s created => ?_
    obtain ⟨_, rfl⟩ := Store.createPipeline_ok created
    exact (Store.Write.pipeline _ p trivial fun _ _ => trivial).writes
  | updatePipeline p => exact write_writes fun s updated => Store.updatePipeline_writes updated
  | deletePipeline id =>
    refine write_writes fun s deleted => ?_
    obtain ⟨row, found, rfl⟩ := Store.deletePipeline_ok deleted
    exact (Store.Write.erasePipeline _ id row found trivial).writes
  | createResult result =>
    refine write_writes fun s created => ?_
    obtain rfl := Store.createResult_ok created
    exact (Store.Write.result _ result trivial).writes
  | updateResult result =>
    refine write_writes fun s updated => ?_
    obtain rfl := Store.updateResult_ok updated
    exact (Store.Write.result _ result trivial).writes
  | deleteResult id =>
    refine write_writes fun s deleted => ?_
    obtain rfl := Store.deleteResult_ok deleted
    exact (Store.Write.eraseResult _ id).writes
  | createTransaction t =>
    refine write_writes fun s created => ?_
    obtain rfl := Store.createTransaction_ok created
    exact (Store.Write.transaction _ t sound).writes
  | publish topic payload =>
    unfold perform
    dsimp only
    split <;> exact .refl _
  | close => exact (Store.Write.close _).writes
  | recycleJob j now =>
    refine write_writes fun s recycled => ?_
    cases ok : r.store.recycleJob j now with
    | error e => simp [ok, Except.map] at recycled
    | ok answer =>
      rw [ok] at recycled
      cases recycled
      exact Store.recycleJob_writes trivial ok
  | recyclePipeline p now =>
    exact Store.recyclePipeline_writes (fun _ _ => trivial)
      (Prod.eta (r.store.recyclePipeline p now)).symm
  | _ => exact .refl _

theorem filed_run (sound : ∀ o ∈ operations, o.IsSound) (filed : r.store.Filed) :
    (r.run operations).store.Filed := by
  induction operations generalizing r with
  | nil => exact filed
  | cons o rest ih =>
    have first := (perform_writes (sound o List.mem_cons_self) filed).filed filed
    exact ih (fun o inside => sound o (List.mem_cons_of_mem _ inside)) first

/-! ### Failing -/

private theorem write_error {answer : Except StoreError Store} {stop : Stop StoreError}
    (failed : (r.write answer).2 = .error stop) : (r.write answer).1 = r := by
  cases answer with
  | ok s => cases failed
  | error e => rfl

private theorem perform_error {stop : Stop StoreError} (filed : r.store.Filed)
    (current : o.IsCurrent r.store) (failed : (r.perform o).2 = .error stop) :
    (r.perform o).1 = r := by
  cases o with
  | deleteJob id =>
    simp only [perform, Store.deleteJobInSteps_eq filed] at failed ⊢
    split at failed
    next => cases failed
    next => rfl
  | publish topic payload =>
    unfold perform at failed ⊢
    dsimp only at failed ⊢
    split at failed
    next => cases failed
    next => rfl
  | close => cases failed
  | recyclePipeline p now =>
    obtain ⟨row, stored, loads⟩ := current
    have answer : r.store.recyclePipeline p now =
        ((r.store.recyclePipeline p now).1, (r.store.recyclePipeline p now).2.1, .error stop) :=
      Prod.ext rfl (Prod.ext rfl failed)
    obtain ⟨id, found⟩ := filed.pipelines.get?_of_mem_values stored
    have same := Store.recyclePipeline_loaded filed.toIndexed found loads answer
    simp only [perform, same]
  | createJob | updateJob | createPipeline | updatePipeline | deletePipeline | createResult
  | updateResult | deleteResult | createTransaction | recycleJob => exact write_error failed
  | _ => rfl

/-! ### Behind a closed store -/

private theorem isClosed_perform (closed : r.store.isClosed = true) (sound : o.IsSound)
    (filed : r.store.Filed) : (r.perform o).1.store.isClosed = true := by
  have kept (s t : Store) (write : Store.Write .finite s t) (closed : s.isClosed = true) :
      t.isClosed = true := by
    cases write with
    | close => rfl
    | _ => exact closed
  exact (perform_writes sound filed).keep kept closed

private theorem isClosed_run (sound : ∀ o ∈ operations, o.IsSound) (filed : r.store.Filed)
    (closed : r.store.isClosed = true ∨ .close ∈ operations) :
    (r.run operations).store.isClosed = true := by
  induction operations generalizing r with
  | nil => simpa [run] using closed
  | cons o rest ih =>
    have first := sound o List.mem_cons_self
    refine ih (fun o inside => sound o (List.mem_cons_of_mem _ inside))
      ((perform_writes first filed).filed filed) ?_
    rcases closed with before | listed
    · exact Or.inl (isClosed_perform before first filed)
    · rcases List.mem_cons.mp listed with rfl | later
      · exact Or.inl rfl
      · exact Or.inr later

end Repository

namespace Operation

def AnswersClosed (answer : Except (Stop StoreError) Unit) : Operation → Prop
  | checkHealth | close => True
  | recycleJob _ _ | recyclePipeline _ _ => ∃ stop, answer = .error stop
  | _ => answer = .error (.error .closed)

end Operation

namespace Repository

variable {r : Repository} {operations : List Operation}

private theorem write_closed {answer : Except StoreError Store}
    (refused : answer = .error .closed) :
    (r.write answer).2 = .error (.error .closed) := by
  rw [refused]
  rfl

private theorem read_closed {α : Type} {answer : Except StoreError α}
    (refused : answer = .error .closed) :
    (r.read answer).2 = .error (.error .closed) := by
  rw [refused]
  rfl

private theorem perform_closed (closed : r.store.isClosed = true) (o : Operation) :
    o.AnswersClosed (r.perform o).2 := by
  cases o with
  | checkHealth | close => trivial
  | recycleJob j now =>
    obtain ⟨e, failed⟩ := Store.recycleJob_closed closed j now
    exact ⟨.error e, by simp [perform, failed, Except.map, write]⟩
  | recyclePipeline p now =>
    obtain ⟨_, stop, failed⟩ := Store.recyclePipeline_closed closed p now
    exact ⟨stop, by simp [perform, failed]⟩
  | deleteJob id =>
    simp [Operation.AnswersClosed, perform, Store.deleteJobInSteps, closed, Except.mapError]
  | publish topic payload =>
    simp [Operation.AnswersClosed, perform, Store.ensureOpen, closed]
  | createJob | updateJob | createPipeline | updatePipeline | deletePipeline | createResult
  | updateResult | deleteResult | createTransaction => exact write_closed (Store.refused closed _)
  | getJobs | getDueJobs | getJobsByPipeline =>
    refine read_closed ?_
    simp [Store.getJobs, Store.getDueJobs, Store.getJobsByPipeline, Store.readJobs_closed closed,
      bind, Except.bind]
  | _ => exact read_closed (Store.refused closed _)

/-- Whatever has been done to a repository that was empty, an operation that fails leaves it as it
was, and once it has been closed, only those operations succeed that touch no record. -/
theorem performs_cleanly (sound : ∀ o ∈ operations, o.IsSound) (o : Operation) :
    (∀ stop, o.IsCurrent (empty.run operations).store →
      ((empty.run operations).perform o).2 = .error stop →
      ((empty.run operations).perform o).1 = empty.run operations) ∧
    (.close ∈ operations → o.AnswersClosed ((empty.run operations).perform o).2) := by
  have filed : (empty.run operations).store.Filed := filed_run sound Store.filed_empty
  constructor
  · intro stop current failed
    exact perform_error filed current failed
  · intro closed
    exact perform_closed (isClosed_run sound Store.filed_empty (Or.inr closed)) o

def reports : Pipeline :=
  let job (id : Id) (sequence : UInt32) :=
    { Job.new id "report" "echo" [] none with pipelineId := some (.issued 0), sequence }
  .new (.issued 0) "reports" [{ job (.issued 1) 0 with options := ⟨some "1 min", false⟩ },
    job (.issued 2) 1] none

def halfSecond : Binary64 := ⟨false, 500 * 2 ^ 1074⟩

def closedReports : List Operation :=
  let ran := { Job.new (.issued 1) "report" "echo" [] none with duration := some halfSecond }
  [.createPipeline reports, .createTransaction (.ofJob (.issued 3) ran .epoch), .close]

theorem performs_cleanly_closedReports :
    let r := empty.run closedReports
    (∀ o ∈ closedReports, o.IsSound) ∧ .close ∈ closedReports ∧
    Operation.IsCurrent r.store (.recyclePipeline reports .epoch) ∧
    (∃ stop, (r.perform (.recyclePipeline reports .epoch)).2 = .error stop) ∧
    (r.perform (.recyclePipeline reports .epoch)).1 = r ∧
    (r.perform (.deleteJob (.issued 1))).2 = .error (.error .closed) := by
  have sound : ∀ o ∈ closedReports, o.IsSound := by
    simp only [closedReports, List.forall_mem_cons]
    refine ⟨trivial, ?_, trivial, by simp⟩
    rintro x ⟨⟩
    exact ⟨500, 1074, rfl, by decide, by decide⟩
  have listed : .close ∈ closedReports := by simp [closedReports]
  have current : Operation.IsCurrent (empty.run closedReports).store
      (.recyclePipeline reports .epoch) :=
    ⟨⟨{ reports with jobs := [] }, [.issued 1, .issued 2]⟩, List.mem_cons_self, by rfl⟩
  obtain ⟨unchanged, refused⟩ := performs_cleanly sound (.recyclePipeline reports .epoch)
  obtain ⟨stop, failed⟩ := refused listed
  exact ⟨sound, listed, current, ⟨stop, failed⟩, unchanged stop current failed,
    (performs_cleanly sound (.deleteJob (.issued 1))).2 listed⟩

end Repository

end Rota
