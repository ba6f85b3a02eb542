import Rota.Proofs.Deletion
import Rota.Proofs.Refused
/-! Ticks at a pool that has stopped.
A tick goes on submitting what is due, and each of its jobs is refused. What a refused job has
written back, and what an armed pipeline has, does not move the jobs that wait: the next tick finds
them due again. -/
namespace Rota

def Pipeline.mayRearm (p : Pipeline) : Bool := p.disable || p.options.cancelOnFailure

namespace Pipeline

variable {p q : Pipeline}

private theorem mayRearm_congr (details : p.details = q.details) : p.mayRearm = q.mayRearm := by
  have disable : p.disable = q.disable := congrArg PipelineDetails.disable details
  have options : p.options = q.options := congrArg PipelineDetails.options details
  rw [mayRearm, mayRearm, disable, options]

private theorem mayRearm_of_isRearmed (holds : p.isRearmed = true) : p.mayRearm = true := by
  simp only [isRearmed, mayRearm, Bool.or_eq_true, Bool.and_eq_true] at holds ⊢
  exact holds.imp_right And.left

end Pipeline

/-- What a pipeline is, and its status unless a tick may change it. -/
def PipelineRow.standing (row : PipelineRow) : List Id × PipelineDetails × Option Status :=
  (row.jobIds, row.record.details, if row.record.mayRearm then none else some row.record.status)

namespace Store

variable {s s' s'' : Store} {id owner : Id} {c j k : Job} {p q : Pipeline} {row row' : PipelineRow}
  {written : List Job} {records : List Pipeline}

def mayRearm (s : Store) (owner : Option Id) : Bool :=
  (owner.bind s.pipelines.get?).any fun row => row.record.mayRearm

def standing (s : Store) (j : Job) : Origin × Option (Status × Option Instant) :=
  (j.origin, if s.mayRearm j.pipelineId then none else some (j.status, j.runAt))

def Listed (s : Store) : Prop :=
  ∀ owner row, s.pipelines.get? owner = some row → ∀ id ∈ row.jobIds,
    ∀ j, s.jobs.get? id = some j → j.pipelineId = some owner

theorem Recorded.listed {A : List Origin} {n : Nat} (recorded : s.Recorded A n)
    (unique : ∀ o ∈ A, ∀ o' ∈ A, o.id = o'.id → o = o') : s.Listed :=
  fun _ _ found _ member _ stored => recorded.owner_of_listed unique found member stored

/-! ### Reading a pipeline -/

/-- The places of the jobs of a pipeline are those of the jobs that it lists. -/
theorem origins_loadPipeline (loads : s.loadPipeline row = .ok p) : p.jobs.map Job.origin =
    sortBy (fun a b => decide (a.sequence ≤ b.sequence))
      (row.jobIds.filterMap fun id => (s.jobs.get? id).map Job.origin) := by
  obtain ⟨jobs, reads, rfl⟩ := loadPipeline_ok loads
  have same : (row.jobIds.filterMap s.jobs.get?).map Job.origin = jobs.map Job.origin :=
    map_eq_of_forall₂ (reads.imp fun _ _ read => (Job.origin_reread read).symm)
  have order (a b : Job) : (fun a b : Origin => decide (a.sequence ≤ b.sequence)) a.origin b.origin =
      Job.sequenceLe a b := rfl
  rw [← List.map_filterMap, same]
  exact map_sortBy order jobs

private theorem Listed.of_loadPipeline (listed : s.Listed) (found : s.pipelines.get? id = some row)
    (loads : s.loadPipeline row = .ok p) (member : c ∈ p.jobs) :
    ∃ jobId j, s.jobs.get? jobId = some j ∧ j.origin = c.origin ∧ j.pipelineId = some id := by
  have placed : c.origin ∈ p.jobs.map Job.origin := List.mem_map_of_mem member
  rw [origins_loadPipeline loads, (sortBy_perm _ _).mem_iff] at placed
  obtain ⟨jobId, inside, here⟩ := List.mem_filterMap.mp placed
  obtain ⟨j, stored, origin⟩ := Option.map_eq_some_iff.mp here
  exact ⟨jobId, j, stored, origin, listed id row found jobId inside j stored⟩

private theorem record_loadPipeline (loads : s.loadPipeline row = .ok p) :
    p.details = row.record.details ∧ p.status = row.record.status := by
  obtain ⟨_, _, rfl⟩ := loadPipeline_ok loads
  exact ⟨rfl, rfl⟩

private theorem headId_congr (loads : s.loadPipeline row = .ok p)
    (loads' : s'.loadPipeline row' = .ok q) (jobIds : row'.jobIds = row.jobIds)
    (origins : ∀ id, (s'.jobs.get? id).map Job.origin = (s.jobs.get? id).map Job.origin) :
    q.headId = p.headId := by
  have same : q.jobs.map Job.origin = p.jobs.map Job.origin := by
    rw [origins_loadPipeline loads', origins_loadPipeline loads, jobIds]
    simp only [origins]
  have head (r : Pipeline) : r.headId = ((r.jobs.map Job.origin).map Origin.id).head? := by
    rw [Pipeline.headId, List.map_map, List.head?_map]
    rfl
  rw [head, head, same]

/-! ### What is left alone -/

private theorem standing_of_mayRearm (same : k.origin = j.origin)
    (may : s.mayRearm j.pipelineId = true) :
    s.standing k = s.standing j := by
  have owner := Job.pipelineId_of_origin same
  simp only [standing, same, owner, may, if_true]

/-- Of two jobs that are written under one identifier, the second stays. -/
theorem Edited.last (edited : Edited s s' [j, k] records) (same : k.id = j.id) :
    Edited s s' [k] records where
  jobs := by
    rw [edited.jobs, putJobs, putJobs, List.foldl_cons, List.foldl_cons, List.foldl_nil, same,
      Table.put_put, List.foldl_cons, List.foldl_nil, same]
  known i member := edited.known i (List.mem_cons_of_mem j member)
  pipelines := edited.pipelines
  closed := edited.closed

/-- Jobs and pipelines are what they were, and those that no tick arms again have the status and the
run time that they had. -/
structure Undisturbed (s s' : Store) : Prop where
  closed : s'.isClosed = s.isClosed
  jobs : ∀ id, (s'.jobs.get? id).map s'.standing = (s.jobs.get? id).map s.standing
  pipelines : ∀ id, (s'.pipelines.get? id).map PipelineRow.standing =
    (s.pipelines.get? id).map PipelineRow.standing

namespace Undisturbed

theorem refl (s : Store) : s.Undisturbed s := ⟨rfl, fun _ => rfl, fun _ => rfl⟩

theorem symm (undisturbed : s.Undisturbed s') : s'.Undisturbed s :=
  ⟨undisturbed.closed.symm, fun id => (undisturbed.jobs id).symm,
    fun id => (undisturbed.pipelines id).symm⟩

theorem trans (first : s.Undisturbed s') (second : s'.Undisturbed s'') : s.Undisturbed s'' :=
  ⟨second.closed.trans first.closed, fun id => (second.jobs id).trans (first.jobs id),
    fun id => (second.pipelines id).trans (first.pipelines id)⟩

theorem job (undisturbed : s.Undisturbed s') (stored : s.jobs.get? id = some j) :
    ∃ k, s'.jobs.get? id = some k ∧ s'.standing k = s.standing j := by
  have same := undisturbed.jobs id
  rw [stored] at same
  exact Option.map_eq_some_iff.mp same

theorem record (undisturbed : s.Undisturbed s') (found : s.pipelines.get? id = some row) :
    ∃ r, s'.pipelines.get? id = some r ∧ r.standing = row.standing := by
  have same := undisturbed.pipelines id
  rw [found] at same
  exact Option.map_eq_some_iff.mp same

theorem origins (undisturbed : s.Undisturbed s') (id : Id) :
    (s'.jobs.get? id).map Job.origin = (s.jobs.get? id).map Job.origin := by
  have same := congrArg (Option.map Prod.fst) (undisturbed.jobs id)
  rwa [Option.map_map, Option.map_map] at same

theorem listed (undisturbed : s.Undisturbed s') (listed : s.Listed) : s'.Listed := by
  intro owner row found id member k stored
  obtain ⟨r, before, same⟩ := undisturbed.symm.record found
  obtain ⟨j, stored', standing⟩ := undisturbed.symm.job stored
  have owns := listed owner r before id ((Prod.mk.inj same).1 ▸ member) j stored'
  exact (Job.pipelineId_of_origin (Prod.mk.inj standing).1).symm.trans owns

theorem readable (undisturbed : s.Undisturbed s') (readable : s.Readable) : s'.Readable where
  open_ := undisturbed.closed.trans readable.open_
  shallow id k stored := by
    obtain ⟨j, stored', standing⟩ := undisturbed.symm.job stored
    rw [← Job.depth_of_origin (Prod.mk.inj standing).1]
    exact readable.shallow id j stored'

end Undisturbed

private theorem mayRearm_congr (pipelines : ∀ id, (s'.pipelines.get? id).map PipelineRow.standing =
    (s.pipelines.get? id).map PipelineRow.standing) (owner : Option Id) :
    s'.mayRearm owner = s.mayRearm owner := by
  have same : (owner.bind s'.pipelines.get?).map PipelineRow.standing =
      (owner.bind s.pipelines.get?).map PipelineRow.standing := by
    cases owner with
    | none => rfl
    | some id => exact pipelines id
  unfold mayRearm
  cases here : owner.bind s.pipelines.get? with
  | none =>
    rw [here, Option.map_none, Option.map_eq_none_iff] at same
    rw [same]
  | some row =>
    rw [here] at same
    obtain ⟨r, there, standing⟩ := Option.map_eq_some_iff.mp same
    rw [there, Option.any_some, Option.any_some]
    exact Pipeline.mayRearm_congr (Prod.mk.inj (Prod.mk.inj standing).2).1

private theorem Edited.standing_pipelines (edited : Edited s s' written records)
    (rows : ∀ q ∈ records, ∀ row, s.pipelines.get? q.id = some row →
      row.record.mayRearm = true ∧ q.details = row.record.details) (id : Id) :
    (s'.pipelines.get? id).map PipelineRow.standing =
      (s.pipelines.get? id).map PipelineRow.standing := by
  refine map_eq_of_isSome edited.isSome_pipelines fun row' here => ?_
  obtain ⟨row, before, listed, ⟨kept, _⟩ | ⟨q, member, rfl, replaced⟩⟩ := edited.record_cases here
  · refine ⟨row, before, ?_⟩
    rw [PipelineRow.standing, PipelineRow.standing, kept, listed]
  · obtain ⟨may, details⟩ := rows q member row before
    have same : row'.record.details = row.record.details := by
      rw [replaced]
      exact details
    have may' := (Pipeline.mayRearm_congr same).trans may
    refine ⟨row, before, ?_⟩
    simp only [PipelineRow.standing, listed, same, may, may', if_true]

/-- To write over jobs and pipelines that a tick may arm again disturbs nobody, nor does to write
over a job as it stands. -/
theorem Edited.undisturbed (edited : Edited s s' written records)
    (jobs : ∀ k ∈ written, ∀ j, s.jobs.get? k.id = some j → s.standing k = s.standing j)
    (rows : ∀ q ∈ records, ∀ row, s.pipelines.get? q.id = some row →
      row.record.mayRearm = true ∧ q.details = row.record.details) : s.Undisturbed s' := by
  have pipelines := edited.standing_pipelines rows
  have standing (k : Job) : s'.standing k = s.standing k := by
    rw [Store.standing, Store.standing, mayRearm_congr pipelines]
  refine ⟨edited.closed, fun id => ?_, pipelines⟩
  refine map_eq_of_isSome edited.isSome_jobs fun k here => ?_
  rw [edited.jobs] at here
  rcases putJobs_cases here with ⟨member, rfl⟩ | ⟨before, _⟩
  · obtain ⟨j, before⟩ := Option.isSome_iff_exists.mp (edited.known k member)
    exact ⟨j, before, (standing k).trans (jobs k member j before)⟩
  · exact ⟨k, before, standing k⟩

/-- All that is written to arm a pipeline again is what a tick may write. -/
theorem Edited.undisturbed_of_isRearmed (edited : Edited s s' written records)
    (indexed : s.Indexed) (listed : s.Listed) (read : s.getPipeline id = .ok p)
    (holds : p.isRearmed = true) (jobs : ∀ k ∈ written, ∃ c ∈ p.jobs, k.origin = c.origin)
    (rows : ∀ q ∈ records, q.id = p.id ∧ q.details = p.details) : s.Undisturbed s' := by
  obtain ⟨row, found, loads⟩ := getPipeline_ok read
  have key : p.id = id := (indexed.loaded found loads).1
  have details := (record_loadPipeline loads).1
  have may : row.record.mayRearm = true :=
    (Pipeline.mayRearm_congr details).symm.trans (Pipeline.mayRearm_of_isRearmed holds)
  refine edited.undisturbed (fun k member j here => ?_) (fun q member r here => ?_)
  · obtain ⟨c, inside, same⟩ := jobs k member
    obtain ⟨jobId, i, stored, origin, owns⟩ := listed.of_loadPipeline found loads inside
    have own : k.id = jobId :=
      (Job.id_of_origin (same.trans origin.symm)).trans (indexed.jobKey jobId i stored)
    cases (own ▸ here).symm.trans stored
    refine standing_of_mayRearm (same.trans origin.symm) ?_
    simp only [mayRearm, owns, Option.bind_some, found, Option.any_some, may]
  · obtain ⟨same, told⟩ := rows q member
    cases (same.trans key ▸ here).symm.trans found
    exact ⟨may, told.trans details⟩

end Store

namespace Engine

variable {e e' e'' : Engine} {job c : Job} {due : List Job} {count : Nat} {t : TickState}
  {submission : Submission}

/-! ### A submission -/

/-- The engine is as before, apart from what is stored, and that is undisturbed. -/
structure Idles (e e' : Engine) : Prop where
  now : e'.now = e.now
  pool : e'.pool = e.pool
  undisturbed : e.store.Undisturbed e'.store
  indexed : e.store.Indexed → e'.store.Indexed

theorem Idles.refl (e : Engine) : e.Idles e := ⟨rfl, rfl, .refl _, id⟩

theorem Idles.trans (first : e.Idles e') (second : e'.Idles e'') : e.Idles e'' :=
  ⟨second.now.trans first.now, second.pool.trans first.pool,
    first.undisturbed.trans second.undisturbed, second.indexed ∘ first.indexed⟩

theorem Idles.symm (idles : e.Idles e') (indexed : e.store.Indexed) : e'.Idles e :=
  ⟨idles.now.symm, idles.pool.symm, idles.undisturbed.symm, fun _ => indexed⟩

/-- The pool accepts no works, and the store can be read. -/
structure Halted (e : Engine) : Prop where
  stopped : e.pool.isAccepting = false
  indexed : e.store.Indexed
  listed : e.store.Listed
  readable : e.store.Readable

private theorem Idles.halted (idles : e.Idles e') (halted : e.Halted) : e'.Halted where
  stopped := idles.pool ▸ halted.stopped
  indexed := idles.indexed halted.indexed
  listed := idles.undisturbed.listed halted.listed
  readable := idles.undisturbed.readable halted.readable

structure Meets (e : Engine) (c : Job) : Prop where
  pending : c.status = .pending
  stands : ∀ j, e.store.jobs.get? c.id = some j → e.store.standing c = e.store.standing j

theorem Meets.agrees (meets : e.Meets c) : e.store.Agrees c := fun j stored =>
  (Prod.mk.inj (meets.stands j stored)).1.symm

private theorem Idles.meets (idles : e.Idles e') (meets : e.Meets c) : e'.Meets c := by
  refine ⟨meets.pending, fun k stored => ?_⟩
  obtain ⟨j, before, standing⟩ := idles.undisturbed.symm.job stored
  rw [← standing, ← meets.stands j before, Store.standing, Store.standing,
    Store.mayRearm_congr idles.undisturbed.pipelines]

/-- A pool that has stopped refuses a job, which stands as before then. -/
theorem submit_idles (halted : e.Halted) (meets : e.Meets c)
    (done : e.submit c = (e', submission)) : e.Idles e' := by
  have submitted := submit_submitted done
  obtain ⟨_, _, written, own⟩ := submitted.edits halted.indexed meets.agrees
  have indexed := written.indexed own
  cases submitted with
  | unsent => exact .refl e
  | rearmed id p store jobs records _ owner read holds edited pendingJobs pendingRecords =>
    have rearmed := edited.undisturbed_of_isRearmed halted.indexed halted.listed read holds
    refine ⟨rfl, rfl, rearmed (fun k member => ?_) (fun q member => ?_), indexed⟩
    · obtain ⟨_, c, inside, same, _⟩ := pendingJobs k member
      exact ⟨c, inside, same⟩
    · obtain ⟨same, _, details⟩ := pendingRecords q member
      exact ⟨same, details⟩
  | refused chain store _ undone resolved edited back =>
    rcases back with rfl | ⟨_, missing⟩
    · -- What is written last is the job as it came, with the date of the attempt.
      refine ⟨rfl, rfl, (edited.last rfl).undisturbed (fun k member j here => ?_) (by simp), indexed⟩
      rw [List.mem_singleton.mp member] at here ⊢
      rw [← meets.stands j here, Store.standing, Store.standing, meets.pending]
      rfl
    · -- The job is stored, since the first write has found it, and so the second has too.
      have known := edited.known (c.markScheduled e.now) List.mem_cons_self
      rw [show (c.markScheduled e.now).id = c.id from rfl, missing halted.readable.open_] at known
      cases known
  | sent chain w store pool answer _ resolved made edited taken accepted =>
    unfold Pool.send at taken
    rw [halted.stopped] at taken
    cases taken
    exact absurd rfl accepted

private theorem submit_halted (halted : e.Halted) (meets : e.Meets c)
    (done : e.submit c = (e', submission)) :
    submission ≠ .submitted ∧ ∀ ticket, submission ≠ .waiting ticket := by
  rcases submit_sends done with ⟨_, _, _, _, sends⟩ | ⟨_, answer⟩
  · rw [(submit_idles halted meets done).pool] at sends
    simp at sends
  · exact answer

/-! ### Ticks -/

private theorem submitAll_halted (halted : e.Halted) (meet : ∀ c ∈ due, e.Meets c)
    (done : e.submitAll count due = (e', t)) : e.Idles e' ∧ (t = .overflow ∨ t = .done count) := by
  -- The jobs behind the first still stand as they are stored when it has been refused.
  induction due generalizing e with
  | nil =>
    cases done
    exact ⟨.refl _, Or.inr rfl⟩
  | cons c rest ih =>
    rcases submits : e.submit c with ⟨e₁, submission⟩
    have meets := meet c List.mem_cons_self
    have idles := submit_idles halted meets submits
    obtain ⟨unsent, served⟩ := submit_halted halted meets submits
    have later (done : e₁.submitAll count rest = (e', t)) :
        e.Idles e' ∧ (t = .overflow ∨ t = .done count) := by
      obtain ⟨idles', answer⟩ := ih (idles.halted halted)
        (fun d member => idles.meets (meet d (List.mem_cons_of_mem c member))) done
      exact ⟨idles.trans idles', answer⟩
    unfold submitAll at done
    rw [submits] at done
    cases submission with
    | submitted => exact absurd rfl unsent
    | waiting ticket => exact absurd rfl (served ticket)
    | skipped => exact later done
    | failed => exact later done
    | overflow =>
      cases done
      exact ⟨idles, Or.inl rfl⟩

private theorem meets_of_due (indexed : e.store.Indexed)
    (scanned : e.store.getDueJobs e.now = .ok due)
    (member : c ∈ due) : e.Meets c := by
  obtain ⟨j, stored, reads, isDue⟩ := indexed.stored_due scanned member
  refine ⟨Job.pending_of_isDue isDue, fun k stored' => ?_⟩
  cases stored.symm.trans stored'
  have origin := Job.origin_reread reads
  rw [Store.standing, Store.standing, origin, Job.pipelineId_of_origin origin,
    Job.status_reread reads, Job.runAt_reread reads]

/-- A tick submits nothing, unless a date leaves the supported years. -/
theorem scheduleTick_halted (halted : e.Halted) (done : e.scheduleTick = (e', t)) :
    e.Idles e' ∧ (t = .overflow ∨ t = .done 0) := by
  obtain ⟨due, scanned, _⟩ := halted.readable.getDueJobs halted.indexed e.now
  unfold scheduleTick at done
  rw [scanned] at done
  exact submitAll_halted halted (fun c member => meets_of_due halted.indexed scanned member) done

def afterTicks (e : Engine) : Nat → Engine
  | 0 => e
  | n + 1 => (e.afterTicks n).scheduleTick.1

private theorem afterTicks_idles (halted : e.Halted) (n : Nat) : e.Idles (e.afterTicks n) := by
  induction n with
  | zero => exact .refl e
  | succ n ih =>
    have tick := scheduleTick_halted (ih.halted halted) (Prod.eta _).symm
    exact ih.trans tick.1

/-! ### Who waits -/

/-- A job that is due, and that belongs to no pipeline or is the first job of one that is enabled,
idle and goes on after a failure. -/
def Waits (e : Engine) (id : Id) : Prop :=
  ∃ j, e.store.jobs.get? id = some j ∧ j.isDue e.now = true ∧
    (j.pipelineId = none ∨ ∃ owner p, j.pipelineId = some owner ∧
      e.store.getPipeline owner = .ok p ∧ p.headId = some id ∧ p.disable = false ∧
      p.status.isActive = false ∧ p.options.cancelOnFailure = false)

theorem Idles.waits {id : Id} (idles : e.Idles e') (halted : e.Halted) (waits : e.Waits id) :
    e'.Waits id := by
  obtain ⟨j, stored, isDue, place⟩ := waits
  obtain ⟨k, stored', standing⟩ := idles.undisturbed.job stored
  obtain ⟨origin, times⟩ := Prod.mk.inj standing
  have owner := Job.pipelineId_of_origin origin
  have still (fixed : e.store.mayRearm j.pipelineId = false) : k.isDue e'.now = true := by
    rw [Store.mayRearm_congr idles.undisturbed.pipelines, owner, fixed] at times
    simp only [Bool.false_eq_true, if_false, Option.some.injEq, Prod.mk.injEq] at times
    rw [Job.isDue, times.1, times.2, idles.now]
    exact isDue
  rcases place with alone | ⟨id', p, own, read, first, enabled, idle, goesOn⟩
  · exact ⟨k, stored', still (by rw [alone]; rfl), Or.inl (owner.trans alone)⟩
  · obtain ⟨row, found, loads⟩ := Store.getPipeline_ok read
    obtain ⟨row', found', same⟩ := idles.undisturbed.record found
    obtain ⟨q, read'⟩ := (idles.undisturbed.readable halted.readable).getPipeline found'
    obtain ⟨r, there, loads'⟩ := Store.getPipeline_ok read'
    cases found'.symm.trans there
    obtain ⟨jobIds, told⟩ := Prod.mk.inj same
    obtain ⟨details, status⟩ := Prod.mk.inj told
    have first' := Store.headId_congr loads loads' jobIds idles.undisturbed.origins
    have record := Store.record_loadPipeline loads
    have record' := Store.record_loadPipeline loads'
    have fixed : row.record.mayRearm = false := by
      rw [← Pipeline.mayRearm_congr record.1, Pipeline.mayRearm, enabled, goesOn]
      rfl
    rw [Pipeline.mayRearm_congr details, fixed] at status
    simp only [Bool.false_eq_true, if_false, Option.some.injEq] at status
    have said : q.details = p.details := record'.1.trans (details.trans record.1.symm)
    have disable : q.disable = p.disable := congrArg PipelineDetails.disable said
    have options : q.options = p.options := congrArg PipelineDetails.options said
    refine ⟨k, stored', still ?_, Or.inr ⟨id', q, owner.trans own, read', first'.trans first,
      disable.trans enabled, ?_, by rw [options, goesOn]⟩⟩
    · simpa only [Store.mayRearm, own, Option.bind_some, found, Option.any_some] using fixed
    · rw [record'.2, status, ← record.2]
      exact idle

private theorem afterTicks_waits {id : Id} (halted : e.Halted) (n : Nat) :
    (e.afterTicks n).Waits id ↔ e.Waits id := by
  have idles := afterTicks_idles halted n
  exact ⟨(idles.symm halted.indexed).waits (idles.halted halted), idles.waits halted⟩

private theorem scheduleTick_closed (closed : e.store.isClosed = true) :
    e.scheduleTick = (e, .failed (.store .closed)) := by
  have refused : e.store.getDueJobs e.now = .error .closed := by
    simp [Store.getDueJobs, Store.readJobs_closed closed, bind, Except.bind]
  simp only [scheduleTick, refused]

private theorem afterTicks_closed (closed : e.store.isClosed = true) (n : Nat) :
    e.afterTicks n = e := by
  induction n with
  | zero => rfl
  | succ n ih => rw [afterTicks, ih, scheduleTick_closed closed]

end Engine

namespace System

variable {s : System} {now : Instant} {registry : Registry} {queueCapacity : Nat} {unit : TimeUnit}
  {workers poolCapacity : Nat} {actions : List Action}

/-- In every run from an empty store, a submission that fails leaves no trace of a job that is due
or was taken out of the queue. And however often a tick meets a stopped pool, it submits nothing and
the jobs that wait go on waiting, whatever else it arms again. -/
theorem refused_traceless (made : new? now registry queueCapacity unit workers poolCapacity = some s)
    (distinct : Id.Distinct (s.run actions).engine.issued) :
    let e := (s.run actions).engine
    (∀ job, job.isDue e.now = true → e.FailsCleanly job) ∧
    ((∀ a ∈ actions, a.IsShort) →
      ∀ job, (∃ c ∈ (s.run actions).called, c.id = job.id) → e.FailsCleanly job) ∧
    (e.pool.isAccepting = false →
      (∀ id j, e.store.jobs.get? id = some j → j.depth ≤ maxDepth) → ∀ n,
      ((e.afterTicks n).scheduleTick.2 = .overflow ∨ (e.afterTicks n).scheduleTick.2 =
        if e.store.isClosed then .failed (.store .closed) else .done 0) ∧
      ∀ id, (e.afterTicks n).Waits id ↔ e.Waits id) := by
  intro e
  have accounted := accounted_run made distinct
  have indexed : e.store.Indexed := accounted.recorded.indexed
  refine ⟨fun job isDue => ?_, fun short job called => ?_, fun stopped shallow n => ?_⟩
  · exact Engine.failsCleanly indexed fun _ _ _ => Job.pending_of_isDue isDue
  · obtain ⟨c, member, same⟩ := called
    obtain ⟨sound, reserved⟩ := reserved_run made short distinct
    refine Engine.failsCleanly indexed fun row stored reads => ?_
    rw [Job.status_reread reads]
    exact reserved.pending_of_called sound member (same ▸ stored)
  · cases closed : e.store.isClosed with
    | true =>
      rw [Engine.afterTicks_closed closed, Engine.scheduleTick_closed closed]
      exact ⟨Or.inr rfl, fun _ => Iff.rfl⟩
    | false =>
      have halted : e.Halted :=
        ⟨stopped, indexed, accounted.recorded.listed accounted.unique, closed, shallow⟩
      have idles := Engine.afterTicks_idles halted n
      have tick := Engine.scheduleTick_halted (idles.halted halted) (Prod.eta _).symm
      exact ⟨tick.2, fun _ => Engine.afterTicks_waits halted n⟩

def probeRequest (runNow : Bool) (taskParams : Params) : CreateJob :=
  ⟨"probe", none, "noop", taskParams, 0, none, runNow, false, .default⟩

def probe (id : Id) (runAt : Option Instant) (taskParams : Params) : Job :=
  { Job.new id "probe" "noop" taskParams (some .epoch) with runAt }

def stopped : List Action :=
  [.createJob (probeRequest false []), .createPipeline { exampleRequest with runNow := false },
    .createJob (probeRequest true []), .look, .stop]

theorem refused_traceless_stopped :
    let e := (start.run stopped).engine
    let due := probe (.issued 0) (some .epoch) []
    let called := probe (.issued 4) none []
    e.store.jobs.get? due.id = some due ∧ (e.submit due).2 = .failed .poolStopped ∧
    e.LeavesNoTrace (e.submit due).1 due.id ∧
    e.store.jobs.get? called.id = some called ∧ (e.submit called).2 = .failed .poolStopped ∧
    e.LeavesNoTrace (e.submit called).1 called.id ∧
    ((e.afterTicks 2).scheduleTick.2 = .overflow ∨ (e.afterTicks 2).scheduleTick.2 = .done 0) ∧
    (e.afterTicks 2).Waits due.id ∧ (e.afterTicks 2).Waits (.issued 2) := by
  intro e due called
  have distinct : Id.Distinct (start.run stopped).engine.issued :=
    Id.distinct_of_le (by decide +kernel)
  have short : ∀ a ∈ stopped, a.IsShort := by simp [stopped, Action.IsShort, exampleRequest]
  have first : e.store.jobs.get? due.id = some due := by rfl
  have other : e.store.jobs.get? called.id = some called := by rfl
  have waits : e.Waits due.id := ⟨due, first, by decide +kernel, Or.inl rfl⟩
  have heads : (e.store.getPipeline (.issued 1)).toOption.map (fun p =>
      (p.headId, p.disable, p.status, p.options.cancelOnFailure)) =
        some (some (.issued 2), false, .pending, false) := by decide +kernel
  have step : (e.store.jobs.get? (.issued 2)).map (fun j => (j.isDue e.now, j.pipelineId)) =
      some (true, some (.issued 1)) := by decide +kernel
  obtain ⟨p, read, fields⟩ := ok_of_toOption heads
  obtain ⟨j, stored, place⟩ := Option.map_eq_some_iff.mp step
  simp only [Prod.mk.injEq] at fields place
  have waits' : e.Waits (.issued 2) :=
    ⟨j, stored, place.1, Or.inr ⟨.issued 1, p, place.2, read, fields.1, fields.2.1,
      by rw [fields.2.2.1]; rfl, fields.2.2.2⟩⟩
  obtain ⟨dueCleanly, calledCleanly, ticks⟩ := refused_traceless new_start distinct
  have refused : (e.submit due).2 = .failed .poolStopped := by decide +kernel
  have refused' : (e.submit called).2 = .failed .poolStopped := by decide +kernel
  have calledIds : (start.run stopped).called.map (·.id) = [called.id] := by decide +kernel
  have calls : ∃ c ∈ (start.run stopped).called, c.id = called.id :=
    List.mem_map.mp (calledIds ▸ List.mem_cons_self)
  have readable : e.store.Readable :=
    Store.readable_of_values (by decide +kernel) (by decide +kernel)
  obtain ⟨answer, waiting⟩ := ticks (by decide +kernel) readable.shallow 2
  exact ⟨first, refused,
    (dueCleanly due (by decide +kernel)).leavesNoTrace first (by rfl) refused, other, refused',
    (calledCleanly short called calls).leavesNoTrace other (by rfl) refused',
    answer, (waiting _).mpr waits, (waiting _).mpr waits'⟩

/-- A number whose text, 1.0999999999999999e24, reads as the next larger one. -/
@[irreducible] def drifting : Binary64 := ⟨false, 1099999999999999874170880 * 2 ^ 1074⟩

def probeOf (x : Binary64) : Job := probe (.issued 0) (some .epoch) [("x", .number (.real x))]

def drifted : Engine :=
  (start.run [.createJob (probeRequest false (probeOf drifting).taskParams), .stop]).engine

/-- Its submission is refused, and the number that was read is what is stored from then on. -/
theorem refused_traced_drifted :
    drifted.store.jobs.get? (.issued 0) = some (probeOf drifting) ∧
    (probeOf drifting).reread = .ok (probeOf drifting.reread) ∧
    (probeOf drifting.reread).isDue drifted.now = true ∧
    (drifted.submit (probeOf drifting.reread)).2 = .failed .poolStopped ∧
    ¬drifted.LeavesNoTrace (drifted.submit (probeOf drifting.reread)).1 (.issued 0) := by
  have drifts : drifting.reread ≠ drifting := by decide +kernel
  have stored : drifted.store.jobs.get? (.issued 0) = some (probeOf drifting) := by rfl
  have reads : (probeOf drifting).reread = .ok (probeOf drifting.reread) := by rfl
  have attempted : drifted.submit (probeOf drifting.reread) =
      (drifted.attempted (probeOf drifting.reread), .failed .poolStopped) := by rfl
  have isDue : (probeOf drifting.reread).isDue drifted.now = true := by decide +kernel
  refine ⟨stored, reads, isDue, congrArg Prod.snd attempted, fun traceless => drifts ?_⟩
  rw [attempted] at traceless
  have same := (Engine.leavesNoTrace_attempted stored reads).mp traceless
  rw [reads] at same
  generalize drifting.reread = y at same
  generalize drifting = x at same
  cases same
  rfl

end System

end Rota
