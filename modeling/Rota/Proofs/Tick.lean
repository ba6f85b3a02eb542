import Rota.Proofs.Recycle
import Rota.Proofs.Scan
import Rota.Proofs.Updates
/-! What a tick sends.
A tick reads the due jobs and submits them one after the other, each as the store is by then. As
long as no pipeline has failed for good and the pool has room, what one submission writes is of no
concern to the others: what a tick sends can be told from the store that it starts with. -/
namespace Rota

namespace Pool

/-- For how many more works there is room: for none as long as others wait for it. -/
def freeCapacity (p : Pool) : Nat :=
  if p.waiting.isEmpty then p.capacity - p.channel.length else 0

private theorem hasRoom_iff (p : Pool) : p.hasRoom = true ↔ 0 < p.freeCapacity := by
  unfold hasRoom freeCapacity
  split
  next nobody => rw [nobody, Bool.true_and, decide_eq_true_eq, Nat.sub_pos_iff_lt]
  next others => simp [others]

private theorem freeCapacity_sent (p : Pool) (sent : List Handover) :
    { p with channel := p.channel ++ sent }.freeCapacity = p.freeCapacity - sent.length := by
  unfold freeCapacity
  dsimp only
  split
  · rw [List.length_append, Nat.sub_add_eq]
  · rw [Nat.zero_sub]

end Pool

namespace Engine

def workOf? (e : Engine) (job : Job) : Option Work :=
  match job.pipelineId with
  | none => if job.disable then none else some (.task (job.markScheduled e.now))
  | some id =>
    match e.store.getPipeline id with
    | .error _ => none
    | .ok p =>
      if p.disable || p.status.isActive || p.headId ≠ some job.id then none
      else some (.pipeline id (p.jobs.modifyHead (·.markScheduled e.now)))

def IsDisabled (e : Engine) (id : Id) : Prop :=
  ∃ row, e.store.pipelines.get? id = some row ∧ row.record.disable = true

def Rearms (e : Engine) (due : List Job) (id : Id) : Prop :=
  e.IsDisabled id ∧ ∃ c ∈ due, c.pipelineId = some id

inductive JobAfter (e : Engine) (due : List Job) (j : Job) : Job → Prop
  | kept (unsent : ∀ c ∈ due, (e.workOf? c).isSome = true → c.id ≠ j.id)
      (unarmed : ∀ id, j.pipelineId = some id → ¬e.Rearms due id) : JobAfter e due j j
  | scheduled (c : Job) (member : c ∈ due) (sent : (e.workOf? c).isSome = true)
      (same : c.id = j.id) : JobAfter e due j (c.markScheduled e.now)
  /-- Armed with its pipeline, once or more often. -/
  | rearmed (id : Id) (p q : Pipeline) (l k : Job) (owner : j.pipelineId = some id)
      (rearms : e.Rearms due id) (read : e.store.getPipeline id = .ok p)
      (arms : p.recycle e.now = (q, .ok ())) (member : l ∈ q.jobs) (same : l.id = j.id)
      (reads : l.Rereads k) : JobAfter e due j k

inductive RowAfter (e : Engine) (due : List Job) (id : Id) (row : PipelineRow) :
    PipelineRow → Prop
  | kept (unarmed : ¬e.Rearms due id) : RowAfter e due id row row
  | rearmed (p q : Pipeline) (rearms : e.Rearms due id) (read : e.store.getPipeline id = .ok p)
      (arms : p.recycle e.now = (q, .ok ())) :
      RowAfter e due id row { row with record := { q with jobs := [] } }

structure Swept (e : Engine) (due : List Job) (e' : Engine) : Prop where
  rest : e' = { e with store := e'.store, pool := e'.pool }
  store : e'.store = { e.store with jobs := e'.store.jobs, pipelines := e'.store.pipelines }
  pool : e'.pool = { e.pool with
    channel := e.pool.channel ++ (due.filterMap e.workOf?).map (⟨·, true⟩) }
  jobs : ∀ id j, e.store.jobs.get? id = some j →
    ∃ k, e'.store.jobs.get? id = some k ∧ e.JobAfter due j k
  absent : ∀ id, e.store.jobs.get? id = none → e'.store.jobs.get? id = none
  pipelines : ∀ id row, e.store.pipelines.get? id = some row →
    ∃ r, e'.store.pipelines.get? id = some r ∧ e.RowAfter due id row r
  absentPipelines : ∀ id, e.store.pipelines.get? id = none → e'.store.pipelines.get? id = none

/-- Nothing keeps a tick from submitting any job that is due. -/
structure Calm (e : Engine) : Prop where
  consistent : e.store.Consistent e.issued
  readable : e.store.Readable
  unfailed : ∀ id row, e.store.pipelines.get? id = some row →
    ¬(row.record.options.cancelOnFailure = true ∧ row.record.status = .failed)
  rearms : ∀ id p, e.store.getPipeline id = .ok p → p.disable = true →
    ∃ q, p.recycle e.now = (q, .ok ())

variable {e e' e₁ : Engine} {due done : List Job} {c : Job} {id : Id} {p : Pipeline} {w : Work}

/-! ### What a job in the scan stands for -/

private theorem workOf?_task (alone : c.pipelineId = none) :
    e.workOf? c = if c.disable then none else some (.task (c.markScheduled e.now)) := by
  simp only [workOf?, alone]

private theorem workOf?_pipeline (owner : c.pipelineId = some id)
    (read : e.store.getPipeline id = .ok p) :
    e.workOf? c = if p.disable || p.status.isActive || p.headId ≠ some c.id then none
      else some (.pipeline id (p.jobs.modifyHead (·.markScheduled e.now))) := by
  simp only [workOf?, owner, read]

/-- Only the first job of an idle pipeline that is not disabled stands for it. -/
theorem of_workOf?_pipeline (owner : c.pipelineId = some id) (sent : e.workOf? c = some w) :
    ∃ p, e.store.getPipeline id = .ok p ∧ p.disable = false ∧ p.status.isActive = false ∧
      p.headId = some c.id ∧ w = .pipeline id (p.jobs.modifyHead (·.markScheduled e.now)) := by
  simp only [workOf?, owner] at sent
  split at sent
  next => cases sent
  next p read =>
    split at sent
    next => cases sent
    next runs =>
      simp only [Bool.or_eq_true, decide_eq_true_eq, not_or, Bool.not_eq_true, Decidable.not_not]
        at runs
      obtain ⟨⟨enabled, idle⟩, first⟩ := runs
      cases sent
      exact ⟨p, read, enabled, idle, first, rfl⟩

/-- Before the first job of a pipeline is submitted, nothing is sent of the pipeline. -/
theorem unsent_of_first (read : e.store.getPipeline id = .ok p) (first : p.headId = some c.id)
    (fresh : ∀ d ∈ done, d.id ≠ c.id) :
    ∀ d ∈ done, d.pipelineId = some id → e.workOf? d = none := by
  intro d member owner
  by_contra sent
  obtain ⟨w, here⟩ := Option.ne_none_iff_exists'.mp sent
  obtain ⟨p', read', _, _, first', _⟩ := of_workOf?_pipeline owner here
  cases read.symm.trans read'
  exact fresh d member (Option.some.inj (first'.symm.trans first))

private theorem rearms_append : e.Rearms (due ++ [c]) id ↔
    e.Rearms due id ∨ e.IsDisabled id ∧ c.pipelineId = some id := by
  unfold Rearms
  simp only [List.mem_append, List.mem_singleton, or_and_right, exists_or, exists_eq_left,
    and_or_left]

private theorem disable_of_loaded {row : PipelineRow} {n : Nat}
    (loaded : e.store.Loaded n id p row) :
    p.disable = row.record.disable :=
  congrArg PipelineDetails.disable loaded.details

private theorem whole_of_sent {n : Nat} {jobs : List Job} (consistent : e.store.Consistent n)
    (member : .pipeline id jobs ∈ due.filterMap e.workOf?) : ∃ row,
      e.store.pipelines.get? id = some row ∧ jobs.map (·.id) = row.jobIds ∧
        ∀ i (j : Job), jobs[i]? = some j → j.sequence.toNat = i := by
  obtain ⟨c, _, sent⟩ := List.mem_filterMap.mp member
  cases owner : c.pipelineId with
  | none =>
    rw [workOf?_task owner] at sent
    split at sent <;> cases sent
  | some other =>
    obtain ⟨p, read, _, _, _, same⟩ := of_workOf?_pipeline owner sent
    cases same
    obtain ⟨row, loaded⟩ := consistent.loaded read
    refine ⟨row, loaded.found, ?_, fun i j here => ?_⟩
    · rw [← loaded.jobIds]
      cases p.jobs <;> rfl
    · rw [List.getElem?_modifyHead] at here
      split at here
      next =>
        obtain ⟨k, before, rfl⟩ := Option.map_eq_some_iff.mp here
        exact (consistent.placed_of_read read before).2.1
      next => exact (consistent.placed_of_read read here).2.1

private theorem Calm.enabled_of_sent (calm : e.Calm) (owner : c.pipelineId = some id)
    (sent : (e.workOf? c).isSome = true) : ¬e.IsDisabled id := by
  rintro ⟨row, found, disabled⟩
  obtain ⟨w, here⟩ := Option.isSome_iff_exists.mp sent
  obtain ⟨p, read, enabled, _⟩ := of_workOf?_pipeline owner here
  obtain ⟨row', loaded⟩ := calm.consistent.loaded read
  cases loaded.found.symm.trans found
  rw [disable_of_loaded loaded, disabled] at enabled
  cases enabled

/-! ### One more job -/

theorem JobAfter.append {j k : Job} (after : e.JobAfter due j k)
    (unsent : (e.workOf? c).isSome = true → c.id ≠ j.id)
    (unarmed : ∀ id, j.pipelineId = some id → e.IsDisabled id → c.pipelineId ≠ some id) :
    e.JobAfter (due ++ [c]) j k := by
  cases after with
  | kept others alone =>
    refine .kept (fun d member sent => ?_) fun id owner rearms => ?_
    · rcases List.mem_append.mp member with old | new
      · exact others d old sent
      · cases List.mem_singleton.mp new
        exact unsent sent
    · rcases rearms_append.mp rearms with old | ⟨disabled, own⟩
      · exact alone id owner old
      · exact unarmed id owner disabled own
  | scheduled d member sent same => exact .scheduled d (List.mem_append_left _ member) sent same
  | rearmed id p q l k owner rearms read arms member same reads =>
    exact .rearmed id p q l k owner (rearms_append.mpr (Or.inl rearms)) read arms member same reads

theorem RowAfter.append {row r : PipelineRow} (after : e.RowAfter due id row r)
    (unarmed : e.IsDisabled id → c.pipelineId ≠ some id) : e.RowAfter (due ++ [c]) id row r := by
  cases after with
  | kept alone =>
    refine .kept fun rearms => ?_
    rcases rearms_append.mp rearms with old | ⟨disabled, own⟩
    · exact alone old
    · exact unarmed disabled own
  | rearmed p q rearms read arms =>
    exact .rearmed p q (rearms_append.mpr (Or.inl rearms)) read arms

namespace Swept

theorem nil (e : Engine) : e.Swept [] e where
  rest := rfl
  store := rfl
  pool := by simp
  jobs _ j stored := ⟨j, stored, .kept (by simp) fun _ _ rearms => by simp [Rearms] at rearms⟩
  absent _ missing := missing
  pipelines _ row found := ⟨row, found, .kept fun rearms => by simp [Rearms] at rearms⟩
  absentPipelines _ missing := missing

theorem now (swept : e.Swept due e') : e'.now = e.now := by
  rw [swept.rest]

theorem issued (swept : e.Swept due e') : e'.issued = e.issued := by
  rw [swept.rest]

theorem closed (swept : e.Swept due e') : e'.store.isClosed = e.store.isClosed := by
  rw [swept.store]

theorem pass (swept : e.Swept done e₁) (unsent : e.workOf? c = none)
    (enabled : ∀ id, c.pipelineId = some id → ¬e.IsDisabled id) : e.Swept (done ++ [c]) e₁ where
  rest := swept.rest
  store := swept.store
  pool := by simpa [List.filterMap_append, unsent] using swept.pool
  jobs id j stored := by
    obtain ⟨k, stored', after⟩ := swept.jobs id j stored
    refine ⟨k, stored', after.append (by simp [unsent]) fun id _ disabled own => ?_⟩
    exact enabled id own disabled
  absent := swept.absent
  pipelines id row found := by
    obtain ⟨r, found', after⟩ := swept.pipelines id row found
    exact ⟨r, found', after.append fun disabled own => enabled id own disabled⟩
  absentPipelines := swept.absentPipelines

theorem send {j : Job} (calm : e.Calm) (swept : e.Swept done e₁) (sent : e.workOf? c = some w)
    (stored : e.store.jobs.get? c.id = some j) :
    e.Swept (done ++ [c]) { e₁ with
      store := { e₁.store with jobs := e₁.store.jobs.put c.id (c.markScheduled e.now) }
      pool := { e₁.pool with channel := e₁.pool.channel ++ [⟨w, true⟩] } } := by
  have isSent : (e.workOf? c).isSome = true := by simp [sent]
  refine ⟨?_, ?_, ?_, fun id i before => ?_, fun id missing => ?_, fun id row found => ?_,
    swept.absentPipelines⟩
  · rw [swept.rest]
  · rw [swept.store]
  · simp [swept.pool, List.filterMap_append, sent]
  · have key := calm.consistent.jobKey id i before
    simp only [Table.get?_put]
    split
    next same => exact ⟨_, rfl, .scheduled c (by simp) isSent (same.symm.trans key.symm)⟩
    next other =>
      obtain ⟨k, stored', after⟩ := swept.jobs id i before
      refine ⟨k, stored', after.append (fun _ same => other ?_) fun id _ disabled own => ?_⟩
      · exact key.symm.trans same.symm
      · exact calm.enabled_of_sent own isSent disabled
  · have other : id ≠ c.id := by
      rintro rfl
      rw [missing] at stored
      cases stored
    rw [Table.get?_put_ne _ _ other]
    exact swept.absent id missing
  · obtain ⟨r, found', after⟩ := swept.pipelines id row found
    exact ⟨r, found', after.append fun disabled own => calm.enabled_of_sent own isSent disabled⟩

end Swept

/-! ### In the middle of a tick -/

structure Sweeping (e : Engine) (done : List Job) (e₁ : Engine) : Prop extends e.Swept done e₁ where
  read : ∀ d ∈ done, ∃ j, e.store.jobs.get? d.id = some j ∧ j.reread = .ok d
  consistent : e₁.store.Consistent e₁.issued
  older : Store.Descends e.issued e.store e₁.store

/-- The job is submitted, or passed over, as it would have been before the tick. -/
def Submits (e : Engine) (done : List Job) (e₁ : Engine) (c : Job) : Prop :=
  ∃ e₂, e₁.submit c = (e₂, if (e.workOf? c).isSome then .submitted else .skipped) ∧
    e.Swept (done ++ [c]) e₂

namespace Sweeping

variable {j : Job} {row : PipelineRow}

theorem readable (calm : e.Calm) (sweeping : e.Sweeping done e₁) : e₁.store.Readable where
  open_ := sweeping.closed.trans calm.readable.open_
  shallow id k stored := by
    have issued := sweeping.consistent.jobIssued id k stored
    rw [sweeping.issued] at issued
    obtain ⟨j, before, same⟩ := sweeping.older.jobs id k issued stored
    rw [Job.depth_of_origin same]
    exact calm.readable.shallow id j before

theorem owner (sweeping : e.Sweeping done e₁) {d : Job} (member : d ∈ done)
    (stored : e.store.jobs.get? d.id = some j) : d.pipelineId = j.pipelineId := by
  obtain ⟨j', stored', read⟩ := sweeping.read d member
  cases stored.symm.trans stored'
  exact Job.pipelineId_of_origin (Job.origin_reread read)

private theorem row_kept (sweeping : e.Sweeping done e₁)
    (found : e.store.pipelines.get? id = some row)
    (unarmed : ¬e.Rearms done id) : e₁.store.pipelines.get? id = some row := by
  obtain ⟨r, found', after⟩ := sweeping.pipelines id row found
  cases after with
  | kept => exact found'
  | rearmed _ _ rearms => exact absurd rearms unarmed

/-- A pipeline that is not armed again, and of which nothing was sent, is read as it was. -/
theorem getPipeline_kept (calm : e.Calm) (sweeping : e.Sweeping done e₁)
    (found : e.store.pipelines.get? id = some row) (unarmed : ¬e.Rearms done id)
    (unsent : ∀ d ∈ done, d.pipelineId = some id → e.workOf? d = none) :
    e₁.store.getPipeline id = e.store.getPipeline id := by
  have same := (sweeping.row_kept found unarmed).trans found.symm
  refine Store.getPipeline_congr sweeping.closed same found fun jobId listed => ?_
  obtain ⟨j, stored, owner⟩ := (calm.consistent.linked.inPlace id row found).stored listed
  obtain ⟨k, stored', after⟩ := sweeping.jobs jobId j stored
  rw [stored', stored]
  cases after with
  | kept => rfl
  | scheduled d member sent key =>
    have here : e.store.jobs.get? d.id = some j := by
      rw [key, calm.consistent.jobKey jobId j stored]
      exact stored
    rw [unsent d member ((sweeping.owner member here).trans owner)] at sent
    cases sent
  | rearmed other _ _ _ _ owner' rearms =>
    rw [owner] at owner'
    cases owner'
    exact absurd rearms unarmed

/-- A job of a pipeline that was armed again is stored as it was armed then. -/
theorem job_rearmed (calm : e.Calm) (sweeping : e.Sweeping done e₁) {q : Pipeline}
    (read : e.store.getPipeline id = .ok p) (arms : p.recycle e.now = (q, .ok ()))
    (rearms : e.Rearms done id) {l : Job} (member : l ∈ q.jobs) :
    ∃ k, e₁.store.jobs.get? l.id = some k ∧ l.Rereads k := by
  obtain ⟨row, loaded⟩ := calm.consistent.loaded read
  have ids : q.jobs.map (·.id) = row.jobIds := (Pipeline.ids_recycle arms).trans loaded.jobIds
  have inPlace := calm.consistent.linked.inPlace id row loaded.found
  obtain ⟨j, stored, owner⟩ := inPlace.stored (ids ▸ List.mem_map_of_mem member)
  have key := calm.consistent.jobKey l.id j stored
  obtain ⟨k, stored', after⟩ := sweeping.jobs l.id j stored
  refine ⟨k, stored', ?_⟩
  cases after with
  | kept _ unarmed => exact absurd rearms (unarmed id owner)
  | scheduled d inside sent same =>
    have own := sweeping.owner inside (same.trans key ▸ stored)
    exact absurd rearms.1 (calm.enabled_of_sent (own.trans owner) sent)
  | rearmed other p' q' l' _ owner' _ read' arms' member' same reads =>
    cases owner.symm.trans owner'
    cases read.symm.trans read'
    cases arms.symm.trans arms'
    have distinct : (q.jobs.map (·.id)).Nodup := ids ▸ inPlace.distinct
    cases List.inj_on_of_nodup_map distinct member' member (same.trans key)
    exact reads

/-- A disabled pipeline is armed as it would have been before the tick, but for how often its jobs
have been read back. -/
theorem arms (calm : e.Calm) (sweeping : e.Sweeping done e₁) (disabled : e.IsDisabled id) :
    ∃ p q jobs p₁, e.store.getPipeline id = .ok p ∧ p.recycle e.now = (q, .ok ()) ∧
      List.Forall₂ Job.Rereads q.jobs jobs ∧ e₁.store.getPipeline id = .ok p₁ ∧
      p₁.disable = true ∧ p₁.recycle e.now = ({ q with jobs := jobs }, .ok ()) := by
  obtain ⟨row, found, isDisabled⟩ := disabled
  obtain ⟨p, read⟩ := calm.readable.getPipeline found
  obtain ⟨_, loaded⟩ := calm.consistent.loaded read
  cases found.symm.trans loaded.found
  have off : p.disable = true := (disable_of_loaded loaded).trans isDisabled
  obtain ⟨q, arms⟩ := calm.rearms id p read off
  by_cases rearms : e.Rearms done id
  -- It was armed by another of its jobs, and its jobs may have been read back since.
  · obtain ⟨r, found₁, after⟩ := sweeping.pipelines id row found
    obtain ⟨p₁, read₁⟩ := (sweeping.readable calm).getPipeline found₁
    obtain ⟨row', found', loads⟩ := Store.getPipeline_ok read₁
    cases found₁.symm.trans found'
    obtain ⟨_, _, rereads⟩ := sweeping.consistent.loadPipeline_ok found₁ loads
    obtain ⟨jobs, _, rfl⟩ := Store.loadPipeline_ok loads
    cases after with
    | kept unarmed => exact absurd rearms unarmed
    | rearmed p' q' _ read' arms' =>
      cases read.symm.trans read'
      cases arms.symm.trans arms'
      have ids : q.jobs.map (·.id) = row.jobIds := (Pipeline.ids_recycle arms).trans loaded.jobIds
      have reads : List.Forall₂ Job.Rereads q.jobs (sortBy Job.sequenceLe jobs) := by
        rw [← ids, List.forall₂_map_left_iff] at rereads
        refine ((List.forall₂_and_left _ _).mpr ⟨fun _ inside => inside, rereads⟩).imp ?_
        rintro l k ⟨member, i, stored, good⟩
        obtain ⟨i', stored', reads⟩ := sweeping.job_rearmed calm read arms rearms member
        cases stored.symm.trans stored'
        exact reads.tail good
      obtain ⟨_, _, _, _, _, _, armed⟩ := Pipeline.recycle_eq arms
      have timeless : q.duration = none := by rw [armed]
      have back : { Pipeline.reread { q with jobs := [] } with jobs := sortBy Job.sequenceLe jobs } =
          { q with jobs := sortBy Job.sequenceLe jobs } := by
        simp [Pipeline.reread, timeless]
      refine ⟨p, q, _, _, read, arms, reads, read₁, ?_, ?_⟩
      · have same := (Pipeline.recycle_ok arms).2.2.2
        exact (congrArg PipelineDetails.disable same).trans off
      · rw [back]
        exact Pipeline.recycle_again arms reads
  -- Nothing has come of its jobs so far.
  · have unsent : ∀ d ∈ done, d.pipelineId = some id → e.workOf? d = none := by
      intro d member owner
      by_contra sent
      exact calm.enabled_of_sent owner (Option.isSome_iff_ne_none.mpr sent) ⟨row, found, isDisabled⟩
    have same := sweeping.getPipeline_kept calm found rearms unsent
    exact ⟨p, q, q.jobs, p, read, arms, List.forall₂_same.mpr fun _ _ => .refl, same.trans read, off,
      arms⟩

/-- What becomes of a stored job when the jobs of an armed pipeline are written. -/
theorem job_put (calm : e.Calm) (sweeping : e.Sweeping done e₁) {q : Pipeline} {jobs : List Job}
    {jobId : Id} (owner : c.pipelineId = some id) (disabled : e.IsDisabled id)
    (read : e.store.getPipeline id = .ok p) (arms : p.recycle e.now = (q, .ok ()))
    (reads : List.Forall₂ Job.Rereads q.jobs jobs) (ids : jobs.map (·.id) = row.jobIds)
    (found : e.store.pipelines.get? id = some row) (stored : e.store.jobs.get? jobId = some j) :
    ∃ k, (Store.putJobs e₁.store.jobs jobs).get? jobId = some k ∧ e.JobAfter (done ++ [c]) j k := by
  have key := calm.consistent.jobKey jobId j stored
  by_cases inside : j.pipelineId = some id
  · have rearms : e.Rearms (done ++ [c]) id := rearms_append.mpr (Or.inr ⟨disabled, owner⟩)
    obtain ⟨_, found', listed⟩ := calm.consistent.linked.owned jobId j id stored inside
    cases found.symm.trans found'
    obtain ⟨l, member, rfl⟩ := List.mem_map.mp (ids ▸ listed)
    obtain ⟨k, member', written, same⟩ := Store.get?_putJobs_of_mem e₁.store.jobs member
    obtain ⟨m, inside', read'⟩ := forall₂_mem_right reads member'
    have origin : m.id = k.id := (Job.id_of_origin read'.origin).symm
    exact ⟨k, written, .rearmed id p q m k inside rearms read arms inside'
      (origin.trans (same.trans key.symm)) read'⟩
  · obtain ⟨k, stored₁, after⟩ := sweeping.jobs jobId j stored
    have unsent : (e.workOf? c).isSome = true → c.id ≠ j.id :=
      fun sent => absurd disabled (calm.enabled_of_sent owner sent)
    refine ⟨k, ?_, after.append unsent fun other owned _ same => ?_⟩
    · rw [Store.get?_putJobs_other]
      · exact stored₁
      · rintro l member rfl
        obtain ⟨j', stored', owner'⟩ := (calm.consistent.linked.inPlace id row found).stored
          (ids ▸ List.mem_map_of_mem member)
        cases stored.symm.trans stored'
        exact inside owner'
    · exact inside (owned.trans (same.symm.trans owner))

/-- A job of a disabled pipeline arms it again. -/
theorem rearm (calm : e.Calm) (sweeping : e.Sweeping done e₁) (owner : c.pipelineId = some id)
    (disabled : e.IsDisabled id) :
    ∃ e₂, e₁.submit c = (e₂, .skipped) ∧ e.Swept (done ++ [c]) e₂ := by
  obtain ⟨p, q, jobs, p₁, read, arms, reads, read₁, off, again⟩ := sweeping.arms calm disabled
  obtain ⟨row, loaded⟩ := calm.consistent.loaded read
  rw [← sweeping.now] at again
  obtain ⟨row₁, found₁, recycled⟩ := Store.recyclePipeline_ok sweeping.consistent read₁ again
  have unsent : e.workOf? c = none := by
    by_contra sent
    exact calm.enabled_of_sent owner (Option.isSome_iff_ne_none.mpr sent) disabled
  have ids : jobs.map (·.id) = row.jobIds := by
    rw [← loaded.jobIds, ← Pipeline.ids_recycle arms]
    refine (map_eq_of_forall₂ (reads.imp fun l k read => ?_)).symm
    exact (Job.id_of_origin read.origin).symm
  refine ⟨{ e₁ with store := { e₁.store with
      jobs := Store.putJobs e₁.store.jobs jobs
      pipelines := e₁.store.pipelines.put id { row₁ with record := { q with jobs := [] } } } },
    ?_, ?_, ?_, ?_, fun _ _ stored =>
      sweeping.job_put calm owner disabled read arms reads ids loaded.found stored,
    fun jobId missing => ?_, fun other r found => ?_, fun other missing => ?_⟩
  · simp only [submit, resolve, owner, read₁, off, if_true, Engine.rearm, recycled]
    rfl
  · rw [sweeping.rest]
  · rw [sweeping.store]
  · simpa [List.filterMap_append, unsent] using sweeping.pool
  · dsimp only
    rw [Store.get?_putJobs_other]
    · exact sweeping.absent jobId missing
    · rintro l member rfl
      obtain ⟨_, stored, _⟩ := (calm.consistent.linked.inPlace id row loaded.found).stored
        (ids ▸ List.mem_map_of_mem member)
      cases missing.symm.trans stored
  · obtain ⟨r', found', after⟩ := sweeping.pipelines other r found
    by_cases same : other = id
    · subst same
      cases found₁.symm.trans found'
      have listed : row₁.jobIds = r.jobIds := by cases after <;> rfl
      refine ⟨_, Table.get?_put_self _ _ _, ?_⟩
      rw [listed]
      exact .rearmed p q (rearms_append.mpr (Or.inr ⟨disabled, owner⟩)) read arms
    · refine ⟨r', (Table.get?_put_ne _ _ same).trans found', after.append fun _ own => same ?_⟩
      exact Option.some.inj (own.symm.trans owner)
  · have different : other ≠ id := by
      rintro rfl
      cases missing.symm.trans loaded.found
    exact (Table.get?_put_ne _ _ different).trans (sweeping.absentPipelines other missing)

/-- A job of a pipeline that is not disabled runs it as it was before the tick, or is passed over. -/
theorem resolve (calm : e.Calm) (sweeping : e.Sweeping done e₁)
    (stored : e.store.jobs.get? c.id = some j) (read : j.reread = .ok c)
    (fresh : ∀ d ∈ done, d.id ≠ c.id) (owner : c.pipelineId = some id)
    (enabled : ¬e.IsDisabled id) :
    e.workOf? c = none ∧ e₁.resolve c = (e₁, .skip) ∨
      ∃ chain w, e.workOf? c = some w ∧ e₁.resolve c = (e₁, .run chain) ∧ chain.head = c ∧
        Work.ofChain (chain.withHead (c.markScheduled e.now)) = .ok w := by
  have owner' : j.pipelineId = some id :=
    (Job.pipelineId_of_origin (Job.origin_reread read)).symm.trans owner
  obtain ⟨row, found, _⟩ := calm.consistent.linked.owned c.id j id stored owner'
  have unarmed : ¬e.Rearms done id := fun rearms => enabled rearms.1
  have found₁ := sweeping.row_kept found unarmed
  obtain ⟨p, reads⟩ := calm.readable.getPipeline found
  obtain ⟨_, loaded⟩ := calm.consistent.loaded reads
  cases found.symm.trans loaded.found
  obtain ⟨p₁, reads₁⟩ := (sweeping.readable calm).getPipeline found₁
  obtain ⟨_, loaded₁⟩ := sweeping.consistent.loaded reads₁
  cases found₁.symm.trans loaded₁.found
  obtain ⟨_, status, headId⟩ := loaded₁.agree loaded
  have enabled' : row.record.disable = false := by
    simpa using fun disabled => enabled ⟨row, found, disabled⟩
  have off : p.disable = false := (disable_of_loaded loaded).trans enabled'
  have runs : row.record.isRearmed = false := by
    have unfailed : (row.record.options.cancelOnFailure && row.record.status = .failed) = false := by
      simpa using calm.unfailed id row found
    rw [Pipeline.isRearmed, enabled', unfailed, Bool.or_false]
  have runs₁ : p₁.isRearmed = false :=
    (Pipeline.isRearmed_congr loaded₁.details loaded₁.status).trans runs
  by_cases runnable : p.headId = some c.id ∧ p.status.isActive = false
  · obtain ⟨first, idle⟩ := runnable
    have reads' := sweeping.getPipeline_kept calm found unarmed (unsent_of_first reads first fresh)
    obtain rfl : p = p₁ := Except.ok.inj ((reads'.trans reads).symm.trans reads₁)
    obtain ⟨next, rest, jobs⟩ := calm.consistent.jobs_of_first calm.readable.open_ reads first
      (Store.getJob_of_reread calm.readable.open_ stored read)
    have links := sweeping.consistent.links (sweeping.readable calm).open_ reads₁
    rw [jobs] at links
    have chained : loadChain e₁.store p.id (p.jobs.length - 1) c = .ok p.jobs := by
      rw [jobs]
      exact loadChain_of_links links
    obtain ⟨chain, linked, first', _⟩ := Chain.ofList_cons c (next :: rest)
    have whole := Chain.toList_withHead chain (c.markScheduled e.now)
    rw [Chain.toList_ofList linked, List.tail_cons] at whole
    refine Or.inr ⟨chain, .pipeline id (c.markScheduled e.now :: next :: rest), ?_, ?_, first', ?_⟩
    · simp [workOf?_pipeline owner reads, off, idle, first, jobs]
    · exact resolve_run owner reads₁ runs₁ first idle chained rfl (jobs ▸ linked)
    · refine Work.ofChain_of_several whole ?_
      rw [Chain.head_withHead]
      exact owner
  · have stays : p.headId ≠ some c.id ∨ p.status.isActive = true := by
      rwa [Decidable.not_and_iff_or_not, Bool.not_eq_false] at runnable
    refine Or.inl ⟨?_, resolve_skip owner reads₁ runs₁ (by rwa [headId, status])⟩
    rw [workOf?_pipeline owner reads, if_pos]
    rcases stays with other | active
    · simp [other]
    · simp [active]

private theorem submits_skip (sweeping : e.Sweeping done e₁) (skips : e₁.resolve c = (e₁, .skip))
    (unsent : e.workOf? c = none) (enabled : ∀ id, c.pipelineId = some id → ¬e.IsDisabled id) :
    e.Submits done e₁ c :=
  ⟨e₁, by simp [submit, skips, unsent], sweeping.pass unsent enabled⟩

private theorem submits_run {chain : Chain} (calm : e.Calm) (sweeping : e.Sweeping done e₁)
    (stored : e.store.jobs.get? c.id = some j) (accepts : e.pool.isAccepting = true)
    (room : (done.filterMap e.workOf?).length < e.pool.freeCapacity)
    (runs : e₁.resolve c = (e₁, .run chain)) (first : chain.head = c) (sent : e.workOf? c = some w)
    (made : Work.ofChain (chain.withHead (c.markScheduled e.now)) = .ok w) :
    e.Submits done e₁ c := by
  obtain ⟨k, stored₁, _⟩ := sweeping.jobs c.id j stored
  have accepts₁ : e₁.pool.isAccepting = true := by
    rw [sweeping.pool]
    exact accepts
  have room₁ : e₁.pool.hasRoom = true := by
    rw [Pool.hasRoom_iff, sweeping.pool, Pool.freeCapacity_sent, List.length_map]
    exact Nat.sub_pos_of_lt room
  rw [← sweeping.now] at made
  refine ⟨_, ?_, sweeping.send calm sent stored⟩
  rw [sent, submit_run runs first made (sweeping.readable calm).open_ (by simp [stored₁]) accepts₁
    room₁, sweeping.now]
  rfl

theorem submits (calm : e.Calm) (sweeping : e.Sweeping done e₁)
    (stored : e.store.jobs.get? c.id = some j) (read : j.reread = .ok c)
    (fresh : ∀ d ∈ done, d.id ≠ c.id) (accepts : e.pool.isAccepting = true)
    (room : (e.workOf? c).isSome = true →
      (done.filterMap e.workOf?).length < e.pool.freeCapacity) : e.Submits done e₁ c := by
  cases owner : c.pipelineId with
  | none =>
    cases disabled : c.disable with
    | true =>
      refine sweeping.submits_skip ?_ ?_ (by simp [owner])
      · simp [Engine.resolve, owner, disabled]
      · simp [workOf?_task owner, disabled]
    | false =>
      have sent : e.workOf? c = some (.task (c.markScheduled e.now)) := by
        simp [workOf?_task owner, disabled]
      have runs : e₁.resolve c = (e₁, .run (.single c)) := by simp [Engine.resolve, owner, disabled]
      exact sweeping.submits_run calm stored accepts (room (by simp [sent])) runs rfl sent rfl
  | some id =>
    by_cases disabled : e.IsDisabled id
    · obtain ⟨e₂, submits, swept⟩ := sweeping.rearm calm owner disabled
      have unsent : (e.workOf? c).isSome = false := by
        simpa using fun sent => calm.enabled_of_sent owner sent disabled
      exact ⟨e₂, by simp [submits, unsent], swept⟩
    · rcases sweeping.resolve calm stored read fresh owner disabled with
        ⟨unsent, skips⟩ | ⟨chain, w, sent, runs, first, made⟩
      · refine sweeping.submits_skip skips unsent fun other own => ?_
        cases owner.symm.trans own
        exact disabled
      · exact sweeping.submits_run calm stored accepts (room (by simp [sent])) runs first sent made

/-- Each job that is due is submitted or passed over, and the tick comes that much further. -/
theorem step (calm : e.Calm) (sweeping : e.Sweeping done e₁)
    (stored : e.store.jobs.get? c.id = some j) (read : j.reread = .ok c)
    (fresh : ∀ d ∈ done, d.id ≠ c.id) (accepts : e.pool.isAccepting = true)
    (room : (e.workOf? c).isSome = true →
      (done.filterMap e.workOf?).length < e.pool.freeCapacity) :
    ∃ e₂, e₁.submit c = (e₂, if (e.workOf? c).isSome then .submitted else .skipped) ∧
      e.Sweeping (done ++ [c]) e₂ := by
  obtain ⟨e₂, submits, swept⟩ := sweeping.submits calm stored read fresh accepts room
  have copy : e₁.store.IsCopy e₁.issued c :=
    (calm.consistent.isCopy_reread stored read).descends sweeping.older
      (Nat.le_of_eq sweeping.issued.symm)
  obtain ⟨consistent, older, issued, _⟩ :=
    (submit_submitted submits).keeps sweeping.consistent copy
  refine ⟨e₂, submits, swept, fun d member => ?_, consistent, ?_⟩
  · rcases List.mem_append.mp member with old | new
    · exact sweeping.read d old
    · cases List.mem_singleton.mp new
      exact ⟨j, stored, read⟩
  · rw [sweeping.issued] at older
    exact sweeping.older.trans older

theorem submitAll (calm : e.Calm) (sweeping : e.Sweeping done e₁) {rest : List Job}
    (scanned : ∀ d ∈ rest, ∃ j, e.store.jobs.get? d.id = some j ∧ j.reread = .ok d)
    (distinct : ((done ++ rest).map (·.id)).Nodup) (accepts : e.pool.isAccepting = true)
    (room : ((done ++ rest).filterMap e.workOf?).length ≤ e.pool.freeCapacity)
    (count : Nat) :
    ∃ e', e₁.submitAll count rest = (e', .done (count + (rest.filterMap e.workOf?).length)) ∧
      e.Sweeping (done ++ rest) e' := by
  induction rest generalizing e₁ done count with
  | nil => exact ⟨e₁, by simp [Engine.submitAll], by simpa using sweeping⟩
  | cons c rest ih =>
    obtain ⟨j, stored, read⟩ := scanned c List.mem_cons_self
    have fresh : ∀ d ∈ done, d.id ≠ c.id := by
      intro d member same
      rw [List.map_append, List.nodup_append] at distinct
      exact distinct.2.2 d.id (List.mem_map_of_mem member) c.id (by simp) same
    have fits (sent : (e.workOf? c).isSome = true) :
        (done.filterMap e.workOf?).length < e.pool.freeCapacity := by
      obtain ⟨w, here⟩ := Option.isSome_iff_exists.mp sent
      simp only [List.filterMap_append, List.filterMap_cons, here, List.length_append,
        List.length_cons] at room
      omega
    obtain ⟨e₂, submits, sweeping₂⟩ := sweeping.step calm stored read fresh accepts fits
    have split : done ++ c :: rest = done ++ [c] ++ rest := by simp
    rw [split] at distinct room ⊢
    have later : ∀ d ∈ rest, ∃ j, e.store.jobs.get? d.id = some j ∧ j.reread = .ok d :=
      fun d member => scanned d (List.mem_cons_of_mem _ member)
    cases work : e.workOf? c with
    | none =>
      obtain ⟨e', submits', swept⟩ := ih sweeping₂ later distinct room count
      refine ⟨e', ?_, swept⟩
      simp [Engine.submitAll, submits, work, submits']
    | some w =>
      obtain ⟨e', submits', swept⟩ := ih sweeping₂ later distinct room (count + 1)
      refine ⟨e', ?_, swept⟩
      simp [Engine.submitAll, submits, work, submits']
      omega

/-! ### After the tick -/

private theorem isDisabled_iff (calm : e.Calm) (sweeping : e.Sweeping due e')
    (read : e'.store.getPipeline id = .ok p) : p.disable = true ↔ e.IsDisabled id := by
  obtain ⟨r, loaded⟩ := sweeping.consistent.loaded read
  obtain ⟨row, found⟩ : ∃ row, e.store.pipelines.get? id = some row := by
    cases before : e.store.pipelines.get? id with
    | none => cases (sweeping.absentPipelines id before).symm.trans loaded.found
    | some row => exact ⟨row, rfl⟩
  have same : r.record.disable = row.record.disable := by
    obtain ⟨r', found', after⟩ := sweeping.pipelines id row found
    cases loaded.found.symm.trans found'
    cases after with
    | kept => rfl
    | rearmed q _ _ read' arms =>
      obtain ⟨_, loaded'⟩ := calm.consistent.loaded read'
      cases found.symm.trans loaded'.found
      have kept := congrArg PipelineDetails.disable (Pipeline.recycle_ok arms).2.2.2
      exact kept.trans (disable_of_loaded loaded')
  rw [disable_of_loaded loaded, same]
  refine ⟨fun disabled => ⟨row, found, disabled⟩, fun ⟨row', found', disabled⟩ => ?_⟩
  cases found.symm.trans found'
  exact disabled

theorem calm (calm : e.Calm) (sweeping : e.Sweeping due e') : e'.Calm where
  consistent := sweeping.consistent
  readable := sweeping.readable calm
  unfailed id r found := by
    cases before : e.store.pipelines.get? id with
    | none =>
      rw [sweeping.absentPipelines id before] at found
      cases found
    | some row =>
      obtain ⟨r', found', after⟩ := sweeping.pipelines id row before
      cases found.symm.trans found'
      cases after with
      | kept => exact calm.unfailed id r before
      | rearmed p q _ _ arms =>
        rintro ⟨_, failed⟩
        rw [show q.status = .pending from (Pipeline.recycle_ok arms).2.2.1] at failed
        cases failed
  rearms id p read off := by
    obtain ⟨_, q, jobs, p', _, _, _, read', _, again⟩ :=
      sweeping.arms calm ((sweeping.isDisabled_iff calm read).mp off)
    cases read.symm.trans read'
    rw [sweeping.now]
    exact ⟨_, again⟩

/-- Of the jobs that are still due after a tick none is to be sent at the same instant. -/
theorem nothing_left (calm : e.Calm) (sweeping : e.Sweeping due e')
    (all : ∀ id j c, e.store.jobs.get? id = some j → j.reread = .ok c → c.isDue e.now = true → c ∈ due)
    (stored : e'.store.jobs.get? c.id = some j) (read : j.reread = .ok c)
    (isDue : c.isDue e'.now = true) : e'.workOf? c = none := by
  by_contra sent
  obtain ⟨w, sent⟩ := Option.ne_none_iff_exists'.mp sent
  have pending : j.status = .pending :=
    (Job.status_reread read).symm.trans (Job.pending_of_isDue isDue)
  obtain ⟨i, before⟩ : ∃ i, e.store.jobs.get? c.id = some i := by
    cases before : e.store.jobs.get? c.id with
    | none => cases (sweeping.absent c.id before).symm.trans stored
    | some i => exact ⟨i, rfl⟩
  obtain ⟨j', stored', after⟩ := sweeping.jobs c.id i before
  cases stored.symm.trans stored'
  cases after with
  | scheduled => cases pending
  | rearmed id _ _ _ _ owner rearms =>
    have issued := sweeping.consistent.jobIssued c.id j stored
    rw [sweeping.issued] at issued
    obtain ⟨i', before', same⟩ := sweeping.older.jobs c.id j issued stored
    cases before.symm.trans before'
    have own : c.pipelineId = some id :=
      (Job.pipelineId_of_origin ((Job.origin_reread read).trans same)).trans owner
    obtain ⟨p, read', enabled, _⟩ := of_workOf?_pipeline own sent
    rw [(sweeping.isDisabled_iff calm read').mpr rearms.1] at enabled
    cases enabled
  | kept unsent unarmed =>
    have member : c ∈ due := all c.id j c before read (sweeping.now ▸ isDue)
    have key : c.id = j.id := (calm.consistent.jobKey c.id j before).symm
    refine unsent c member ?_ key
    cases owner : c.pipelineId with
    | none =>
      rw [workOf?_task owner] at sent ⊢
      split at sent
      next => cases sent
      next enabled => simp [enabled]
    | some id =>
      have own : j.pipelineId = some id :=
        (Job.pipelineId_of_origin (Job.origin_reread read)).symm.trans owner
      obtain ⟨p', read', enabled, idle, first, _⟩ := of_workOf?_pipeline owner sent
      obtain ⟨row, found, _⟩ := calm.consistent.linked.owned c.id j id before own
      obtain ⟨_, loaded'⟩ := sweeping.consistent.loaded read'
      cases (sweeping.row_kept found (unarmed id own)).symm.trans loaded'.found
      obtain ⟨p, reads⟩ := calm.readable.getPipeline found
      obtain ⟨_, loaded⟩ := calm.consistent.loaded reads
      cases found.symm.trans loaded.found
      obtain ⟨off, status, headId⟩ := loaded.agree loaded'
      rw [enabled] at off
      simp [workOf?_pipeline owner reads, off, status, idle, headId, first]

end Sweeping

/-- What a tick finds and sends when nothing keeps it from submitting a job. -/
theorem Calm.scheduleTick (calm : e.Calm) (accepts : e.pool.isAccepting = true)
    (read : e.store.getDueJobs e.now = .ok due)
    (room : (due.filterMap e.workOf?).length ≤ e.pool.freeCapacity) :
    ∃ e', e.scheduleTick = (e', .done (due.filterMap e.workOf?).length) ∧ e.Sweeping due e' := by
  have scanned : ∀ d ∈ due, ∃ j, e.store.jobs.get? d.id = some j ∧ j.reread = .ok d := by
    intro d member
    obtain ⟨j, stored, rereads, _⟩ := calm.consistent.stored_due read member
    exact ⟨j, stored, rereads⟩
  have start : e.Sweeping [] e := ⟨.nil e, by simp, calm.consistent, .refl _ _⟩
  obtain ⟨e', submits, sweeping⟩ := start.submitAll calm scanned
    (by simpa using calm.consistent.nodup_due read) accepts (by simpa using room) 0
  refine ⟨e', ?_, by simpa using sweeping⟩
  simpa [Engine.scheduleTick, read] using submits

/-- A whole tick from `e` to `e'`, and a second one at the same instant. -/
structure Ticks (e : Engine) (due : List Job) (e' e'' : Engine) : Prop where
  read : e.store.getDueJobs e.now = .ok due
  ordered : due.Pairwise fun a b => Job.dueLe a b = true
  distinct : (due.map (·.id)).Nodup
  complete : ∀ c, c ∈ due ↔ ∃ id j, e.store.jobs.get? id = some j ∧ j.reread = .ok c ∧
    c.isDue e.now = true
  whole : ∀ id jobs, .pipeline id jobs ∈ due.filterMap e.workOf? → ∃ row,
    e.store.pipelines.get? id = some row ∧ jobs.map (·.id) = row.jobIds ∧
      ∀ i (j : Job), jobs[i]? = some j → j.sequence.toNat = i
  sends : e.scheduleTick = (e', .done (due.filterMap e.workOf?).length)
  swept : e.Swept due e'
  again : e'.scheduleTick = (e'', .done 0)
  quiet : e''.pool = e'.pool

theorem Calm.ticks (calm : e.Calm) (accepts : e.pool.isAccepting = true)
    (room : ∀ due, e.store.getDueJobs e.now = .ok due →
      (due.filterMap e.workOf?).length ≤ e.pool.freeCapacity) :
    ∃ due e' e'', e.Ticks due e' e'' := by
  obtain ⟨due, read, ordered, complete⟩ := calm.readable.getDueJobs calm.consistent.indexed e.now
  obtain ⟨e', sends, sweeping⟩ := calm.scheduleTick accepts read (room due read)
  have calm' := sweeping.calm calm
  obtain ⟨due', read', _, complete'⟩ := calm'.readable.getDueJobs calm'.consistent.indexed e'.now
  have nothing : due'.filterMap e'.workOf? = [] := by
    rw [List.filterMap_eq_nil_iff]
    intro c member
    obtain ⟨id, j, stored, rereads, isDue⟩ := (complete' c).mp member
    have key : c.id = id :=
      (Job.id_of_origin (Job.origin_reread rereads)).trans (calm'.consistent.jobKey id j stored)
    refine sweeping.nothing_left calm (fun id j c stored rereads isDue => ?_) (key ▸ stored) rereads
      isDue
    exact (complete c).mpr ⟨id, j, stored, rereads, isDue⟩
  obtain ⟨e'', again, sweeping'⟩ := calm'.scheduleTick (by rw [sweeping.pool]; exact accepts) read'
    (by simp [nothing])
  refine ⟨due, e', e'', read, ordered, calm.consistent.nodup_due read, complete,
    fun _ _ => whole_of_sent calm.consistent, sends, sweeping.toSwept, ?_, ?_⟩
  · simpa [nothing] using again
  · simpa [nothing] using sweeping'.pool

end Engine

namespace System

variable {s : System} {now : Instant} {registry : Registry} {queueCapacity : Nat} {unit : TimeUnit}
  {workers poolCapacity : Nat} {actions : List Action} {e : Engine}

end System

end Rota
