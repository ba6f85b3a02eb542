import Rota.Proofs.Rows
/-! Where rows and copies come from.
What is stored, due, held or running after an action was so before it, or the action has made it:
of a request, of a row, or of the copy that a tick or a worker had. What holds of every row in every
run is read off these kinds. -/
namespace Rota

namespace System

open Engine (SubmittedRow Settles markFinished pipelineAfter)

/-- Where the row of the job `id` comes from that is stored after the action. -/
inductive JobSource (s : System) (a : Action) (id : Id) (j : Job) : Prop
  | kept (stored : s.engine.store.jobs.get? id = some j)
  | admitted (key : j.id = id) (blank : j.IsBlank) (admits : j.origin ∈ a.admits s.engine)
  | updated (r : UpdateJob) (i c : Job) (asked : a = .updateJob id r)
      (stored : s.engine.store.jobs.get? id = some i) (read : i.reread = .ok c)
      (same : j = r.applyTo c)
  | submitted (place : Nat) (c : Job) (asked : a = .submit place) (next : s.next? place = some c)
      (row : SubmittedRow s.engine c id j)
  | started (place : Nat) (h : Held) (c : Job) (waiting : List Job) (asked : a = .proceed place)
      (here : s.held[place]? = some h) (jobs : h.flight.jobs = c :: waiting) (key : c.id = id)
      (same : j = c.markStarted s.engine.now)
  | settled (place : Nat) (result : JobResult) (x : Execution) (asked : a = .finish place result)
      (here : s.engine.pool.executing[place]? = some x) (own : result.jobId = x.current.id)
      (key : x.current.id = id)
      (settles : Settles s.engine.now (markFinished x.current result s.engine.now) j)

inductive RecordSource (s : System) (a : Action) (id : Id) (row : PipelineRow) : Prop
  | kept (found : s.engine.store.pipelines.get? id = some row)
  | admitted (p : Pipeline) (key : p.id = id) (blank : p.IsBlank)
      (admits : ∀ j ∈ p.jobs, j.origin ∈ a.admits s.engine)
      (same : row = ⟨{ p with jobs := [] }, p.jobs.map (·.id)⟩)
  | updated (r : UpdatePipeline) (q : Pipeline) (asked : a = .updatePipeline id r)
      (read : s.engine.store.getPipeline id = .ok q)
      (same : row.record = { r.applyTo q with jobs := [] })
  | rearmed (place : Nat) (c : Job) (pipelineId : Id) (p : Pipeline) (asked : a = .submit place)
      (next : s.next? place = some c) (owner : c.pipelineId = some pipelineId)
      (read : s.engine.store.getPipeline pipelineId = .ok p) (holds : p.isRearmed = true)
      (key : p.id = id) (blank : row.record.IsBlank)
  | started (place : Nat) (pipelineId : Id) (q : Pipeline) (asked : a = .proceed place)
      (read : s.engine.store.getPipeline pipelineId = .ok q) (key : q.id = id)
      (same : row.record = { q.markStarted s.engine.now with jobs := [] })
  | ended (place : Nat) (result : JobResult) (x : Execution) (p q : Pipeline)
      (asked : a = .finish place result) (here : s.engine.pool.executing[place]? = some x)
      (whole : x.pipeline = some p) (key : p.id = id)
      (after : q = pipelineAfter p result x.waiting.isEmpty s.engine.now)
      (terminal : q.status.isTerminal = true) (same : row.record = { q with jobs := [] })

variable {s : System} {a : Action} {id : Id} {j : Job} {row : PipelineRow}

/-! ### Calls -/

private theorem rows_createJob (r : CreateJob) :
    (∀ id j, (s.engine.createJob r).1.store.jobs.get? id = some j →
      s.JobSource (.createJob r) id j) ∧
      (s.engine.createJob r).1.store.pipelines = s.engine.store.pipelines := by
  have done := Engine.createJob_created s.engine r
  cases answer : (s.engine.createJob r).2
  all_goals
    rw [answer] at done
    generalize (s.engine.createJob r).1 = e' at done
    cases done
  next => exact ⟨fun _ _ => .kept, rfl⟩
  next k =>
    refine ⟨fun id j stored => .kept ?_, rfl⟩
    obtain ⟨different, there⟩ := Table.get?_of_erase stored
    rwa [Store.withJob, Table.get?_put_ne _ _ different] at there
  next k runAt queue asked queued =>
    refine ⟨fun id j stored => ?_, rfl⟩
    rcases Table.get?_put_cases stored with ⟨same, rfl⟩ | ⟨_, before⟩
    · refine .admitted same.symm ?_ (by simp [Action.admits, answer, Except.toOption])
      rw [asked]
      exact ⟨rfl, rfl, rfl, rfl, rfl, rfl, rfl⟩
    · exact .kept before

private theorem rows_createPipeline (r : CreatePipeline) :
    (∀ id j, (s.engine.createPipeline r).1.store.jobs.get? id = some j →
      s.JobSource (.createPipeline r) id j) ∧
    ∀ id row, (s.engine.createPipeline r).1.store.pipelines.get? id = some row →
      s.RecordSource (.createPipeline r) id row := by
  have done := Engine.createPipeline_created s.engine r
  cases answer : (s.engine.createPipeline r).2
  all_goals
    rw [answer] at done
    generalize (s.engine.createPipeline r).1 = e' at done
    cases done
  next => exact ⟨fun _ _ => .kept, fun _ _ => .kept⟩
  next p _ _ =>
    refine ⟨fun id j stored => .kept ?_, fun id row found => .kept ?_⟩
    · obtain ⟨outside, there⟩ := Table.get?_of_eraseAll stored
      rcases Store.putJobs_cases there with ⟨inside, same⟩ | ⟨before, _⟩
      · exact absurd (List.mem_map.mpr ⟨j, inside, same⟩) outside
      · exact before
    · obtain ⟨different, there⟩ := Table.get?_of_erase found
      rwa [Store.withPipeline, Table.get?_put_ne _ _ different] at there
  next p runAt queue asked isNew length queued =>
    have admits : ∀ j ∈ p.jobs, j.origin ∈ (Action.createPipeline r).admits s.engine := by
      intro j inside
      simp only [Action.admits, answer, Except.toOption, Option.toList_some,
        List.flatMap_singleton]
      exact List.mem_map_of_mem inside
    refine ⟨fun id j stored => ?_, fun id row found => ?_⟩
    · rcases Store.putJobs_cases stored with ⟨inside, same⟩ | ⟨before, _⟩
      · exact .admitted same (Job.isBlank_ofRequest (asked ▸ inside)) (admits j inside)
      · exact .kept before
    · rcases Table.get?_put_cases found with ⟨same, rfl⟩ | ⟨_, before⟩
      · refine .admitted p same.symm ?_ admits rfl
        rw [asked]
        exact ⟨rfl, rfl, rfl, rfl⟩
      · exact .kept before

private theorem rows_updateJob (numbered : s.engine.store.Numbered s.engine.issued) (id : Id)
    (r : UpdateJob) :
    (∀ id' j, (s.engine.updateJob id r).1.store.jobs.get? id' = some j →
      s.JobSource (.updateJob id r) id' j) ∧
      (s.engine.updateJob id r).1.store.pipelines = s.engine.store.pipelines := by
  cases done : s.engine.updateJob id r with
  | mk e' answer =>
    cases answer with
    | error =>
      rw [Engine.updateJob_error done]
      exact ⟨fun _ _ => .kept, rfl⟩
    | ok k =>
      obtain ⟨c, store, read, rfl, _, written, rfl⟩ := Engine.updateJob_ok done
      obtain ⟨i, stored, rereads⟩ := Store.getJob_ok read
      have key : (r.applyTo c).id = id :=
        (Job.id_of_origin (Job.origin_reread rereads)).trans (numbered.jobKey id i stored)
      refine ⟨fun id' j found => ?_, Store.pipelines_updateJob written⟩
      rcases Store.updateJob_rows written found with ⟨same, rfl⟩ | before
      · obtain rfl := key.symm.trans same
        exact .updated r i c rfl stored rereads rfl
      · exact .kept before

private theorem rows_updatePipeline
    (recordKey : ∀ id row, s.engine.store.pipelines.get? id = some row →
    row.record.id = id) (id : Id) (r : UpdatePipeline) :
    (s.engine.updatePipeline id r).1.store.jobs = s.engine.store.jobs ∧
      ∀ id' row, (s.engine.updatePipeline id r).1.store.pipelines.get? id' = some row →
        s.RecordSource (.updatePipeline id r) id' row := by
  cases done : s.engine.updatePipeline id r with
  | mk e' answer =>
    cases answer with
    | error =>
      rw [Engine.updatePipeline_error done]
      exact ⟨rfl, fun _ _ => .kept⟩
    | ok p =>
      obtain ⟨q, store, read, rfl, _, written, rfl⟩ := Engine.updatePipeline_ok done
      obtain ⟨row, found, loads⟩ := Store.getPipeline_ok read
      obtain ⟨_, _, whole⟩ := Store.loadPipeline_ok loads
      have key : (r.applyTo q).id = id := by
        rw [whole]
        exact recordKey id row found
      refine ⟨Store.jobs_updatePipeline written, fun id' row' here => ?_⟩
      rcases Store.updatePipeline_rows written here with ⟨same, record⟩ | before
      · obtain rfl := key.symm.trans same
        exact .updated r q rfl read record
      · exact .kept before

/-! ### Steps of ticks and workers -/

private theorem rows_submitNext (s : System) (place : Nat) :
    (∀ id j, (s.submitNext place).engine.store.jobs.get? id = some j →
      s.JobSource (.submit place) id j) ∧
    ∀ id row, (s.submitNext place).engine.store.pipelines.get? id = some row →
      s.RecordSource (.submit place) id row := by
  unfold submitNext
  split
  next isScan job rest ticket here =>
    split
    next => exact ⟨fun _ _ => .kept, fun _ _ => .kept⟩
    next =>
      have next : s.next? place = some job := by simp [next?, here]
      dsimp only
      cases done : s.engine.submit job with
      | mk e answer =>
        obtain ⟨jobs, records⟩ := Engine.submit_rows done
        refine ⟨fun id j stored => .submitted place job rfl next (jobs id j stored),
          fun id row found => ?_⟩
        rcases records id row found with ⟨pipelineId, p, owner, read, holds, key, blank⟩ | before
        · exact .rearmed place job pipelineId p rfl next owner read holds key blank
        · exact .kept before
  next => exact ⟨fun _ _ => .kept, fun _ _ => .kept⟩

private theorem rows_proceed (s : System) (place : Nat) :
    (∀ id j, (s.proceed place).engine.store.jobs.get? id = some j →
      s.JobSource (.proceed place) id j) ∧
    ∀ id row, (s.proceed place).engine.store.pipelines.get? id = some row →
      s.RecordSource (.proceed place) id row := by
  unfold proceed
  split
  next => exact ⟨fun _ _ => .kept, fun _ _ => .kept⟩
  next h here =>
    have rows {e' : Engine} {answer : Except StoreError (Option Execution)}
        (begun : s.engine.beginWork .worker h = (e', answer)) :
        (∀ id j, e'.store.jobs.get? id = some j → s.JobSource (.proceed place) id j) ∧
          ∀ id row, e'.store.pipelines.get? id = some row →
            s.RecordSource (.proceed place) id row := by
      obtain ⟨jobs, records⟩ := Engine.beginWork_rows begun
      refine ⟨fun id j stored => ?_, fun id row found => ?_⟩
      · rcases jobs id j stored with ⟨c, waiting, first, key, same⟩ | before
        · exact .started place (.work h) c waiting rfl here first key same
        · exact .kept before
      · rcases records id row found with ⟨pipelineId, q, read, key, same⟩ | before
        · exact .started place pipelineId q rfl read key same
        · exact .kept before
    dsimp only
    split
    all_goals
      next begun =>
        have all := rows begun
        exact all
  next i here =>
    have rows {e' : Engine} {answer : Execution ⊕ Engine.Ended}
        (begun : s.engine.goOn i = (e', answer)) :
        (∀ id j, e'.store.jobs.get? id = some j → s.JobSource (.proceed place) id j) ∧
          ∀ id row, e'.store.pipelines.get? id = some row →
            s.RecordSource (.proceed place) id row := by
      obtain ⟨pipelines, jobs⟩ := Engine.goOn_rows begun
      refine ⟨fun id j stored => ?_, fun id row found => .kept (pipelines ▸ found)⟩
      rcases jobs id j stored with ⟨c, waiting, first, key, same⟩ | before
      · exact .started place (.rest i) c waiting rfl here first key same
      · exact .kept before
    dsimp only
    split
    next begun =>
      have all := rows begun
      exact all
    next begun =>
      rw [Engine.store_endExecution]
      exact rows begun

theorem rows_finish (s : System) (place : Nat) (result : JobResult) :
    (∀ id j, (s.finish place result).engine.store.jobs.get? id = some j →
      s.JobSource (.finish place result) id j) ∧
    ∀ id row, (s.finish place result).engine.store.pipelines.get? id = some row →
      s.RecordSource (.finish place result) id row := by
  unfold finish
  split
  next => exact ⟨fun _ _ => .kept, fun _ _ => .kept⟩
  next x here =>
    split
    next own =>
      have rows {e' : Engine} {answer : Engine.Interlude ⊕ Engine.Ended}
          (concluded : Engine.concludeJob { s.engine with pool :=
            { s.engine.pool with executing := s.engine.pool.executing.eraseIdx place } } x result =
              (e', answer)) :
          (∀ id j, e'.store.jobs.get? id = some j → s.JobSource (.finish place result) id j) ∧
            ∀ id row, e'.store.pipelines.get? id = some row →
              s.RecordSource (.finish place result) id row := by
        obtain ⟨jobs, records⟩ := Engine.concludeJob_rows concluded
        refine ⟨fun id j stored => ?_, fun id row found => ?_⟩
        · rcases jobs id j stored with ⟨key, settles⟩ | before
          · exact .settled place result x rfl here own key settles
          · exact .kept before
        · rcases records id row found with ⟨p, q, whole, key, after, terminal, same⟩ | before
          · exact .ended place result x p q rfl here whole key after terminal same
          · exact .kept before
      dsimp only
      split
      next concluded =>
        have all := rows concluded
        exact all
      next concluded =>
        rw [Engine.store_endExecution]
        exact rows concluded
    next => exact ⟨fun _ _ => .kept, fun _ _ => .kept⟩

theorem rows_perform {A : List Origin} (accounted : s.Accounted A) (a : Action) :
    (∀ id j, (s.perform a).engine.store.jobs.get? id = some j → s.JobSource a id j) ∧
      ∀ id row, (s.perform a).engine.store.pipelines.get? id = some row →
        s.RecordSource a id row := by
  have same (jobs : (s.perform a).engine.store.jobs = s.engine.store.jobs)
      (pipelines : (s.perform a).engine.store.pipelines = s.engine.store.pipelines) :
      (∀ id j, (s.perform a).engine.store.jobs.get? id = some j → s.JobSource a id j) ∧
        ∀ id row, (s.perform a).engine.store.pipelines.get? id = some row →
          s.RecordSource a id row :=
    ⟨fun id j stored => .kept (jobs ▸ stored), fun id row found => .kept (pipelines ▸ found)⟩
  have untouched (store : (s.perform a).engine.store = s.engine.store) :
      (∀ id j, (s.perform a).engine.store.jobs.get? id = some j → s.JobSource a id j) ∧
        ∀ id row, (s.perform a).engine.store.pipelines.get? id = some row →
          s.RecordSource a id row :=
    same (congrArg Store.jobs store) (congrArg Store.pipelines store)
  have fewer (erased : s.engine.Erased (s.perform a).engine) :
      (∀ id j, (s.perform a).engine.store.jobs.get? id = some j → s.JobSource a id j) ∧
        ∀ id row, (s.perform a).engine.store.pipelines.get? id = some row →
          s.RecordSource a id row := by
    obtain ⟨⟨ids, jobs⟩, ids', pipelines⟩ := erased
    refine ⟨fun id j stored => .kept ?_, fun id row found => .kept ?_⟩
    · rw [jobs] at stored
      exact (Table.get?_of_eraseAll stored).2
    · rw [pipelines] at found
      exact (Table.get?_of_eraseAll found).2
  cases a with
  | createJob r =>
    obtain ⟨jobs, pipelines⟩ := rows_createJob (s := s) r
    exact ⟨jobs, fun id row found => .kept (pipelines ▸ found)⟩
  | createPipeline r => exact rows_createPipeline r
  | updateJob id r =>
    obtain ⟨jobs, pipelines⟩ := rows_updateJob accounted.numbered id r
    exact ⟨jobs, fun id row found => .kept (pipelines ▸ found)⟩
  | updatePipeline id r =>
    obtain ⟨jobs, records⟩ :=
      rows_updatePipeline (fun id row found => (accounted.recorded.recordKey id row found).1) id r
    exact ⟨fun id j stored => .kept (jobs ▸ stored), records⟩
  | deleteJob id => exact fewer (Engine.deleteJob_erased s.engine id)
  | dropJobs => exact fewer (Engine.dropJobs_erased s.engine)
  | deletePipeline id => exact fewer (Engine.deletePipeline_erased s.engine id)
  | deleteResult id => exact fewer (Engine.deleteResult_erased s.engine id)
  | submit place => exact rows_submitNext s place
  | proceed place => exact rows_proceed s place
  | finish place result => exact rows_finish s place result
  | scan => exact untouched (store_scan s)
  | look => exact untouched (store_look s)
  | abandon place => exact untouched (store_abandon s place)
  | take => exact untouched (store_take s)
  | save place =>
    have stores : (s.save place).engine.store.jobs = s.engine.store.jobs ∧
        (s.save place).engine.store.pipelines = s.engine.store.pipelines := by
      unfold save
      split
      next => exact ⟨rfl, rfl⟩
      next =>
        dsimp only
        split
        next created =>
          obtain rfl := Store.createResult_ok created
          exact ⟨rfl, rfl⟩
        next => exact ⟨rfl, rfl⟩
    exact same stores.1 stores.2
  | _ => exact same rfl rfl

/-! ### Copies -/

inductive DueSource (s : System) (a : Action) (c : Job) : Prop
  | kept (inside : c ∈ s.due)
  | scanned (i : Job) (asked : a = .scan) (inside : i ∈ s.engine.store.jobs.values)
      (read : i.reread = .ok c) (isDue : c.isDue s.engine.now = true)
  | looked (queued i : Job) (rest : List Job) (asked : a = .look)
      (first : s.engine.queue.jobs = queued :: rest)
      (stored : s.engine.store.jobs.get? queued.id = some i) (read : i.reread = .ok c)

theorem due_source {c : Job} (member : c ∈ (s.perform a).due) : s.DueSource a c := by
  have same (ticks : (s.perform a).ticks = s.ticks) : s.DueSource a c := by
    unfold due at member
    rw [ticks] at member
    exact .kept member
  obtain ⟨t, inside, own⟩ := List.mem_flatMap.mp member
  have old (before : t ∈ s.ticks) : s.DueSource a c := .kept (List.mem_flatMap.mpr ⟨t, before, own⟩)
  cases a with
  | scan =>
    simp only [perform, scan] at inside
    split at inside
    next due read =>
      rcases List.mem_append.mp inside with before | new
      · exact old before
      · rw [List.mem_singleton.mp new] at own
        obtain ⟨isDue, i, row, rereads⟩ := Store.mem_due read own
        exact .scanned i rfl row rereads isDue
    next => exact old inside
  | look =>
    simp only [perform, look] at inside
    split at inside
    next => exact old inside
    next queued queue popped =>
      split at inside
      next job read =>
        rcases List.mem_append.mp inside with before | new
        · exact old before
        · rw [List.mem_singleton.mp new] at own
          cases List.mem_singleton.mp own
          obtain ⟨i, stored, rereads⟩ := Store.getJob_ok read
          unfold JobQueue.pop at popped
          split at popped
          next => cases popped
          next =>
            split at popped
            next => cases popped
            next first rest listed =>
              cases popped
              exact .looked queued i rest rfl listed stored rereads
      next => exact old inside
  | submit place =>
    simp only [perform, submitNext] at inside
    split at inside
    next here =>
      split at inside
      next => exact old inside
      next =>
        obtain ⟨t', before, fewer⟩ := due_afterSubmission here inside
        exact .kept (List.mem_flatMap.mpr ⟨t', before, fewer c own⟩)
    next => exact old inside
  | abandon place =>
    simp only [perform, abandon] at inside
    split at inside
    next =>
      split at inside
      next => exact old (List.mem_of_mem_eraseIdx inside)
      next => exact old inside
    next => exact old inside
  | take => exact same (ticks_take s)
  | proceed place => exact same (ticks_proceed s place)
  | finish place result => exact same (ticks_finish s place result)
  | save place => exact same (ticks_save s place)
  | _ => exact same rfl

inductive RunSource (s : System) (a : Action) (x : Execution) : Prop
  | kept (runs : x ∈ s.engine.pool.executing)
  | begun (place : Nat) (h : Held) (c : Job) (asked : a = .proceed place)
      (here : s.held[place]? = some h) (jobs : h.flight.jobs = c :: x.waiting)
      (current : x.current = c.markStarted s.engine.now) (timed : x.startedAt = s.engine.time)
      (record : x.pipeline = h.flight.record ∨ ∃ id q, s.engine.store.getPipeline id = .ok q ∧
        x.pipeline = some (q.markStarted s.engine.now))

theorem run_source {x : Execution} (runs : x ∈ (s.perform a).engine.pool.executing) :
    s.RunSource a x := by
  have added {e : Engine} {y : Execution} (pool : e.pool = s.engine.pool)
      (inside : x ∈ (e.addExecution y).pool.executing) :
      x ∈ s.engine.pool.executing ∨ x = y := by
    rw [Engine.addExecution, pool] at inside
    rcases List.mem_append.mp inside with old | new
    · exact Or.inl old
    · exact Or.inr (List.mem_singleton.mp new)
  by_cases run : a.isRun = true
  · cases a with
    | proceed place =>
      simp only [perform, proceed] at runs
      split at runs
      next => exact .kept runs
      next h here =>
        have same := Engine.pool_beginWork s.engine .worker h
        split at runs
        next y begun =>
          rw [begun] at same
          rcases added same runs with old | rfl
          · exact .kept old
          · obtain ⟨c, _, jobs, current, _, began, _⟩ := Engine.beginWork_some begun
            refine .begun place (.work h) c rfl here jobs current (Engine.beginWork_startedAt begun) ?_
            unfold Engine.Began at began
            split at began
            next => exact Or.inl began
            next => exact Or.inr ⟨_, began⟩
        next begun =>
          rw [begun] at same
          exact .kept (same ▸ runs)
      next i here =>
        have same := Engine.pool_goOn s.engine i
        split at runs
        next y begun =>
          rw [begun] at same
          rcases added same runs with old | rfl
          · exact .kept old
          · obtain ⟨c, _, jobs, current, whole, _⟩ := Engine.goOn_inl begun
            exact .begun place (.rest i) c rfl here jobs current (Engine.goOn_startedAt begun)
              (Or.inl whole)
        next begun =>
          rw [begun] at same
          rw [Engine.pool_endExecution] at runs
          exact .kept (same ▸ runs)
    | finish place result => exact .kept (running_finish.1 x runs)
    | save place => exact .kept ((running_save s place).1 ▸ runs)
    | _ => cases run
  · exact .kept ((lasting_perform (s := s) (by simpa using run)).1 ▸ runs)

inductive HeldSource (s : System) (a : Action) (h : Held) : Prop
  | kept (holds : h ∈ s.held)
  | taken (w : Handover) (same : h = .work w)
  | paused (place : Nat) (result : JobResult) (x : Execution) (i : Engine.Interlude)
      (asked : a = .finish place result) (here : s.engine.pool.executing[place]? = some x)
      (same : h = .rest i) (record : i.pipeline = x.pipeline)

theorem held_source {h : Held} (holds : h ∈ (s.perform a).held) : s.HeldSource a h := by
  cases a with
  | take =>
    simp only [perform, take] at holds
    split at holds
    next =>
      split at holds
      next w _ _ =>
        rcases List.mem_append.mp holds with old | new
        · exact .kept old
        · exact .taken w (List.mem_singleton.mp new)
      next => exact .kept holds
    next => exact .kept holds
  | proceed place =>
    simp only [perform, proceed] at holds
    split at holds
    next => exact .kept holds
    all_goals
      split at holds
      all_goals exact .kept (List.mem_of_mem_eraseIdx holds)
  | finish place result =>
    simp only [perform, finish] at holds
    split at holds
    next => exact .kept holds
    next x here =>
      split at holds
      next =>
        split at holds
        next i concluded =>
          rcases List.mem_append.mp holds with old | new
          · exact .kept old
          · obtain ⟨_, _, _, _, _, _, _, _, _, _, _, _, _, goes | stops⟩ :=
              Engine.concludeJob_spec concluded
            · obtain ⟨p, _, whole, same, _, _, _, record, _⟩ := goes
              cases same
              exact .paused place result x i rfl here (List.mem_singleton.mp new)
                (record.trans whole.symm)
            · obtain ⟨_, same, _⟩ := stops
              cases same
        next => exact .kept holds
      next => exact .kept holds
  | submit place =>
    simp only [perform, submitNext] at holds
    split at holds
    next => split at holds <;> exact .kept holds
    next => exact .kept holds
  | abandon place =>
    simp only [perform, abandon] at holds
    split at holds
    next => split at holds <;> exact .kept holds
    next => exact .kept holds
  | scan =>
    simp only [perform, scan] at holds
    split at holds <;> exact .kept holds
  | look =>
    simp only [perform, look] at holds
    split at holds
    next => exact .kept holds
    next => split at holds <;> exact .kept holds
  | save place =>
    simp only [perform, save] at holds
    split at holds
    next => exact .kept holds
    next => split at holds <;> exact .kept holds
  | _ => exact .kept holds

end System

end Rota
