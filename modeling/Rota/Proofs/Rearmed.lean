import Rota.Proofs.Run
/-! What a tick does for a pipeline that is to be armed again.
The tick reads the due jobs before it submits the first of them, but each submission looks at the
pipeline as it is stored by then. Once a submission has armed the pipeline again it may run, and it
does when its first job is still among the due ones. -/
namespace Rota

/-- The works that have been sent and not begun, in their order. -/
def Pool.handovers (p : Pool) : List Handover := p.channel ++ p.waiting.map (·.2)

theorem Pool.handovers_send {p q : Pool} {h : Handover} {answer : Sent}
    (sent : p.send h = (q, answer)) (accepted : answer ≠ .refused) :
    q.handovers = p.handovers ++ [h] := by
  unfold send at sent
  split at sent
  next =>
    cases sent
    exact absurd rfl accepted
  next =>
    split at sent
    next room =>
      cases sent
      have nobody : p.waiting = [] := by simp_all [hasRoom]
      simp [handovers, nobody]
    next =>
      cases sent
      simp [handovers]

namespace Engine

variable {e e' : Engine} {job : Job} {submission : Submission} {id : Id}

def ofPipeline (id : Id) (due : List Job) : List Job := due.filter fun c => c.pipelineId = some id

/-- No work of the pipeline `id` comes of these jobs: it is to be armed again, and its first job
does not come behind another of its jobs, or its first job is not among them. -/
def Bars (s : Store) (id : Id) (due : List Job) : Prop :=
  ∀ row, s.pipelines.get? id = some row →
    (row.record.isRearmed = true ∧ ∀ c ∈ (ofPipeline id due).tail, row.jobIds.head? ≠ some c.id) ∨
      ∀ c ∈ ofPipeline id due, row.jobIds.head? ≠ some c.id

/-- A job that runs is none of a pipeline that is barred. -/
theorem Resolved.elsewhere {c : Chain} {rest : List Job} (resolved : Resolved e job e' (.run c))
    (consistent : e.store.Consistent e.issued) (bars : Bars e.store id (job :: rest)) :
    job.pipelineId ≠ some id := by
  intro owner
  obtain ⟨p, read, first, _, runs⟩ := resolved.idle owner
  obtain ⟨row, loaded⟩ := consistent.loaded read
  rcases bars row loaded.found with ⟨rearms, _⟩ | never
  · have same := Pipeline.isRearmed_congr loaded.details loaded.status
    rw [runs, rearms] at same
    cases same
  · exact never job (by simp [ofPipeline, owner]) (loaded.headId.symm.trans first)

theorem Bars.rest {s s' : Store} {rest : List Job} (bars : Bars s id (job :: rest))
    (kept : ∀ row, s'.pipelines.get? id = some row → ∃ r, s.pipelines.get? id = some r ∧
      row.jobIds = r.jobIds ∧ (job.pipelineId ≠ some id → row.record = r.record)) :
    Bars s' id rest := by
  intro row found
  obtain ⟨r, before, same, record⟩ := kept row found
  by_cases owner : job.pipelineId = some id
  · have split : ofPipeline id (job :: rest) = job :: ofPipeline id rest := by
      simp [ofPipeline, owner]
    have now := bars r before
    rw [split, List.tail_cons] at now
    refine Or.inr fun c member => ?_
    rw [same]
    rcases now with ⟨_, behind⟩ | never
    · exact behind c member
    · exact never c (List.mem_cons_of_mem _ member)
  · have split : ofPipeline id (job :: rest) = ofPipeline id rest := by simp [ofPipeline, owner]
    have now := bars r before
    rw [split] at now
    rwa [same, record owner]

/-- No submission sends a work of a barred pipeline, and each leaves it barred. -/
theorem Submitted.bars {rest : List Job} (submitted : Submitted e job e' submission)
    (consistent : e.store.Consistent e.issued) (copy : e.store.IsCopy e.issued job)
    (bars : Bars e.store id (job :: rest)) :
    Bars e'.store id rest ∧ ∃ sent, e'.pool.handovers = e.pool.handovers ++ sent ∧
      ∀ h ∈ sent, h.work.pipelineId? ≠ some id := by
  have quiet : ∃ sent, e.pool.handovers = e.pool.handovers ++ sent ∧
      ∀ h ∈ sent, h.work.pipelineId? ≠ some id := ⟨[], by simp, by simp⟩
  have unwritten {store : Store} {jobs : List Job} (edited : Store.Edited e.store store jobs []) :
      Bars store id rest := by
    refine bars.rest fun row found => ⟨row, ?_, rfl, fun _ => rfl⟩
    rwa [edited.pipelines] at found
  cases submitted with
  | unsent => exact ⟨bars.rest fun row found => ⟨row, found, rfl, fun _ => rfl⟩, quiet⟩
  | rearmed other p store jobs records _ owner read _ edited _ pendingRecords =>
    obtain ⟨_, loaded⟩ := consistent.loaded read
    refine ⟨bars.rest fun row found => ?_, quiet⟩
    obtain ⟨r, before, same, ⟨kept, _⟩ | ⟨q, member, key, _⟩⟩ := edited.record_cases found
    · exact ⟨r, before, same, fun _ => kept⟩
    · refine ⟨r, before, same, fun elsewhere => absurd ?_ elsewhere⟩
      have own : q.id = other := (pendingRecords q member).1.trans loaded.key
      rw [owner, ← own, key]
  | refused _ _ _ _ _ edited => exact ⟨unwritten edited, quiet⟩
  | sent c w store pool answer _ resolved made edited sends accepted =>
    have owner := (System.carries_sent consistent copy resolved made).2.1
    refine ⟨unwritten edited, [⟨w, true⟩], Pool.handovers_send sends accepted, fun h member => ?_⟩
    rw [List.mem_singleton.mp member, owner]
    exact resolved.elsewhere consistent bars

private theorem submitAll_bars {due : List Job} {count : Nat} {state : TickState}
    (done : e.submitAll count due = (e', state)) (consistent : e.store.Consistent e.issued)
    (copies : ∀ c ∈ due, e.store.IsCopy e.issued c) (bars : Bars e.store id due) :
    ∃ sent, e'.pool.handovers = e.pool.handovers ++ sent ∧
      ∀ h ∈ sent, h.work.pipelineId? ≠ some id := by
  induction due generalizing e count with
  | nil =>
    cases done
    exact ⟨[], by simp, by simp⟩
  | cons job rest ih =>
    rw [submitAll] at done
    obtain ⟨e₁, submission, submits⟩ : ∃ e₁ submission, e.submit job = (e₁, submission) :=
      ⟨_, _, rfl⟩
    have submitted := submit_submitted submits
    have copy := copies job List.mem_cons_self
    obtain ⟨consistent₁, older, issued, _⟩ := submitted.keeps consistent copy
    obtain ⟨bars₁, sent, longer, elsewhere⟩ := submitted.bars consistent copy bars
    have goesOn {count : Nat} (done : e₁.submitAll count rest = (e', state)) :
        ∃ sent, e'.pool.handovers = e.pool.handovers ++ sent ∧
          ∀ h ∈ sent, h.work.pipelineId? ≠ some id := by
      have copies₁ (c : Job) (member : c ∈ rest) : e₁.store.IsCopy e₁.issued c :=
        (copies c (List.mem_cons_of_mem _ member)).descends older (Nat.le_of_eq issued.symm)
      obtain ⟨sent', longer', elsewhere'⟩ := ih done consistent₁ copies₁ bars₁
      refine ⟨sent ++ sent', by rw [longer', longer, List.append_assoc], fun h member => ?_⟩
      rcases List.mem_append.mp member with early | late
      · exact elsewhere h early
      · exact elsewhere' h late
    rw [submits] at done
    split at done
    all_goals
      next same =>
        cases same
        first
        | exact goesOn done
        | cases done; exact ⟨sent, longer, elsewhere⟩

end Engine

namespace System

variable {s : System} {now : Instant} {registry : Registry} {queueCapacity : Nat} {unit : TimeUnit}
  {workers poolCapacity : Nat} {actions : List Action} {id : Id} {row : PipelineRow}

/-- A scan sends no work of a pipeline that has failed and is to be armed again, unless its first
job comes behind another of its jobs that is due. -/
theorem rearmed_not_sent (made : new? now registry queueCapacity unit workers poolCapacity = some s)
    (short : ∀ a ∈ actions, a.IsShort) (distinct : Id.Distinct (s.run actions).engine.issued)
    (found : (s.run actions).engine.store.pipelines.get? id = some row)
    (failed : row.record.status = .failed) (cancels : row.record.options.cancelOnFailure = true)
    (first : ∀ due, (s.run actions).engine.store.getDueJobs (s.run actions).engine.now = .ok due →
      ∀ c ∈ (Engine.ofPipeline id due).tail, row.jobIds.head? ≠ some c.id) :
    ∃ sent, (s.run actions).engine.scheduleTick.1.pool.handovers =
        (s.run actions).engine.pool.handovers ++ sent ∧
      ∀ h ∈ sent, h.work.pipelineId? ≠ some id := by
  have sound := sound_run made short distinct
  unfold Engine.scheduleTick
  split
  next => exact ⟨[], by simp, by simp⟩
  next due read =>
    refine Engine.submitAll_bars (Prod.eta _).symm sound.consistent (fun c member => ?_)
      fun r again => ?_
    · obtain ⟨j, stored, rereads, _⟩ := sound.consistent.stored_due read member
      exact sound.consistent.isCopy_reread stored rereads
    · rw [found] at again
      cases again
      exact Or.inl ⟨by simp [Pipeline.isRearmed, failed, cancels], first due read⟩

def failedRun (interval interval' : String) : List Action :=
  [.createPipeline { exampleRequest with
      options := ⟨none, 0, true⟩
      jobs := [exampleStep "collect" (some interval), exampleStep "send" (some interval')] },
    .start, .look, .submit 0, .take, .proceed 0, .finish 0 (.success (.issued 1) none), .proceed 0,
    .finish 0 (.failure (.issued 2) "no route"), .advance 5000]

private theorem short_failedRun (interval interval' : String) :
    ∀ a ∈ failedRun interval interval', a.IsShort := by
  simp [failedRun, Action.IsShort]

/-- The first job has become due first. -/
theorem rearmed_not_sent_ordered : ∃ row sent,
    (start.run (failedRun "1 sec" "2 sec")).engine.store.pipelines.get? (.issued 0) = some row ∧
    row.record.status = .failed ∧ row.record.options.cancelOnFailure = true ∧
    (start.run (failedRun "1 sec" "2 sec")).engine.scheduleTick.1.pool.handovers =
      (start.run (failedRun "1 sec" "2 sec")).engine.pool.handovers ++ sent ∧
    ∀ h ∈ sent, h.work.pipelineId? ≠ some (.issued 0) := by
  obtain ⟨row, found, same⟩ := Option.map_eq_some_iff.mp
    (show ((start.run (failedRun "1 sec" "2 sec")).engine.store.pipelines.get? (.issued 0)).map
      (fun row => (row.record.status, row.record.options.cancelOnFailure, row.jobIds.head?)) =
        some (.failed, true, some (.issued 1)) by decide +kernel)
  simp only [Prod.mk.injEq] at same
  obtain ⟨failed, cancels, head⟩ := same
  obtain ⟨due, read, ids⟩ := ok_of_toOption
    (show ((start.run (failedRun "1 sec" "2 sec")).engine.store.getDueJobs
      (start.run (failedRun "1 sec" "2 sec")).engine.now).toOption.map
        (fun due => (Engine.ofPipeline (.issued 0) due).map (·.id)) =
          some [.issued 1, .issued 2] by decide +kernel)
  obtain ⟨sent, longer, elsewhere⟩ := rearmed_not_sent new_start (short_failedRun _ _)
    (Id.distinct_of_le (by decide +kernel)) found failed cancels fun due' again c member => by
      rw [read] at again
      cases again
      have late : c.id ∈ ((Engine.ofPipeline (.issued 0) due).map (·.id)).tail := by
        rw [← List.map_tail]
        exact List.mem_map_of_mem member
      rw [ids, List.tail_cons, List.mem_singleton] at late
      rw [head, late]
      decide
  exact ⟨row, sent, found, failed, cancels, longer, elsewhere⟩

/-- The second job has become due first: it arms the pipeline again, and then the first runs it. -/
theorem rearmed_sent : ∃ row due,
    (start.run (failedRun "2 sec" "1 sec")).engine.store.pipelines.get? (.issued 0) = some row ∧
    row.record.status = .failed ∧ row.record.options.cancelOnFailure = true ∧
    row.record.disable = false ∧
    (start.run (failedRun "2 sec" "1 sec")).engine.store.getDueJobs
      (start.run (failedRun "2 sec" "1 sec")).engine.now = .ok due ∧
    (Engine.ofPipeline (.issued 0) due).map (·.id) = [.issued 2, .issued 1] ∧
    (start.run (failedRun "2 sec" "1 sec")).engine.pool.handovers.length = 0 ∧
    (start.run (failedRun "2 sec" "1 sec")).engine.scheduleTick.1.pool.handovers.map
      (·.work.pipelineId?) = [some (.issued 0)] := by
  obtain ⟨row, found, same⟩ := Option.map_eq_some_iff.mp
    (show ((start.run (failedRun "2 sec" "1 sec")).engine.store.pipelines.get? (.issued 0)).map
      (fun row => (row.record.status, row.record.options.cancelOnFailure, row.record.disable)) =
        some (.failed, true, false) by decide +kernel)
  simp only [Prod.mk.injEq] at same
  obtain ⟨failed, cancels, enabled⟩ := same
  obtain ⟨due, read, ids⟩ := ok_of_toOption
    (show ((start.run (failedRun "2 sec" "1 sec")).engine.store.getDueJobs
      (start.run (failedRun "2 sec" "1 sec")).engine.now).toOption.map
        (fun due => (Engine.ofPipeline (.issued 0) due).map (·.id)) =
          some [.issued 2, .issued 1] by decide +kernel)
  exact ⟨row, due, found, failed, cancels, enabled, read, ids, by decide +kernel,
    by decide +kernel⟩

end System

end Rota
