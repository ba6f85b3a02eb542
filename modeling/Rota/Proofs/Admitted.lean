import Rota.Proofs.Calls
import Rota.Proofs.RunTime
import Rota.Proofs.Stranded
import Rota.Proofs.Updates
/-! What is admitted.
A request is accepted exactly when its run time, its names, its tasks and its intervals can be read
and the queue has room for what is to run at once. So the intervals of all that is ever stored can be
read. -/
namespace Rota
open Rota.Text

/-- No run time is given, or one that names nothing or an instant. -/
def HasRunTime (runAt : Option String) (now : Instant) : Prop :=
  ∀ text ∈ runAt, ∃ t, RunAt text now (.ok t)

/-- The interval of a step in a pipeline: its own, or the pipeline's where there is none or a blank
one. -/
def CreatePipelineJob.intervalIn (step : CreatePipelineJob) (interval : Option String) :
    Option String :=
  match step.options.runOnInterval with
  | some own => if isBlankText own then interval else some own
  | none => interval

/-- What a request for a job has to say, and the engine to have. -/
structure CreateJob.Valid (r : CreateJob) (e : Engine) : Prop where
  runTime : r.runNow = true ∨ HasRunTime r.runAt e.now
  job : Job.Admissible (e.registry.map (·.1)) r.name r.taskName r.options.runOnInterval
  room : r.runNow = true → e.queue.HasRoom

structure CreatePipeline.Valid (r : CreatePipeline) (e : Engine) : Prop where
  runTime : r.runNow = true ∨ HasRunTime r.runAt e.now
  named : ∃ c ∈ r.name.toList, isBlank c = false
  several : 2 ≤ r.jobs.length
  steps : ∀ step ∈ r.jobs, Job.Admissible (e.registry.map (·.1)) step.name step.taskName
    (step.intervalIn r.options.runOnInterval)
  recurs : Interval.Accepts r.options.runOnInterval
  room : r.runNow = true → e.queue.HasRoom

private theorem Registry.mem_names_iff {registry : Registry} {name : String} :
    name ∈ registry.names ↔ name ∈ registry.map (·.1) :=
  (sortBy_perm _ _).mem_iff

/-- The order of the registered names makes no difference. -/
theorem Job.admissible_names_iff {registry : Registry} {name taskName : String}
    {interval : Option String} : Admissible registry.names name taskName interval ↔
      Admissible (registry.map (·.1)) name taskName interval :=
  ⟨fun ok => { ok with registered := Registry.mem_names_iff.mp ok.registered },
    fun ok => { ok with registered := Registry.mem_names_iff.mpr ok.registered }⟩

namespace Engine

variable {e : Engine} {j : Job} {p : Pipeline}

/-! ### The first run time -/

private theorem firstRunAt_ok_iff {runNow : Bool} {runAt : Option String} {now : Instant} :
    (∃ t, firstRunAt runNow runAt now = .ok t) ↔ runNow = true ∨ HasRunTime runAt now := by
  cases runNow with
  | true => simp [firstRunAt]
  | false =>
    have read : (∃ t, firstRunAt false runAt now = .ok t) ↔
        ∃ t, parseRunAt (runAt.getD "") now = .ok t := by
      simp only [firstRunAt, Bool.false_eq_true, if_false]
      cases parseRunAt (runAt.getD "") now <;> simp
    rw [read]
    cases runAt with
    | none => simp [HasRunTime, parseRunAt_of_blank]
    | some text => simp [HasRunTime, parseRunAt_eq_iff]

/-- Only what goes to the queue at once has no first run time. -/
theorem firstRunAt_eq_none_iff {runNow : Bool} {runAt : Option String} {now : Instant}
    {t : Option Instant} (asked : firstRunAt runNow runAt now = .ok t) :
    t = none ↔ runNow = true := by
  cases runNow with
  | true =>
    cases asked
    simp
  | false => simpa using Option.isSome_iff_ne_none.mp (dated_firstRunAt asked)

/-! ### Jobs -/

private theorem createJob_of_passes {r : CreateJob} {runAt : Option Instant}
    (open_ : e.store.isClosed = false)
    (asked : firstRunAt r.runNow r.runAt e.now = .ok runAt)
    (same : j = { jobOfRequest (.issued e.issued) r e.now with runAt := runAt })
    (valid : j.validate e.registry.names = .ok ()) (room : r.runNow = true → e.queue.HasRoom) :
    (e.createJob r).2 = .ok j := by
  have stored := Store.createJob_of_open (j := j) open_
  unfold createJob issueId
  subst same
  simp only [asked, valid, stored, Except.mapError, bind, Except.bind]
  split
  next now =>
    split
    next => rfl
    next refused =>
      cases (congrArg Prod.snd refused).symm.trans (enqueueNew_ok_iff.mpr (room now))
  next => rfl

theorem createJob_accepts_iff {r : CreateJob} (open_ : e.store.isClosed = false) :
    (∃ j, (e.createJob r).2 = .ok j) ↔ r.Valid e := by
  constructor
  · rintro ⟨j, answer⟩
    obtain ⟨runAt, asked, rfl, valid, room⟩ := passes_createJob answer
    exact ⟨firstRunAt_ok_iff.mp ⟨runAt, asked⟩,
      Job.admissible_names_iff.mp (Job.validate_ok_iff.mp valid), room⟩
  · rintro ⟨runTime, job, room⟩
    obtain ⟨runAt, asked⟩ := firstRunAt_ok_iff.mpr runTime
    exact ⟨_, createJob_of_passes open_ asked rfl
      (Job.validate_ok_iff.mpr (Job.admissible_names_iff.mpr job)) room⟩

/-! ### Pipelines -/

private theorem interval_jobOfStep (id pipelineId : Id) (position : Nat) (interval : Option String)
    (step : CreatePipelineJob) (now : Instant) :
    let j := jobOfStep id pipelineId position interval step now
    j.name = step.name ∧ j.taskName = step.taskName ∧
      j.options.runOnInterval = step.intervalIn interval := by
  unfold jobOfStep CreatePipelineJob.intervalIn
  cases own : step.options.runOnInterval with
  | none => simp [Job.intervalEnabled, Job.new, own]
  | some text =>
    cases blank : isBlankText text <;> simp [Job.intervalEnabled, Job.new, own, blank]

private theorem admissible_pipelineOfRequest {n : Nat} {r : CreatePipeline} {runAt : Option Instant}
    {now : Instant} {tasks : List String} :
    (∀ j ∈ (pipelineOfRequest n r runAt now).jobs,
      Job.Admissible tasks j.name j.taskName j.options.runOnInterval) ↔
    ∀ step ∈ r.jobs, Job.Admissible tasks step.name step.taskName
      (step.intervalIn r.options.runOnInterval) := by
  have fields (i : Nat) (step : CreatePipelineJob) := interval_jobOfStep (Id.issued (n + 1 + i))
    (Id.issued n) i r.options.runOnInterval step now
  constructor
  · intro all step member
    obtain ⟨i, here⟩ := List.mem_iff_getElem?.mp member
    have place := getElem?_pipelineOfRequest n r runAt now i
    rw [here, Option.map_some] at place
    have ok := all _ (List.mem_of_getElem? place)
    obtain ⟨name, task, interval⟩ := fields i step
    dsimp only at ok
    rwa [name, task, interval] at ok
  · intro all j member
    obtain ⟨i, here⟩ := List.mem_iff_getElem?.mp member
    rw [getElem?_pipelineOfRequest] at here
    obtain ⟨step, inside, rfl⟩ := Option.map_eq_some_iff.mp here
    obtain ⟨name, task, interval⟩ := fields i step
    dsimp only
    rw [name, task, interval]
    exact all step (List.mem_of_getElem? inside)

private theorem createPipeline_of_passes {r : CreatePipeline} {runAt : Option Instant}
    (open_ : e.store.isClosed = false)
    (asked : firstRunAt r.runNow r.runAt e.now = .ok runAt)
    (same : p = pipelineOfRequest e.issued r runAt e.now)
    (validJobs : ∀ j ∈ p.jobs, j.validate e.registry.names = .ok ()) (valid : p.validate = .ok ())
    (room : r.runNow = true → e.queue.HasRoom) : (e.createPipeline r).2 = .ok p := by
  have stored := Store.createPipeline_of_open (p := p) open_
  have all := validateJobs_ok_iff.mpr validJobs
  unfold createPipeline
  subst same
  simp only [asked, all, valid, stored, Except.mapError, bind, Except.bind]
  split
  next now _ =>
    split
    next => rfl
    next refused =>
      cases (congrArg Prod.snd refused).symm.trans (enqueueNew_ok_iff.mpr (room now))
  next => rfl

theorem createPipeline_accepts_iff {r : CreatePipeline} (open_ : e.store.isClosed = false) :
    (∃ p, (e.createPipeline r).2 = .ok p) ↔ r.Valid e := by
  constructor
  · rintro ⟨p, answer⟩
    obtain ⟨runAt, asked, rfl, validJobs, valid, room⟩ := passes_createPipeline answer
    obtain ⟨named, several, _, recurs⟩ := Pipeline.validate_ok_iff.mp valid
    rw [length_pipelineOfRequest] at several
    refine ⟨firstRunAt_ok_iff.mp ⟨runAt, asked⟩, named, several, ?_, recurs, room⟩
    exact admissible_pipelineOfRequest.mp fun j member =>
      Job.admissible_names_iff.mp (Job.validate_ok_iff.mp (validJobs j member))
  · rintro ⟨runTime, named, several, steps, recurs, room⟩
    obtain ⟨runAt, asked⟩ := firstRunAt_ok_iff.mpr runTime
    have isNew := isNew_pipelineOfRequest e.issued r runAt e.now several
    have linked := Pipeline.brokenLink?_eq_none 0 fun i j here => (isNew.placed i j here).2.2.2.2
    refine ⟨_, createPipeline_of_passes open_ asked rfl (fun j member => ?_) ?_ room⟩
    · exact Job.validate_ok_iff.mpr (Job.admissible_names_iff.mpr
        (admissible_pipelineOfRequest.mpr steps j member))
    · exact Pipeline.validate_ok_iff.mpr ⟨named, isNew.several, linked, recurs⟩

end Engine

/-! ### What is stored -/

structure Store.HasIntervals (s : Store) : Prop where
  jobs : ∀ id j, s.jobs.get? id = some j → ∃ i, j.interval = .ok i
  pipelines : ∀ id row, s.pipelines.get? id = some row → ∃ i, row.record.interval = .ok i

namespace Store.HasIntervals

variable {s : Store} {j : Job} {p : Pipeline}

theorem withJob (has : s.HasIntervals) (own : ∃ i, j.interval = .ok i) :
    (s.withJob j).HasIntervals where
  jobs id k stored := by
    rcases Table.get?_put_cases stored with ⟨_, rfl⟩ | ⟨_, before⟩
    · exact own
    · exact has.jobs id k before
  pipelines := has.pipelines

theorem withPipeline (has : s.HasIntervals) (own : ∃ i, p.interval = .ok i)
    (jobs : ∀ j ∈ p.jobs, ∃ i, j.interval = .ok i) : (s.withPipeline p).HasIntervals where
  jobs id k stored := by
    rcases Store.putJobs_cases stored with ⟨member, _⟩ | ⟨before, _⟩
    · exact jobs k member
    · exact has.jobs id k before
  pipelines id row found := by
    rcases Table.get?_put_cases found with ⟨_, rfl⟩ | ⟨_, before⟩
    · exact own
    · exact has.pipelines id row before

end Store.HasIntervals

namespace Engine

variable {e : Engine} {j : Job} {p : Pipeline}

/-- The engine has accepted the request and keeps this job for it. -/
structure KeepsJob (e : Engine) (r : CreateJob) (j : Job) : Prop where
  runAt : j.runAt = none ↔ r.runNow = true
  stored : e.store.jobs.get? j.id = some j
  intervals : e.store.HasIntervals

structure KeepsPipeline (e : Engine) (r : CreatePipeline) (p : Pipeline) : Prop where
  head : ∃ j, p.jobs.head? = some j ∧ (j.runAt = none ↔ r.runNow = true)
  followers : ∀ j ∈ p.jobs.tail, j.runAt = none
  stored : e.store.pipelines.get? p.id = some ⟨{ p with jobs := [] }, p.jobs.map (·.id)⟩
  storedJobs : Id.Distinct e.issued → ∀ j ∈ p.jobs, e.store.jobs.get? j.id = some j
  intervals : e.store.HasIntervals

private theorem keepsJob {r : CreateJob} (has : e.store.HasIntervals)
    (answer : (e.createJob r).2 = .ok j) : (e.createJob r).1.KeepsJob r j := by
  obtain ⟨runAt, asked, same, valid, _⟩ := passes_createJob answer
  obtain ⟨_, _, _, _, after⟩ := createJob_ok answer
  rw [after]
  refine ⟨?_, Table.get?_put_self _ _ _, has.withJob (Job.interval_of_validate valid)⟩
  rw [same]
  exact firstRunAt_eq_none_iff asked

private theorem keepsPipeline {r : CreatePipeline} (has : e.store.HasIntervals)
    (answer : (e.createPipeline r).2 = .ok p) : (e.createPipeline r).1.KeepsPipeline r p := by
  obtain ⟨runAt, asked, same, validJobs, valid, _⟩ := passes_createPipeline answer
  obtain ⟨_, _, _, isNew, length, _, after⟩ := createPipeline_ok answer
  have place (i : Nat) := getElem?_pipelineOfRequest e.issued r runAt e.now i
  rw [← same] at place
  rw [after]
  refine ⟨?_, fun j member => ?_, Table.get?_put_self _ _ _, fun distinct j member => ?_,
    has.withPipeline (Pipeline.interval_of_validate valid) fun j member =>
      Job.interval_of_validate (validJobs j member)⟩
  · have some_ : 0 < r.jobs.length := by
      have several := isNew.several
      omega
    have first := place 0
    rw [List.getElem?_eq_getElem some_, Option.map_some] at first
    exact ⟨_, List.head?_eq_getElem?.trans first, firstRunAt_eq_none_iff asked⟩
  · obtain ⟨i, here⟩ := List.mem_iff_getElem?.mp member
    rw [List.getElem?_tail, place] at here
    obtain ⟨step, _, rfl⟩ := Option.map_eq_some_iff.mp here
    simp
  · obtain ⟨i, here⟩ := List.mem_iff_getElem?.mp member
    exact Store.get?_putJobs_isNew isNew (length ▸ distinct) _ here

end Engine

namespace System

def hasIntervals : Rule :=
  ⟨fun _ d => ∃ i, Interval.parseOptional d.options.runOnInterval = .ok i,
    fun _ d => ∃ i, Interval.parseOptional d.options.runOnInterval = .ok i⟩

variable {s : System} {registry : Registry} {queueCapacity : Nat} {unit : TimeUnit}
  {workers poolCapacity : Nat} {actions : List Action} {e : Engine}

private theorem hasIntervals_run {now : Instant}
    (made : new? now registry queueCapacity unit workers poolCapacity = some s)
    (short : ∀ a ∈ actions, a.IsShort) (distinct : Id.Distinct (s.run actions).engine.issued) :
    (s.run actions).engine.store.HasIntervals := by
  have obeys : (s.run actions).Obeys hasIntervals :=
    obeys_of_validate made (fun _ _ _ => Job.interval_of_validate)
      (fun _ _ => Pipeline.interval_of_validate) short distinct
  exact ⟨obeys.jobs, obeys.pipelines⟩

/-- In every state with an open store that a run can reach, and at any time, exactly the valid
requests are accepted. What is to run at once has no run time, the first job of any other request has
one, and the intervals of all that is stored can be read. -/
theorem admission_exact {began : Instant}
    (made : new? began registry queueCapacity unit workers poolCapacity = some s)
    (short : ∀ a ∈ actions, a.IsShort) (distinct : Id.Distinct (s.run actions).engine.issued)
    (open_ : (s.run actions).engine.store.isClosed = false) (now : Instant) (tasks : Registry)
    (reached : { (s.run actions).engine with now := now, registry := tasks } = e) :
    e.store.HasIntervals ∧
    (∀ r : CreateJob, (∃ j, (e.createJob r).2 = .ok j) ↔ r.Valid e) ∧
    (∀ r : CreatePipeline, (∃ p, (e.createPipeline r).2 = .ok p) ↔ r.Valid e) ∧
    (∀ r j, (e.createJob r).2 = .ok j → (e.createJob r).1.KeepsJob r j) ∧
    ∀ r p, (e.createPipeline r).2 = .ok p → (e.createPipeline r).1.KeepsPipeline r p := by
  have has := hasIntervals_run made short distinct
  subst reached
  exact ⟨has, fun r => Engine.createJob_accepts_iff open_,
    fun r => Engine.createPipeline_accepts_iff open_, fun r j => Engine.keepsJob has,
    fun r p => Engine.keepsPipeline has⟩

def fortnightly : CreatePipeline :=
  { exampleRequest with
    options := ⟨some "2 Weeks", 0, false⟩
    jobs := [exampleStep "collect" (some " 1 sec "), exampleStep "send" (some " ")] }

def nameless : CreatePipeline := { fortnightly with name := "\u3000" }

/-- The report is accepted in a new engine, and not without a name. Its second step gets the
interval of the pipeline and no run time. -/
theorem admission_exact_fortnightly :
    fortnightly.Valid start.engine ∧ ¬nameless.Valid start.engine ∧
    ∃ p, (start.engine.createPipeline fortnightly).2 = .ok p ∧
      p.jobs.map (·.options.runOnInterval) = [some " 1 sec ", some "2 Weeks"] ∧
      ∀ j ∈ p.jobs.tail, j.runAt = none := by
  have short : ∀ a ∈ ([] : List Action), a.IsShort := by simp
  obtain ⟨_, _, accepts, _, keeps⟩ := admission_exact (e := start.engine) new_start short
    (Id.distinct_of_le (by decide)) rfl .epoch [("noop", .noop)] rfl
  obtain ⟨p, answer, intervals⟩ := ok_of_toOption
    (show (start.engine.createPipeline fortnightly).2.toOption.map
      (fun p => p.jobs.map (·.options.runOnInterval)) = some [some " 1 sec ", some "2 Weeks"] by
        decide +kernel)
  refine ⟨(accepts fortnightly).mp ⟨p, answer⟩, fun valid => ?_, p, answer, intervals,
    (keeps fortnightly p answer).followers⟩
  obtain ⟨q, other⟩ := (accepts nameless).mpr valid
  have refused : (start.engine.createPipeline nameless).2.toOption.isNone = true := by
    decide +kernel
  rw [other] at refused
  cases refused

end System

end Rota
