import Rota.Proofs.Durations
import Rota.Proofs.Elapsed
import Rota.Proofs.Reserved
/-! Timestamps match statuses.
Each mark sets the timestamps that its status needs, and arming again wipes them out. A mark that is
taken back leaves none behind, because what a tick submits has not been started; for a job out of
the queue that is so because it was admitted pending and nobody has touched it since. A duration
stays as it was written for as long as its text is read as the same number. -/
namespace Rota

/-- Fewer than 2^52 microseconds, some 142 years, lie between the instants. -/
def Instant.IsNear (t u : Instant) : Prop :=
  ((Instant.nanosBetween t u).tdiv 1000).natAbs < 2 ^ 52

structure Job.IsUnstarted (j : Job) : Prop where
  startedAt : j.startedAt = none
  completedAt : j.completedAt = none
  duration : j.duration = none

/-- The job has the timestamps that its status needs. -/
structure Job.Stamped (j : Job) : Prop where
  pending : j.status = .pending → j.IsUnstarted
  scheduled : j.status = .scheduled → j.scheduledAt.isSome = true
  inProgress : j.status = .inProgress → j.startedAt.isSome = true ∧ j.failureReason = none
  ended : j.status.isTerminal = true → ∃ t u readings, j.startedAt = some t ∧
    j.completedAt = some u ∧ t ≤ u ∧
    j.duration = some (Binary64.reread^[readings] (millisBetween t u))
  failed : j.status = .failed → j.failureReason.isSome = true
  completed : j.status = .completed → j.failureReason = none

structure Pipeline.Stamped (p : Pipeline) : Prop where
  pending : p.status = .pending → p.startedAt = none ∧ p.completedAt = none ∧ p.duration = none
  ended : p.status.isTerminal = true → ∃ t u, p.startedAt = some t ∧ p.completedAt = some u ∧ t ≤ u

/-! ### What marks leave -/

namespace Job

variable {i j c : Job} {t : Instant}

private theorem IsBlank.stamped (blank : j.IsBlank) : j.Stamped where
  pending _ := ⟨blank.startedAt, blank.completedAt, blank.duration⟩
  scheduled status := by cases blank.status.symm.trans status
  inProgress status := by cases blank.status.symm.trans status
  ended status := by simp [blank.status, Status.isTerminal] at status
  failed status := by cases blank.status.symm.trans status
  completed status := by cases blank.status.symm.trans status

private theorem stamped_reset (j : Job) (runAt : Option Instant) : (j.reset runAt).Stamped where
  pending _ := ⟨rfl, rfl, rfl⟩
  scheduled := nofun
  inProgress := nofun
  ended := nofun
  failed := nofun
  completed := nofun

private theorem stamped_markScheduled (j : Job) (t : Instant) : (j.markScheduled t).Stamped where
  pending := nofun
  scheduled _ := rfl
  inProgress := nofun
  ended := nofun
  failed := nofun
  completed := nofun

private theorem IsUnstarted.stamped_markPending (unstarted : j.IsUnstarted) (t : Instant) :
    (j.markScheduled t).markPending.Stamped where
  pending _ := ⟨unstarted.startedAt, unstarted.completedAt, unstarted.duration⟩
  scheduled := nofun
  inProgress := nofun
  ended := nofun
  failed := nofun
  completed := nofun

private theorem stamped_markStarted (j : Job) (t : Instant) : (j.markStarted t).Stamped where
  pending := nofun
  scheduled := nofun
  inProgress _ := ⟨rfl, rfl⟩
  ended := nofun
  failed := nofun
  completed := nofun

/-- Of a finished job nothing else is asked. -/
theorem Stamped.of_terminal (terminal : j.status.isTerminal = true)
    (ended : ∃ t u readings, j.startedAt = some t ∧ j.completedAt = some u ∧ t ≤ u ∧
      j.duration = some (Binary64.reread^[readings] (millisBetween t u)))
    (failed : j.status = .failed → j.failureReason.isSome = true)
    (completed : j.status = .completed → j.failureReason = none) : j.Stamped where
  pending status := by simp [status, Status.isTerminal] at terminal
  scheduled status := by simp [status, Status.isTerminal] at terminal
  inProgress status := by simp [status, Status.isTerminal] at terminal
  ended _ := ended
  failed := failed
  completed := completed

private theorem stamped_markFinished {result : JobResult} {now : Instant}
    (started : j.startedAt = some t)
    (ordered : t ≤ now) (noReason : j.failureReason = none) :
    (Engine.markFinished j result now).Stamped := by
  unfold Engine.markFinished
  split
  next =>
    refine .of_terminal rfl ⟨t, now, 0, started, rfl, ordered, ?_⟩ (fun failed => ?_)
      fun _ => noReason
    · rw [Function.iterate_zero_apply]
      simp [markCompleted, setDuration, durationOf, Status.isTerminal, started]
    · cases failed
  next reason _ =>
    refine .of_terminal rfl ⟨t, now, 0, started, rfl, ordered, ?_⟩ (fun _ => rfl)
      fun completed => ?_
    · rw [Function.iterate_zero_apply]
      simp [markFailed, setDuration, durationOf, Status.isTerminal, started]
    · cases completed

/-- What is read of a job is stamped as its row: its duration has been read once more. -/
theorem Stamped.reread (stamped : i.Stamped) (read : i.reread = .ok c) : c.Stamped := by
  rw [reread_ok read]
  refine { stamped with pending := fun status => ?_, ended := fun status => ?_ }
  · obtain ⟨startedAt, completedAt, duration⟩ := stamped.pending status
    exact ⟨startedAt, completedAt, congrArg (Option.map Binary64.reread) duration⟩
  · obtain ⟨t, u, readings, started, completed, ordered, lasted⟩ := stamped.ended status
    refine ⟨t, u, readings + 1, started, completed, ordered, ?_⟩
    rw [Function.iterate_succ_apply']
    exact congrArg (Option.map Binary64.reread) lasted

/-- A duration that is no longer than it can say is always read as it was written. -/
theorem Stamped.exact {u : Instant} (stamped : j.Stamped) (terminal : j.status.isTerminal = true)
    (started : j.startedAt = some t) (completed : j.completedAt = some u) (near : t.IsNear u) :
    j.duration = some (millisBetween t u) := by
  obtain ⟨t', u', readings, started', completed', _, lasted⟩ := stamped.ended terminal
  cases started.symm.trans started'
  cases completed.symm.trans completed'
  have fixed : (millisBetween t u).reread = millisBetween t u := Binary64.reread_millisOfNanos near
  rw [lasted, Function.iterate_fixed fixed]

theorem Stamped.applyTo (stamped : c.Stamped) (r : UpdateJob) : (r.applyTo c).Stamped :=
  { stamped with pending := fun status => { stamped.pending status with } }

end Job

namespace Pipeline

variable {p q : Pipeline} {t : Instant}

private theorem IsBlank.stamped (blank : p.IsBlank) : p.Stamped where
  pending _ := ⟨blank.startedAt, blank.completedAt, blank.duration⟩
  ended status := by simp [blank.status, Status.isTerminal] at status

private theorem stamped_markStarted (p : Pipeline) (t : Instant) : (p.markStarted t).Stamped where
  pending := nofun
  ended := nofun

private theorem stamped_after {result : JobResult} {isLast : Bool} {now : Instant}
    (started : p.startedAt = some t) (ordered : t ≤ now)
    (terminal : (Engine.pipelineAfter p result isLast now).status.isTerminal = true)
    (inProgress : p.status = .inProgress) : (Engine.pipelineAfter p result isLast now).Stamped := by
  unfold Engine.pipelineAfter at terminal ⊢
  split
  next => exact ⟨nofun, fun _ => ⟨t, now, started, rfl, ordered⟩⟩
  next succeeded =>
    rw [if_neg succeeded] at terminal
    split
    next => exact ⟨nofun, fun _ => ⟨t, now, started, rfl, ordered⟩⟩
    next goes => simp [goes, inProgress, Status.isTerminal] at terminal

/-- What is read of a pipeline is stamped as its record. -/
theorem Stamped.loaded {s : Store} {row : PipelineRow} (stamped : row.record.Stamped)
    (loads : s.loadPipeline row = .ok q) : q.Stamped := by
  obtain ⟨jobs, _, rfl⟩ := Store.loadPipeline_ok loads
  refine { stamped with pending := fun status => ?_ }
  obtain ⟨started, completed, duration⟩ := stamped.pending status
  exact ⟨started, completed, congrArg (Option.map Binary64.reread) duration⟩

end Pipeline

namespace System

def Dates (s : System) (p : Pipeline) : Prop :=
  p.status = .inProgress ∧ ∃ t, p.startedAt = some t ∧ t ≤ s.engine.now

/-- The running job says when it was started, and the wall clock has gone no further since than the
count of milliseconds. -/
structure Runs (s : System) (x : Execution) : Prop where
  started : ∃ t, x.current.startedAt = some t ∧ t ≤ s.engine.now ∧
    s.engine.now.nanos - t.nanos ≤ (s.engine.time - x.startedAt : Int) * 1000000
  noReason : x.current.failureReason = none
  record : ∀ p, x.pipeline = some p → s.Dates p

structure Stamps (s : System) : Prop where
  jobs : ∀ id j, s.engine.store.jobs.get? id = some j → j.Stamped
  records : ∀ id row, s.engine.store.pipelines.get? id = some row → row.record.Stamped
  due : ∀ c ∈ s.due, c.IsUnstarted
  runs : ∀ x ∈ s.engine.pool.executing, s.Runs x
  held : ∀ h ∈ s.held, ∀ p, h.flight.record = some p → s.Dates p

variable {s : System} {a : Action} {x : Execution} {p : Pipeline} {id : Id} {j : Job}
  {row : PipelineRow}

theorem Dates.perform (dates : s.Dates p) (a : Action) : (s.perform a).Dates p := by
  obtain ⟨inProgress, t, started, ordered⟩ := dates
  exact ⟨inProgress, t, started, Instant.le_trans ordered (now_le_perform s a)⟩

theorem Runs.perform (runs : s.Runs x) (a : Action) : (s.perform a).Runs x where
  started := by
    obtain ⟨t, started, ordered, passed⟩ := runs.started
    refine ⟨t, started, Instant.le_trans ordered (now_le_perform s a), ?_⟩
    have further := nanos_perform s a
    omega
  noReason := runs.noReason
  record p whole := (runs.record p whole).perform a

/-- A job that ends promptly has not run for longer than a duration can say: its timer has waited
thirty years at most. -/
theorem Runs.isNear (runs : s.Runs x) (asked : s.ending? a = some x) (prompt : s.Prompt a)
    {t : Instant} (started : x.current.startedAt = some t) : t.IsNear s.engine.now := by
  obtain ⟨t', started', ordered, passed⟩ := runs.started
  cases started.symm.trans started'
  have bounds := Instant.nanosBetween_bounds ordered
  have most := prompt x asked
  have due := x.dueAt_le
  have years : Timer.longest = 946080000000 := rfl
  rw [Instant.IsNear, Int.natAbs_tdiv]
  change (Instant.nanosBetween t s.engine.now).natAbs / 1000 < 2 ^ 52
  omega

namespace Stamps

theorem job (stamps : s.Stamps) (source : s.JobSource a id j) : j.Stamped := by
  cases source with
  | kept stored => exact stamps.jobs id j stored
  | admitted _ blank => exact blank.stamped
  | updated r i c _ stored read same =>
    exact same ▸ ((stamps.jobs id i stored).reread read).applyTo r
  | submitted place c _ next row =>
    cases row with
    | kept stored => exact stamps.jobs id j stored
    | rearmed _ _ d t _ _ _ _ _ same => exact same ▸ Job.stamped_reset d _
    | scheduled _ same => exact same ▸ Job.stamped_markScheduled c _
    | returned _ _ same => exact same ▸ (stamps.due c (mem_due_of_next next)).stamped_markPending _
  | started _ _ c _ _ _ _ _ same => exact same ▸ Job.stamped_markStarted c _
  | settled place result x _ here _ _ settles =>
    have runs := stamps.runs x (List.mem_of_getElem? here)
    obtain ⟨t, started, ordered, _⟩ := runs.started
    cases settles with
    | once => exact Job.stamped_markFinished started ordered runs.noReason
    | armed => exact Job.stamped_reset _ _
    | parked => exact Job.stamped_reset _ _

theorem record (stamps : s.Stamps) (source : s.RecordSource a id row) : row.record.Stamped := by
  have loaded {pipelineId : Id} {q : Pipeline} (read : s.engine.store.getPipeline pipelineId = .ok q) :
      q.Stamped := by
    obtain ⟨r, found, loads⟩ := Store.getPipeline_ok read
    exact (stamps.records pipelineId r found).loaded loads
  cases source with
  | kept found => exact stamps.records id row found
  | admitted p _ blank _ same =>
    rw [same]
    exact { blank.stamped with }
  | updated r q _ read same =>
    rw [same]
    exact { loaded read with }
  | rearmed _ _ _ _ _ _ _ _ _ _ blank => exact blank.stamped
  | started _ _ q _ _ _ same =>
    rw [same]
    exact { q.stamped_markStarted s.engine.now with }
  | ended place result x p q _ here whole _ after terminal same =>
    obtain ⟨inProgress, t, started, ordered⟩ :=
      (stamps.runs x (List.mem_of_getElem? here)).record p whole
    subst after
    rw [same]
    exact { Pipeline.stamped_after started ordered terminal inProgress with }

/-- What is read to be submitted is pending. -/
theorem unstarted (stamps : s.Stamps) (sound : s.Sound) (reserved : s.Reserved) {c : Job}
    (source : s.DueSource a c) : c.IsUnstarted := by
  cases source with
  | kept inside => exact stamps.due c inside
  | scanned i _ inside read isDue =>
    obtain ⟨id, stored⟩ := sound.consistent.keyed.get?_of_mem_values inside
    exact ((stamps.jobs id i stored).reread read).pending (Job.pending_of_isDue isDue)
  | looked queued i rest _ first stored read =>
    have called : queued ∈ s.called := List.mem_append_left _ (first ▸ List.mem_cons_self)
    have pending := reserved.pending_of_called sound called stored
    exact ((stamps.jobs queued.id i stored).reread read).pending
      ((Job.status_reread read).trans pending)

theorem running (stamps : s.Stamps) (source : s.RunSource a x) : (s.perform a).Runs x := by
  cases source with
  | kept runs => exact (stamps.runs x runs).perform a
  | begun place h c _ here _ current timed record =>
    refine Runs.perform ⟨?_, ?_, fun p whole => ?_⟩ a
    · refine ⟨s.engine.now, by rw [current]; rfl, Instant.le_refl _, ?_⟩
      rw [timed]
      omega
    · rw [current]
      rfl
    · rcases record with same | ⟨_, q, _, same⟩
      · exact stamps.held h (List.mem_of_getElem? here) p (same.symm.trans whole)
      · cases same.symm.trans whole
        exact ⟨rfl, s.engine.now, rfl, Instant.le_refl _⟩

theorem holding (stamps : s.Stamps) {h : Held} (source : s.HeldSource a h) :
    ∀ p, h.flight.record = some p → (s.perform a).Dates p := by
  intro p known
  cases source with
  | kept holds => exact (stamps.held h holds p known).perform a
  | taken w same =>
    subst same
    cases known
  | paused place result x i _ here same record =>
    subst same
    exact ((stamps.runs x (List.mem_of_getElem? here)).record p (record.symm.trans known)).perform a

theorem perform {A : List Origin} (stamps : s.Stamps) (sound : s.Sound) (reserved : s.Reserved)
    (accounted : s.Accounted A) : (s.perform a).Stamps where
  jobs id j stored := stamps.job ((rows_perform accounted a).1 id j stored)
  records id row found := stamps.record ((rows_perform accounted a).2 id row found)
  due _ member := stamps.unstarted sound reserved (due_source member)
  runs _ member := stamps.running (run_source member)
  held _ member := stamps.holding (held_source member)

end Stamps

/-- No finished job has run for longer than a duration can say. -/
def IsBrief (s : System) : Prop :=
  ∀ id j t u, s.engine.store.jobs.get? id = some j → j.status.isTerminal = true →
    j.startedAt = some t → j.completedAt = some u → t.IsNear u

theorem IsBrief.perform {A : List Origin} (brief : s.IsBrief) (stamps : s.Stamps)
    (accounted : s.Accounted A) (prompt : s.Prompt a) : (s.perform a).IsBrief := by
  intro id j t u stored terminal started completed
  cases (rows_perform accounted a).1 id j stored with
  | kept before => exact brief id j t u before terminal started completed
  | admitted _ blank => cases blank.startedAt.symm.trans started
  | updated r i c _ before read same =>
    rw [same, Job.reread_ok read] at terminal started completed
    exact brief id i t u before terminal started completed
  | submitted place c _ _ row =>
    cases row with
    | kept before => exact brief id j t u before terminal started completed
    | rearmed _ _ _ _ _ _ _ _ _ same => subst same; cases terminal
    | scheduled _ same => subst same; cases terminal
    | returned _ _ same => subst same; cases terminal
  | started _ _ _ _ _ _ _ _ same => subst same; cases terminal
  | settled place result x asked here _ _ settles =>
    subst asked
    cases settles with
    | once =>
      rw [Engine.startedAt_markFinished] at started
      rw [Engine.completedAt_markFinished] at completed
      cases completed
      have asked : s.ending? (.finish place result) = some x := here
      exact (stamps.runs x (List.mem_of_getElem? here)).isNear asked prompt started
    | armed => cases terminal
    | parked => cases terminal

/-! ### Runs -/

variable {now : Instant} {registry : Registry} {queueCapacity : Nat} {unit : TimeUnit}
  {workers poolCapacity : Nat} {actions : List Action}

private theorem stamps_new
    (made : new? now registry queueCapacity unit workers poolCapacity = some s) :
    s.Stamps := by
  obtain ⟨store, _, _, _, flights⟩ := new_eq made
  obtain ⟨ticks, executing, _⟩ := new_pool made
  have held : s.held = [] := by
    unfold System.flights at flights
    exact List.map_eq_nil_iff.mp (List.append_eq_nil_iff.mp flights).2
  constructor <;> simp [store, Store.empty, due, ticks, executing, held]

/-- Rows are stamped along a run, and what is allowed along it may tell more of them. -/
theorem stamps_run {allowed : System → Action → Prop} {P : System → Prop}
    (kept : ∀ t a, t.Stamps → t.Sound → (∃ A, t.Accounted A) → P t → allowed t a → P (t.perform a))
    (made : new? now registry queueCapacity unit workers poolCapacity = some s) (holds : P s)
    (along : Along allowed s actions) (short : ∀ a ∈ actions, a.IsShort)
    (distinct : Id.Distinct (s.run actions).engine.issued) :
    (s.run actions).Stamps ∧ P (s.run actions) := by
  have all := run_keeps
    (P := fun t => t.Reserved ∧ (∃ A, t.Accounted A) ∧ t.Stamps ∧ P t)
    (fun t a sound ⟨reserved, ⟨A, accounted⟩, stamps, holds⟩ may distinct step =>
      ⟨step.reserved sound reserved distinct, ⟨_, accounted.perform distinct⟩,
        stamps.perform sound reserved accounted, kept t a stamps sound ⟨A, accounted⟩ holds may⟩)
    (sound_new made) ⟨reserved_new made, ⟨[], accounted_new made⟩, stamps_new made, holds⟩ along
    short distinct
  exact all.2.2.2

/-- In every run from an empty store the timestamps of every job and every pipeline are those that
its status needs. The duration of a finished job is the time from its start to its completion, read
from its text as often as the row has been rewritten. That changes nothing if less than 142 years lie
between, as they do in every run in which no job ends more than a century after it was due. -/
theorem stamped_run (made : new? now registry queueCapacity unit workers poolCapacity = some s)
    (short : ∀ a ∈ actions, a.IsShort) (distinct : Id.Distinct (s.run actions).engine.issued) :
    (∀ id j, (s.run actions).engine.store.jobs.get? id = some j → j.Stamped) ∧
    (∀ id row, (s.run actions).engine.store.pipelines.get? id = some row → row.record.Stamped) ∧
    ∀ id j t u, (s.run actions).engine.store.jobs.get? id = some j →
      j.status.isTerminal = true → j.startedAt = some t → j.completedAt = some u →
      t.IsNear u ∨ Along Prompt s actions → j.duration = some (millisBetween t u) := by
  have any : Along (fun _ _ => True) s actions := along_of_forall (fun _ _ _ => trivial) s
  have stamps := (stamps_run (P := fun _ => True) (fun _ _ _ _ _ _ _ => trivial) made trivial any
    short distinct).1
  refine ⟨stamps.jobs, stamps.records, fun id j t u stored terminal started completed brief => ?_⟩
  refine (stamps.jobs id j stored).exact terminal started completed ?_
  rcases brief with near | prompt
  · exact near
  have new : s.IsBrief := by
    intro id j t u stored
    rw [(new_eq made).1] at stored
    simp [Store.empty] at stored
  have kept : ∀ t a, t.Stamps → t.Sound → (∃ A, t.Accounted A) → t.IsBrief → Prompt t a →
      (t.perform a).IsBrief := by
    intro t a stamps _ accounted brief prompt
    obtain ⟨A, accounted⟩ := accounted
    exact brief.perform stamps accounted prompt
  exact (stamps_run kept made new prompt short distinct).2 id j t u stored terminal started completed

def failedReport : List Action :=
  [.createJob ⟨"report", none, "noop", [], 0, none, true, false, .default⟩, .start, .look, .submit 0,
    .take, .proceed 0, .advance 1500, .finish 0 (.failure (.issued 0) "no data"),
    .updateJob (.issued 0) ⟨some "daily report", none, none, none⟩]

theorem stamped_failedReport : (∀ a ∈ failedReport, a.IsShort) ∧
    Id.Distinct (start.run failedReport).engine.issued ∧ Along Prompt start failedReport ∧
    ∃ j t, (start.run failedReport).engine.store.jobs.get? (.issued 0) = some j ∧
      j.status = .failed ∧ j.startedAt = some .epoch ∧ j.completedAt = some t ∧
      t.nanos = 1500000000 ∧ j.failureReason = some "no data" ∧
      j.duration = some (millisBetween .epoch t) := by
  have short : ∀ a ∈ failedReport, a.IsShort := by simp [failedReport, Action.IsShort]
  have distinct : Id.Distinct (start.run failedReport).engine.issued :=
    Id.distinct_of_le (by decide +kernel)
  have prompt : Along Prompt start failedReport := by decide +kernel
  obtain ⟨_, _, lasted⟩ := stamped_run new_start short distinct
  have found : ((start.run failedReport).engine.store.jobs.get? (.issued 0)).map (fun j =>
      (j.status, j.startedAt, j.completedAt.map Instant.nanos, j.failureReason)) =
        some (.failed, some .epoch, some 1500000000, some "no data") := by decide +kernel
  obtain ⟨j, stored, same⟩ := Option.map_eq_some_iff.mp found
  simp only [Prod.mk.injEq] at same
  obtain ⟨status, started, completed, reason⟩ := same
  obtain ⟨t, completed, nanos⟩ := Option.map_eq_some_iff.mp completed
  exact ⟨short, distinct, prompt, j, t, stored, status, started, completed, nanos, reason,
    lasted _ j _ t stored (by rw [status]; rfl) started completed (.inr prompt)⟩

/-- A job ends sixty thousand years after it was started, and is renamed. -/
def longReport : List Action :=
  [.createJob ⟨"report", none, "noop", [], 0, none, true, false, .default⟩, .start, .look, .submit 0,
    .take, .proceed 0, .advance 1900000000000001, .finish 0 (.success (.issued 0) none),
    .updateJob (.issued 0) ⟨some "daily report", none, none, none⟩]

/-- Its duration is stored as a quarter of a millisecond less. -/
theorem drifted_longReport : ¬ ∀ actions : List Action, (∀ a ∈ actions, a.IsShort) →
    Id.Distinct (start.run actions).engine.issued →
    ∀ id j t u, (start.run actions).engine.store.jobs.get? id = some j →
      j.status.isTerminal = true → j.startedAt = some t → j.completedAt = some u →
      j.duration = some (millisBetween t u) := by
  intro all
  have short : ∀ a ∈ longReport, a.IsShort := by simp [longReport, Action.IsShort]
  have distinct : Id.Distinct (start.run longReport).engine.issued :=
    Id.distinct_of_le (by decide +kernel)
  -- Whole milliseconds are enough to tell the two numbers apart.
  have found : ((start.run longReport).engine.store.jobs.get? (.issued 0)).map (fun j =>
      (j.status, j.startedAt,
        j.completedAt.map fun u => (millisBetween .epoch u).units / Binary64.one,
        j.duration.map (·.units / Binary64.one))) =
        some (.completed, some .epoch, some 1900000000000001, some 1900000000000000) := by
    decide +kernel
  obtain ⟨j, stored, same⟩ := Option.map_eq_some_iff.mp found
  simp only [Prod.mk.injEq] at same
  obtain ⟨status, started, completed, stays⟩ := same
  obtain ⟨u, completed, lasted⟩ := Option.map_eq_some_iff.mp completed
  have lasts := all longReport short distinct _ j _ u stored (by rw [status]; rfl) started completed
  rw [lasts, Option.map_some, lasted] at stays
  exact absurd (Option.some.inj stays) (by decide)

end System

end Rota
