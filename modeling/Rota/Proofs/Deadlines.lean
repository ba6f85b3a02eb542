import Rota.Proofs.Accord
import Rota.Proofs.Backlog
import Rota.Proofs.Staggered
/-! Jobs get the time they were given.
No time passes beyond the moment at which a running job has a result. So a job ends when its task
answers, or when its time is up if that is earlier, and not before or after; nothing that happens
meanwhile matters, as long as the job is not cancelled. Only timeouts of more than 2^32 - 1 units of
time are cut, and those that are longer than a timer waits. -/
namespace Rota

namespace Instant

variable {t u v : Instant}

/-! ### The wall clock -/

/-- Moving forwards twice is moving once. -/
theorem addNanos?_add {n m : Int} (first : 0 ≤ n) (second : 0 ≤ m)
    (moved : t.addNanos? (n + m) = some v) :
    ∃ u, t.addNanos? n = some u ∧ u.addNanos? m = some v := by
  have small := t.nano_lt
  have inRange := t.inRange
  have isEnd := t.leap_end
  have last := v.inRange
  rw [addNanos?_forwards (Int.add_nonneg first second)] at moved
  by_cases stays : 1000000000 ≤ t.nano ∧ t.nano + n < 2000000000
  · obtain ⟨u, made⟩ : ∃ u, of? t.second (t.nano + n).toNat = some u :=
      Option.isSome_iff_exists.mp (isSome_of?_iff.mpr ⟨inRange, by omega, by omega⟩)
    obtain ⟨second_, nano⟩ := of?_eq_some made
    refine ⟨u, by rw [addNanos?_forwards first, if_pos stays, made], ?_⟩
    have there : (u.nano : Int) = t.nano + n := by omega
    have leap : 1000000000 ≤ u.nano := by omega
    rw [addNanos?_forwards second, ← moved, second_]
    simp only [leap, stays.1, true_and, if_true, there, Int.add_assoc]
    rw [show (t.nano : Int) + n - 1000000000 + m = t.nano - 1000000000 + (n + m) by omega]
  · rw [if_neg (by omega)] at moved
    have start := addNanos?_forwards (t := t) first
    rw [if_neg stays] at start
    dsimp only at moved start
    obtain ⟨base, positive, same⟩ : ∃ base : Int, 0 ≤ base ∧
        (if 1000000000 ≤ t.nano then (t.nano : Int) - 1000000000 else t.nano) = base :=
      ⟨_, by split <;> omega, rfl⟩
    rw [same] at moved start
    obtain ⟨end_, _⟩ := of?_eq_some moved
    obtain ⟨u, made⟩ : ∃ u, of? (t.second + (base + n) / 1000000000)
        ((base + n) % 1000000000).toNat = some u :=
      Option.isSome_iff_exists.mp (isSome_of?_iff.mpr ⟨by omega, by omega, by omega⟩)
    obtain ⟨second_, nano⟩ := of?_eq_some made
    refine ⟨u, start.trans made, ?_⟩
    rw [addNanos?_forwards second, if_neg (by omega), if_neg (by omega), ← moved]
    dsimp only
    congr 1
    · omega
    · congr 1
      omega

private theorem addMillis?_add {n m : Nat} (moved : t.addMillis? (n + m : Nat) = some v) :
    ∃ u, t.addMillis? n = some u ∧ u.addMillis? m = some v := by
  unfold addMillis? at *
  refine addNanos?_add (by omega) (by omega) ?_
  rwa [← Int.add_mul, ← Int.natCast_add]

end Instant

/-! ### What goes on -/

structure Ending where
  /-- The state in which it ends, without its execution. -/
  engine : Engine
  execution : Execution
  result : JobResult

namespace Engine

variable {e₀ e e' : Engine} {x : Execution} {history endings : List Ending}

/-- One step of what goes on, and the jobs that end in it. -/
inductive Goes (e : Engine) : List Ending → Engine → Prop
  /-- Something happens that neither ends a job nor takes time. -/
  | aside (started : List Execution) (e' : Engine)
      (leads : e.Leads e.pool.executing started e') : Goes e [] e'
  | finish (place : Nat) (x : Execution) (result : JobResult)
      (here : e.pool.executing[place]? = some x)
      (verdict : x.verdict? (e.pool.isCancelledFor x) e.time = some result) :
      Goes e [⟨e.without place, x, result⟩] (e.finishAt place x result)
  /-- Time passes, up to the moment at which a running job has a result at most. -/
  | pass (time : Nat) (early : ∀ y ∈ e.pool.executing, time ≤ y.dueAt) :
      Goes e [] (e.advanceTo time)

inductive Passes (e : Engine) : List Ending → Engine → Prop
  | refl : Passes e [] e
  | step (history endings : List Ending) (e₁ e₂ : Engine) (passes : Passes e history e₁)
      (goes : Goes e₁ endings e₂) : Passes e (history ++ endings) e₂

private theorem Passes.of_goes (goes : e.Goes endings e') : e.Passes endings e' :=
  .step [] endings e e' .refl goes

theorem Passes.trans {e₁ : Engine} (first : e.Passes history e₁) (then_ : e₁.Passes endings e') :
    e.Passes (history ++ endings) e' := by
  induction then_ with
  | refl => rwa [List.append_nil]
  | step later endings e₂ e₃ _ goes ih =>
    rw [← List.append_assoc]
    exact .step _ _ e₂ e₃ ih goes

private theorem goes_works (works : e.Works e') : ∃ endings, e.Goes endings e' := by
  cases works with
  | save _ _ _ leads => exact ⟨[], .aside [] e' leads⟩
  | take _ started _ _ leads _ => exact ⟨[], .aside started.toList e' leads⟩
  | finish place x result here verdict same =>
    subst same
    exact ⟨_, .finish place x result here verdict⟩

/-- So goes whatever the engine waits for. -/
theorem passes_passUntil (done : Engine → Bool) (limit fuel : Nat) (e : Engine) :
    ∃ history, e.Passes history (e.passUntil done limit fuel) := by
  induction fuel generalizing e with
  | zero => exact ⟨[], .refl⟩
  | succ fuel ih =>
    unfold passUntil
    split
    next => exact ⟨[], .refl⟩
    next =>
      split
      next e₁ worked =>
        obtain ⟨endings, goes⟩ := goes_works (works_work worked)
        obtain ⟨history, passes⟩ := ih e₁
        exact ⟨_, (Passes.of_goes goes).trans passes⟩
      next =>
        split
        next => exact ⟨[], .refl⟩
        next =>
          obtain ⟨history, passes⟩ := ih (e.advanceTo (e.nextStop limit))
          exact ⟨_, (Passes.of_goes (.pass _ fun y runs => nextStop_early runs)).trans passes⟩

/-! ### The clock -/

/-- The clock of `e` shows what it does so many milliseconds after `e₀`, while that can be shown. -/
structure Clocked (e₀ e : Engine) : Prop where
  le : e₀.time ≤ e.time
  now : ∀ t, e₀.now.addMillis? (e.time - e₀.time : Nat) = some t → e.now = t

theorem Clocked.refl (e : Engine) : e.Clocked e := by
  refine ⟨Nat.le_refl _, fun t passed => ?_⟩
  rw [Nat.sub_self] at passed
  exact Option.some.inj ((Instant.addSeconds?_zero e.now).symm.trans passed)

theorem Clocked.of_same (clocked : e₀.Clocked e) (time : e'.time = e.time) (now : e'.now = e.now) :
    e₀.Clocked e' := by
  refine ⟨time ▸ clocked.le, fun t passed => ?_⟩
  rw [time] at passed
  exact now.trans (clocked.now t passed)

theorem Clocked.advance (clocked : e₀.Clocked e) (millis : Nat) :
    e₀.Clocked (e.advance millis) := by
  obtain ⟨le, now⟩ := clocked
  refine ⟨Nat.le_trans le (Nat.le_add_right _ _), fun t passed => ?_⟩
  have split : (e.advance millis).time - e₀.time = (e.time - e₀.time) + millis :=
    Nat.sub_add_comm le
  rw [split] at passed
  obtain ⟨u, before, after⟩ := Instant.addMillis?_add passed
  rw [Engine.advance, now u before, after]
  rfl

/-! ### What one step keeps -/

/-- The job of `x` runs or has ended, and no time is lost with it. -/
structure OnTime (e₀ : Engine) (x : Execution) (history : List Ending) (e : Engine) : Prop where
  clocked : e₀.Clocked e
  isCancelled : e.pool.isCancelled = e₀.pool.isCancelled
  early : x ∈ e.pool.executing → e.time ≤ x.dueAt
  known : x ∈ e.pool.executing ∨ ∃ ending ∈ history, ending.execution = x
  ended : ∀ ending ∈ history, ending.execution = x → ending.result = x.fate.result x ∧
    ending.engine.time = x.dueAt ∧ e₀.Clocked ending.engine

private theorem startedAt_le_dueAt (x : Execution) : x.startedAt ≤ x.dueAt := Nat.le_add_right _ _

private theorem isCancelledFor_congr (same : e.pool.isCancelled = e₀.pool.isCancelled)
    (x : Execution) :
    e.pool.isCancelledFor x = e₀.pool.isCancelledFor x := by
  unfold Pool.isCancelledFor
  rw [same]

theorem Leads.early {running started : List Execution} (leads : e.Leads running started e')
    (within : running ⊆ e.pool.executing) (early : x ∈ e.pool.executing → e.time ≤ x.dueAt) :
    x ∈ e'.pool.executing → e'.time ≤ x.dueAt := by
  rw [leads.executing, leads.time]
  intro runs
  rcases List.mem_append.mp runs with before | new
  · exact early (within before)
  · exact leads.startedAt x new ▸ startedAt_le_dueAt x

theorem OnTime.goes (calm : e₀.pool.isCancelledFor x = false) (onTime : OnTime e₀ x history e)
    (goes : e.Goes endings e') : OnTime e₀ x (history ++ endings) e' := by
  obtain ⟨clocked, isCancelled, early, known, ended⟩ := onTime
  cases goes with
  | aside started _ leads =>
    rw [List.append_nil]
    refine ⟨clocked.of_same leads.time leads.now, leads.isCancelled.trans isCancelled,
      leads.early (fun y => id) early, known.imp_left fun runs => ?_, ended⟩
    rw [leads.executing]
    exact List.mem_append_left _ runs
  | finish place y result here verdict =>
    obtain ⟨started, finishes⟩ := finishes_finishAt e place y result
    have leads := finishes.toLeads
    refine ⟨clocked.of_same leads.time leads.now, leads.isCancelled.trans isCancelled,
      leads.early (List.eraseIdx_sublist _ _).subset early, ?_, ?_⟩
    · rw [leads.executing]
      rcases known with runs | ⟨ending, inside, same⟩
      · rcases List.mem_cons.mp ((perm_eraseIdx here).mem_iff.mp runs) with rfl | other
        · exact Or.inr ⟨_, List.mem_append_right _ (List.mem_singleton_self _), rfl⟩
        · exact Or.inl (List.mem_append_left _ other)
      · exact Or.inr ⟨ending, List.mem_append_left _ inside, same⟩
    · intro ending inside same
      rcases List.mem_append.mp inside with before | new
      · exact ended ending before same
      · cases List.mem_singleton.mp new
        obtain rfl : y = x := same
        rw [isCancelledFor_congr isCancelled, calm, Execution.verdict?_eq] at verdict
        split at verdict
        next due =>
          have early := early (List.mem_of_getElem? here)
          exact ⟨(Option.some.inj verdict).symm, Nat.le_antisymm early due,
            clocked.of_same rfl rfl⟩
        next => cases verdict
  | pass time before =>
    rw [List.append_nil]
    refine ⟨clocked.advance _, isCancelled, fun runs => ?_, known, ended⟩
    have := early runs
    have := before x runs
    show e.time + (time - e.time) ≤ x.dueAt
    omega

theorem OnTime.passes (calm : e₀.pool.isCancelledFor x = false) (onTime : OnTime e₀ x [] e)
    (passes : e.Passes history e') : OnTime e₀ x history e' := by
  induction passes with
  | refl => exact onTime
  | step history endings e₁ e₂ _ goes ih => exact ih.goes calm goes

end Engine

/-! ### What a job is given -/

/-- The longest deadline that is kept: a timeout is counted up to 2^32 - 1 units, and a timer waits
thirty years at most. -/
def TimeUnit.longest (unit : TimeUnit) : Nat := Timer.wait (4294967295 * unit.millis)

namespace Job

variable {job : Job} {unit : TimeUnit} {run : TaskRun}

def allowance (job : Job) (unit : TimeUnit) : Nat :=
  if job.timeout = 0 then defaultTimeout else job.timeout.toNat * unit.millis

def outcomeOf (job : Job) (unit : TimeUnit) (run : TaskRun) : JobResult :=
  if run.delay < job.allowance unit then run.outcome.result job.id
  else .failure job.id ("deadline exceeded after " ++ spanText (job.allowance unit))

def lasts (job : Job) (unit : TimeUnit) (run : TaskRun) : Nat := min run.delay (job.allowance unit)

/-- The job is given no longer than the longest deadline, or its task answers before that. -/
def IsCounted (job : Job) (unit : TimeUnit) (run : TaskRun) : Prop :=
  job.allowance unit ≤ unit.longest ∨ run.delay < unit.longest

instance : Decidable (job.IsCounted unit run) := inferInstanceAs (Decidable (_ ∨ _))

/-- The task is stopped when its time is up, or at the longest deadline. -/
theorem wait_deadline (job : Job) (unit : TimeUnit) :
    Timer.wait (job.deadline unit) = min (job.allowance unit) unit.longest := by
  have default : defaultTimeout ≤ 4294967295 * unit.millis := by cases unit <;> decide
  unfold deadline allowance TimeUnit.longest Timer.wait
  split
  next => rw [← Nat.min_assoc, Nat.min_eq_left default]
  next => rw [← Nat.mul_min_mul_right, Nat.min_assoc]

example : TimeUnit.millisecond.longest = 4294967295 ∧ TimeUnit.second.longest = Timer.longest := by
  decide

private theorem deadline_eq (kept : job.allowance unit ≤ unit.longest) :
    job.deadline unit = job.allowance unit := by
  have positive : 0 < unit.millis := by cases unit <;> decide
  have counted := Nat.le_trans kept (Nat.min_le_left _ Timer.longest)
  unfold allowance at counted ⊢
  unfold deadline
  split
  next => rfl
  next given =>
    rw [if_neg given] at counted
    rw [Nat.min_eq_left (Nat.le_of_mul_le_mul_right counted positive)]

/-- Where the task needs longer than the longest deadline, the job does not get what it is given:
either it ends too early, or it fails although its time is not up. -/
theorem isCounted_iff : job.IsCounted unit run ↔
    min run.delay (Timer.wait (job.deadline unit)) = job.lasts unit run ∧
      (run.delay < Timer.wait (job.deadline unit) ↔ run.delay < job.allowance unit) := by
  rw [wait_deadline]
  unfold IsCounted lasts
  omega

end Job

namespace Engine

variable {e₀ e e' : Engine} {x : Execution} {history : List Ending} {job : Job}
  {executor : Executor} {isSaved : Bool} {pipeline : Option Pipeline} {waiting : List Job}
  {previous : Option Json} {results : List JobResult}

def taskRun (e : Engine) (job : Job) (previous : Option Json) : TaskRun :=
  e.registry.run job.taskName job.taskParams (if job.usePreviousResults then previous else none)

private theorem fate_runJob {t : Instant}
    (counted : job.IsCounted e.pool.unit (e.taskRun job previous)) :
    let x := e.runJob executor isSaved pipeline (job.markStarted t) waiting previous results
    x.fate.result x = job.outcomeOf e.pool.unit (e.taskRun job previous) ∧
      x.dueAt = e.time + job.lasts e.pool.unit (e.taskRun job previous) := by
  intro x
  have expiry : x.expiry = min (job.allowance e.pool.unit) e.pool.unit.longest :=
    job.wait_deadline e.pool.unit
  have run : x.run = e.taskRun job previous := rfl
  unfold Execution.fate Execution.dueAt Job.outcomeOf Job.lasts
  rw [expiry, run]
  unfold Job.IsCounted at counted
  refine ⟨?_, congrArg (e.time + ·) (by omega)⟩
  by_cases overdue : job.allowance e.pool.unit ≤ (e.taskRun job previous).delay
  · have kept : job.allowance e.pool.unit ≤ e.pool.unit.longest := by omega
    rw [if_pos (by omega), if_neg (Nat.not_lt.mpr overdue)]
    exact congrArg (fun n => JobResult.failure job.id ("deadline exceeded after " ++ spanText n))
      (Job.deadline_eq kept)
  · rw [if_neg (by omega), if_pos (Nat.lt_of_not_le overdue)]
    rfl

/-- The run of `job` that began in `e₀` ends so many milliseconds later with the result `r`. The
result is sent, and what is stored says the same. -/
structure Tells (e₀ : Engine) (job : Job) (millis : Nat) (r : JobResult) (ending : Ending) :
    Prop where
  result : ending.result = r
  time : ending.engine.time = e₀.time + millis
  now : ∀ t, e₀.now.addMillis? millis = some t → ending.engine.now = t
  sent : Sends ending.execution.isSaved (ending.engine.pool.unsaved, ending.execution.results)
    ((ending.engine.concludeJob ending.execution r).1.pool.unsaved,
      keptResults (ending.engine.concludeJob ending.execution r).2) [r]
  stored : ending.engine.store.isClosed = false →
    (ending.engine.store.jobs.get? job.id).isSome = true →
    ending.engine.store.transactions.get? (.issued ending.engine.issued) = none →
    ending.engine.Accords (ending.engine.concludeJob ending.execution r).1 ending.execution job
      e₀.now r (keptResults (ending.engine.concludeJob ending.execution r).2)

private theorem isCancelledFor_runJob {t : Instant}
    (calm : executor = .worker ∧ e.pool.isCancelled = false ∨ executor = .caller false) :
    e.pool.isCancelledFor (e.runJob executor isSaved pipeline (job.markStarted t) waiting previous
      results) = false := by
  obtain ⟨rfl, calm⟩ | rfl := calm
  · exact calm
  · rfl

private theorem OnTime.tells {millis : Nat} {ending : Ending} (onTime : OnTime e₀ x history e)
    (current : x.current = job.markStarted e₀.now) (due : x.dueAt = e₀.time + millis)
    (inside : ending ∈ history) (same : ending.execution = x) :
    e₀.Tells job millis (x.fate.result x) ending := by
  obtain ⟨result, time, clocked⟩ := onTime.ended ending inside same
  rw [due] at time
  refine ⟨result, time, fun t passed => clocked.now t ?_, ?_, fun open_ stored fresh => ?_⟩
  · rwa [time, Nat.add_sub_cancel_left]
  · exact sends_concludeJob ending.engine ending.execution _
  · rw [same]
    exact accords_of_current current open_ stored fresh x.fate

theorem OnTime.isOver (onTime : OnTime e₀ x history e) (late : x.dueAt < e.time) :
    x ∉ e.pool.executing ∧ ∃ ending ∈ history, ending.execution = x := by
  have gone : x ∉ e.pool.executing := fun runs => Nat.not_lt.mpr (onTime.early runs) late
  exact ⟨gone, onTime.known.resolve_left gone⟩

/-- A job that is started and not cancelled gets the time that it is given, alone or as any job of a
pipeline. Whatever else happens meanwhile, it ends when its task answers or when its time is up,
whichever comes first, and with that result; and it does end, when the engine lets this time
pass. A longer deadline than the longest one is cut, which matters when the task needs longer. -/
theorem startJob_gives (executor : Executor) (isSaved : Bool) (pipeline : Option Pipeline)
    (waiting : List Job) (previous : Option Json) (results : List JobResult)
    (open₀ : e₀.store.isClosed = false) (stored₀ : (e₀.store.jobs.get? job.id).isSome = true)
    (calm : executor = .worker ∧ e₀.pool.isCancelled = false ∨ executor = .caller false)
    (counted : job.IsCounted e₀.pool.unit (e₀.taskRun job previous)) :
    ∃ e x, e₀.startJob executor isSaved pipeline (job :: waiting) previous results =
        (e, .ok (some x)) ∧
      (∀ history e', (e.addExecution x).Passes history e' →
        (∀ ending ∈ history, ending.execution = x →
          e₀.Tells job (job.lasts e₀.pool.unit (e₀.taskRun job previous))
            (job.outcomeOf e₀.pool.unit (e₀.taskRun job previous)) ending) ∧
        (e₀.time + job.lasts e₀.pool.unit (e₀.taskRun job previous) < e'.time →
          x ∉ e'.pool.executing ∧ ∃ ending ∈ history, ending.execution = x)) ∧
      ∀ millis, job.lasts e₀.pool.unit (e₀.taskRun job previous) < millis →
        ∃ history, (e.addExecution x).Passes history ((e.addExecution x).elapse millis) ∧
          ∃ ending ∈ history, ending.execution = x := by
  refine ⟨_, _, startJob_open executor isSaved pipeline waiting previous results open₀ stored₀, ?_⟩
  generalize begins : e₀.withStore (e₀.store.withJob (job.markStarted e₀.now)) = e
  obtain ⟨pool, now, time, does⟩ : e.pool = e₀.pool ∧ e.now = e₀.now ∧ e.time = e₀.time ∧
      e.taskRun job previous = e₀.taskRun job previous := by
    rw [← begins]
    exact ⟨rfl, rfl, rfl, rfl⟩
  generalize runs : e.runJob executor isSaved pipeline (job.markStarted e₀.now) waiting previous
    results = x
  obtain ⟨result, due⟩ : x.fate.result x = job.outcomeOf e₀.pool.unit (e₀.taskRun job previous) ∧
      x.dueAt = e₀.time + job.lasts e₀.pool.unit (e₀.taskRun job previous) := by
    rw [← runs, ← pool, ← does, ← time]
    rw [← pool, ← does] at counted
    exact fate_runJob counted
  have calm : e₀.pool.isCancelledFor x = false := by
    rw [← runs]
    exact pool ▸ isCancelledFor_runJob (by rwa [pool])
  have current : x.current = job.markStarted e₀.now := congrArg Execution.current runs.symm
  have starts : OnTime e₀ x [] (e.addExecution x) := by
    refine ⟨(Clocked.refl e₀).of_same time now, ?_, fun _ => ?_,
      Or.inl (List.mem_append_right _ (List.mem_singleton_self x)), by simp⟩
    · show e.pool.isCancelled = _
      rw [pool]
    · rw [due]
      exact Nat.le_trans (Nat.le_of_eq time) (Nat.le_add_right _ _)
  rw [← result]
  refine ⟨fun history e' passes => ?_, fun millis longer => ?_⟩
  · have onTime := starts.passes calm passes
    exact ⟨fun ending => onTime.tells current due, fun late => onTime.isOver (due ▸ late)⟩
  · obtain ⟨history, passes⟩ := passes_passUntil (fun _ => false)
      ((e.addExecution x).time + millis) (2 * (e.addExecution x).backlog + 2) (e.addExecution x)
    have there := time_elapse (e.addExecution x) millis
    refine ⟨history, passes, ((starts.passes calm passes).isOver ?_).2⟩
    show x.dueAt < ((e.addExecution x).elapse millis).time
    rw [there, due, ← time]
    exact Nat.add_lt_add_left longer e.time

/-! ### Two naps -/

def napRequest (timeout : UInt64) (millis : Nat) : CreateJob :=
  ⟨"nap", none, "sleep", [("millis", .nat millis)], timeout, none, false, false, .default⟩

def withNap (timeout : UInt64) (millis : Nat) : Engine :=
  (((new? .epoch .builtin 4 .millisecond 1 1).get (by rfl)).createJob (napRequest timeout millis)).1

/-- A nap of two seconds that may take 20 milliseconds has failed after 21. -/
theorem startJob_gives_nap : ∃ job e x, (withNap 20 2000).store.jobs.get? (.issued 0) = some job ∧
    (withNap 20 2000).startJob .worker true none [job] none [] = (e, .ok (some x)) ∧
    ∃ history, (e.addExecution x).Passes history ((e.addExecution x).elapse 21) ∧
      ∃ ending ∈ history, ending.execution = x ∧ ending.engine.time = 20 ∧
        ending.result.error = some "deadline exceeded after 20ms" := by
  have reads : ((withNap 20 2000).store.jobs.get? (.issued 0)).any (fun job => decide
      (job.id = .issued 0 ∧ job.IsCounted .millisecond ((withNap 20 2000).taskRun job none) ∧
        job.lasts .millisecond ((withNap 20 2000).taskRun job none) = 20 ∧
        (job.outcomeOf .millisecond ((withNap 20 2000).taskRun job none)).error =
          some "deadline exceeded after 20ms")) = true := by
    decide +kernel
  obtain ⟨job, read, holds⟩ := (Option.any_eq_true _ _).mp reads
  obtain ⟨key, counted, lasts, outcome⟩ := of_decide_eq_true holds
  have stored : ((withNap 20 2000).store.jobs.get? job.id).isSome = true := by rw [key, read]; rfl
  have calm : (withNap 20 2000).pool.isCancelled = false := by decide +kernel
  obtain ⟨e, x, starts, ends, ended⟩ := startJob_gives .worker true none [] none []
    (by decide +kernel) stored (.inl ⟨rfl, calm⟩) counted
  obtain ⟨history, passes, ending, inside, same⟩ := ended 21 (by
    show job.lasts .millisecond _ < 21
    rw [lasts]
    decide)
  have tells := (ends history _ passes).1 ending inside same
  refine ⟨job, e, x, read, starts, history, passes, ending, inside, same, ?_, ?_⟩
  · exact tells.time.trans (congrArg _ lasts)
  · exact (congrArg JobResult.error tells.result).trans outcome

/-- A nap of 52 days that may take 57 fails. -/
theorem nap_cut_short : ∃ job,
    (withNap 5000000000 4500000000).store.jobs.get? (.issued 0) = some job ∧
    ((withNap 5000000000 4500000000).taskRun job none).delay < job.allowance .millisecond ∧
    (((withNap 5000000000 4500000000).start.scheduleTick.1.elapse 4600000000).store.jobs.get?
      (.issued 0)).map (fun row => (row.status, row.failureReason)) =
        some (.failed, some "deadline exceeded after 4294967.295s") := by
  have reads : ((withNap 5000000000 4500000000).store.jobs.get? (.issued 0)).any (fun job => decide
      (((withNap 5000000000 4500000000).taskRun job none).delay < job.allowance .millisecond)) =
        true := by
    decide +kernel
  obtain ⟨job, read, holds⟩ := (Option.any_eq_true _ _).mp reads
  exact ⟨job, read, of_decide_eq_true holds, by decide +kernel⟩

end Engine

end Rota
