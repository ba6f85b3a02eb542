import Rota.Proofs.Drain
/-! What the jobs of a pipeline pass on.
A job that asks for it gets what the job right before it has answered in the same run, unless that
is null. Everything that passes from one job to the next is in the hands of the worker that executes
them, so it does not matter what else happens in between, and a work that is executed again starts
with nothing. -/
namespace Rota

/-- What a result hands on is a value that the task has answered, and not null. -/
theorem Fate.metadata_result (x : Execution) (fate : Fate) (v : Json) :
    (fate.result x).metadata = some v ↔ fate = .answered (.value v) ∧ v ≠ .null := by
  constructor
  · intro handed
    cases fate with
    | answered outcome =>
      cases outcome with
      | value w => cases w <;> cases handed <;> exact ⟨rfl, nofun⟩
      | failure _ => cases handed
      | crash _ => cases handed
    | unregistered => cases handed
    | overdue => cases handed
    | cancelled => cases handed
  · rintro ⟨rfl, filled⟩
    cases v <;> first | rfl | exact absurd rfl filled

/-- What runs is the task that is registered under the job's name, called with the job's parameters
and `previous`; without such a task the run only says so. -/
structure Registry.Calls (tasks : Registry) (job : Job) (previous : Option Json) (run : TaskRun) :
    Prop where
  task : ∀ task, tasks.find? job.taskName = some task → run = task job.taskParams previous
  missing : tasks.find? job.taskName = none →
    run = ⟨0, .failure (TaskError.notRegistered job.taskName).messages⟩

private theorem Registry.calls_run (tasks : Registry) (job : Job) (previous : Option Json) :
    tasks.Calls job previous (tasks.run job.taskName job.taskParams previous) where
  task task found := by rw [Registry.run, found]
  missing absent := by rw [Registry.run, absent]

namespace Engine

variable {tasks : Registry} {executor : Executor} {h : Handover} {past : List (Execution × Fate)}
  {e e' : Engine} {x y : Execution}

/-! ### Tasks stay -/

private theorem registry_startJob {executor : Executor} {isSaved : Bool}
    {pipeline : Option Pipeline}
    {jobs : List Job} {previous : Option Json} {results : List JobResult} :
    (e.startJob executor isSaved pipeline jobs previous results).1.registry = e.registry := by
  unfold startJob
  split
  next => rfl
  next =>
    dsimp only
    split <;> rfl

private theorem registry_beginWork (e : Engine) (executor : Executor) (h : Handover) :
    (e.beginWork executor h).1.registry = e.registry := by
  unfold beginWork
  split
  next => exact registry_startJob
  next =>
    split
    next => rfl
    next =>
      dsimp only
      split
      next => rfl
      next => exact registry_startJob

private theorem registry_goOn (e : Engine) (i : Interlude) :
    (e.goOn i).1.registry = e.registry := by
  have same : (e.startJob i.executor i.isSaved i.pipeline i.jobs i.previous i.results).1.registry =
    e.registry := registry_startJob
  unfold goOn
  split <;> next started => exact (congrArg (fun a => a.1.registry) started).symm.trans same

private theorem registry_concludeJob (e : Engine) (x : Execution) (result : JobResult) :
    (e.concludeJob x result).1.registry = e.registry := by
  obtain ⟨_, _, _, _, _, _, _, _, _, concludes, _⟩ := concludeJob_eq e x result
  rw [concludes]

/-! ### Runs of a work -/

/-- A run of the work `h` that has got as far as the execution `x`, with the jobs before it and how
each of them has ended. Anything may happen to the engine meanwhile, but to its tasks. -/
inductive Underway (tasks : Registry) (executor : Executor) (h : Handover) :
    List (Execution × Fate) → Execution → Prop
  | first (e e' : Engine) (x : Execution) (knows : e.registry = tasks)
      (begun : e.beginWork executor h = (e', .ok (some x))) : Underway tasks executor h [] x
  | next (past : List (Execution × Fate)) (x y : Execution) (fate : Fate) (e₁ e₂ e₃ e₄ : Engine)
      (i : Interlude) (before : Underway tasks executor h past x)
      (concluded : e₁.concludeJob x (fate.result x) = (e₂, .inl i)) (knows : e₃.registry = tasks)
      (goes : e₃.goOn i = (e₄, .inl y)) : Underway tasks executor h (past ++ [(x, fate)]) y

/-- `x` executes the job of `jobs` behind those of `past`, which were executed in their order. Its
task is called with the parameters of this job, and with what the job right before it has answered,
if it asks for it and that is not null. -/
structure CalledInTurn (tasks : Registry) (jobs : List Job) (past : List (Execution × Fate))
    (x : Execution) : Prop where
  before : ∀ (i : Nat) (y : Execution × Fate), past[i]? = some y →
    ∃ (job : Job) (t : Instant), jobs[i]? = some job ∧ y.1.current = job.markStarted t
  waiting : jobs.drop (past.length + 1) = x.waiting
  called : ∃ (job : Job) (t : Instant) (previous : Option Json),
    jobs[past.length]? = some job ∧ x.current = job.markStarted t ∧
    tasks.Calls job previous x.run ∧
    ∀ v : Json, previous = some v ↔ 0 < past.length ∧ job.usePreviousResults = true ∧ v ≠ .null ∧
      ∃ y, past[past.length - 1]? = some (y, .answered (.value v))

theorem CalledInTurn.next {jobs : List Job} {fate : Fate} {job : Job} {t : Instant}
    (calledInTurn : CalledInTurn tasks jobs past x) (listed : x.waiting = job :: y.waiting)
    (current : y.current = job.markStarted t)
    (run : y.run = tasks.run job.taskName job.taskParams
      (if job.usePreviousResults then (fate.result x).metadata else none)) :
    CalledInTurn tasks jobs (past ++ [(x, fate)]) y := by
  obtain ⟨before, waiting, ran, start, _, own, marked, _⟩ := calledInTurn
  rw [listed] at waiting
  have length : (past ++ [(x, fate)]).length = past.length + 1 := by simp
  refine ⟨?_, ?_, job, t, _, ?_, current, run ▸ tasks.calls_run job _, fun v => ?_⟩
  · intro i z here
    rcases Nat.lt_or_ge i past.length with early | late
    · rw [List.getElem?_append_left early] at here
      exact before i z here
    · rw [List.getElem?_append_right late, List.getElem?_singleton] at here
      split at here
      next same =>
        cases here
        obtain rfl : i = past.length := by omega
        exact ⟨ran, start, own, marked⟩
      next => cases here
  · rw [length, ← List.drop_drop, waiting]
    rfl
  · have here := congrArg List.head? waiting
    rw [List.head?_drop, List.head?_cons] at here
    rw [length, here]
  · have last : (past ++ [(x, fate)])[past.length + 1 - 1]? = some (x, fate) := by simp
    rw [length, last]
    split
    next asks =>
      rw [Fate.metadata_result]
      simp [asks, and_comm]
    next mute => simp [mute]

private theorem calledInTurn (underway : Underway tasks executor h past x) :
    CalledInTurn tasks h.work.jobs past x := by
  induction underway with
  | first e e' x knows begun =>
    obtain ⟨pipeline, job, waiting, store, jobs, rfl, rfl⟩ := beginWork_runs begun
    have run : e.registry.run job.taskName job.taskParams (if job.usePreviousResults then none
        else none) = tasks.run job.taskName job.taskParams none := by
      rw [ite_self, knows]
    have calls := run ▸ tasks.calls_run job none
    refine ⟨?_, ?_, job, e.now, none, ?_, rfl, calls, by simp⟩
    · intro i y here
      cases here
    · rw [jobs]
      rfl
    · rw [jobs]
      rfl
  | next past x y fate e₁ e₂ e₃ e₄ i _ concluded knows goes ih =>
    obtain ⟨_, jobs, previous⟩ := concludeJob_hands concluded
    obtain ⟨job, waiting, store, listed, _, rfl, rfl⟩ := goOn_runs goes
    refine ih.next (jobs.symm.trans listed) rfl ?_
    rw [← previous, ← knows]
    rfl

end Engine

/-! ### Works of a pool -/

def Move.Keeps (tasks : Registry) (m : Move) : Prop :=
  ∀ e, m = .elsewhere e → e.registry = tasks

namespace Crew

abbrev Notes := List (Nat × Execution × JobResult)

def notes (c : Crew) : Move → Notes
  | .conclude place result =>
    match c.workers[place]? with
    | some (.running n x) => [(n, x, result)]
    | _ => []
  | _ => []

def noted (c : Crew) : List Move → Notes
  | [] => []
  | m :: moves => c.notes m ++ (c.perform m).noted moves

def Notes.ofWork (notes : Notes) (n : Nat) : List (Execution × JobResult) :=
  notes.filterMap fun note => if note.1 = n then some note.2 else none

variable {c c' : Crew} {tasks : Registry} {log : Notes} {m : Move} {place n : Nat} {x : Execution}
  {h : Handover}

private theorem move_of_noted {moves : List Move} {note : Nat × Execution × JobResult}
    (member : note ∈ c.noted moves) : ∃ place, .conclude place note.2.2 ∈ moves := by
  induction moves generalizing c with
  | nil => cases member
  | cons m moves ih =>
    rcases List.mem_append.mp member with first | later
    · unfold notes at first
      split at first
      next place result =>
        split at first
        next =>
          cases List.mem_singleton.mp first
          exact ⟨place, List.mem_cons_self⟩
        next => cases first
      next => cases first
    · obtain ⟨place, inside⟩ := ih later
      exact ⟨place, List.mem_cons_of_mem m inside⟩

private theorem Notes.mem_ofWork {y : Execution × JobResult} : y ∈ log.ofWork n ↔ (n, y) ∈ log := by
  simp [Notes.ofWork]

private theorem Notes.ofWork_append (log more : Notes) (n : Nat) :
    (log ++ more).ofWork n = log.ofWork n ++ more.ofWork n :=
  List.filterMap_append

/-- The jobs and how they have ended, with the results that this gave. -/
def resultsOf (past : List (Execution × Fate)) : List (Execution × JobResult) :=
  past.map fun y => (y.1, y.2.result y.1)

/-- Where a worker is on its way with a run of its work, the notes tell what it has behind it. -/
def IsTraced (tasks : Registry) (sent : List Handover) (log : Notes) : Worker → Prop
  | .running n x => ∃ h past, sent[n]? = some h ∧ Engine.Underway tasks .worker h past x ∧
      log.ofWork n = resultsOf past
  | .between n i => ∃ h past x fate e e', sent[n]? = some h ∧
      Engine.Underway tasks .worker h past x ∧
      Engine.concludeJob e x (fate.result x) = (e', .inl i) ∧
      log.ofWork n = resultsOf (past ++ [(x, fate)])
  | .idle | .gone | .holding _ _ => True

structure Traced (tasks : Registry) (c : Crew) (log : Notes) : Prop where
  knows : c.engine.registry = tasks
  unbegun : ∀ n, n ∉ c.begun.map (·.1) → log.ofWork n = []
  workers : ∀ w ∈ c.workers, IsTraced tasks c.sent log w

/-- What a job is concluded with is how a running job can end. -/
def Notes.Faithful (notes : Notes) : Prop :=
  ∀ note ∈ notes, ∃ fate : Fate, fate.result note.2.1 = note.2.2

theorem IsTraced.later {sent later : List Handover} {w : Worker} {log' : Notes}
    (traced : IsTraced tasks sent log w) (more : sent <+: later)
    (same : ∀ n, w.begun? = some n → log'.ofWork n = log.ofWork n) :
    IsTraced tasks later log' w := by
  cases w with
  | idle | gone | holding _ _ => trivial
  | running n x =>
    obtain ⟨h, past, own, underway, behind⟩ := traced
    exact ⟨h, past, getElem?_of_sent more own, underway, (same n rfl).trans behind⟩
  | between n i =>
    obtain ⟨h, past, x, fate, e, e', own, underway, concluded, behind⟩ := traced
    exact ⟨h, past, x, fate, e, e', getElem?_of_sent more own, underway, concluded,
      (same n rfl).trans behind⟩

private theorem isTraced_of_unbegun {sent : List Handover} {w : Worker}
    (unbegun : w.begun? = none) :
    IsTraced tasks sent log w := by
  cases w <;> trivial

/-! ### Who has a work -/

private theorem work?_of_begun? {w : Worker} (begun : w.begun? = some n) : w.work? = some n := by
  cases w <;> first | exact begun | cases begun

/-- A work that a worker has is with no other one, and has not ended. -/
theorem Sound.only {w : Worker} (sound : c.Sound) (here : c.workers[place]? = some w)
    (work : w.work? = some n) :
    (∀ v ∈ c.workers.eraseIdx place, v.work? ≠ some n) ∧ n ∉ c.ended := by
  have once : c.taken.Nodup :=
    (List.pairwise_append.mp (List.pairwise_append.mp sound.numbered.order).1).1.imp Nat.ne_of_lt
  have all := ((perm_eraseIdx here).filterMap Worker.work?).append_right c.ended
  rw [List.filterMap_cons_some work] at all
  have distinct := (all.symm.trans sound.custody.taken).nodup_iff.mpr once
  rw [List.cons_append, List.nodup_cons, List.mem_append, not_or] at distinct
  refine ⟨fun v member other => distinct.1.1 ?_, distinct.1.2⟩
  exact List.mem_filterMap.mpr ⟨v, member, other⟩

/-- A work that has not been begun by the worker that has it has never been begun. -/
theorem Sound.unbegun (sound : c.Sound) (here : c.workers[place]? = some (.holding n h)) :
    n ∉ c.begun.map (·.1) := by
  obtain ⟨others, unended⟩ := sound.only here rfl
  have all := ((perm_eraseIdx here).filterMap Worker.begun?).append_right c.ended
  rw [List.filterMap_cons_none rfl] at all
  rw [← (all.symm.trans sound.custody.begun).mem_iff, List.mem_append, not_or]
  refine ⟨fun member => ?_, unended⟩
  obtain ⟨v, inside, begun⟩ := List.mem_filterMap.mp member
  exact others v inside (work?_of_begun? begun)

theorem Sound.begun {w : Worker} (sound : c.Sound) (here : c.workers[place]? = some w)
    (works : w.begun? = some n) : n ∈ c.begun.map (·.1) := by
  refine sound.custody.begun.subset (List.mem_append_left _ ?_)
  exact List.mem_filterMap.mpr ⟨w, List.mem_of_getElem? here, works⟩

private theorem mem_withWorker {w v : Worker} (here : c.workers[place]? = some w) {w' : Worker}
    (member : v ∈ c.workers.set place w') : v = w' ∨ v ∈ c.workers.eraseIdx place := by
  have inside := (List.getElem?_eq_some_iff.mp here).1
  have all := perm_eraseIdx (List.getElem?_set_self (a := w') inside)
  rw [List.eraseIdx_set_eq] at all
  exact List.mem_cons.mp (all.mem_iff.mp member)

/-! ### Moves -/

theorem Traced.of_kept (traced : c.Traced tasks log) (knows : c'.engine.registry = tasks)
    (workers : ∀ w ∈ c'.workers, w ∈ c.workers ∨ w.begun? = none)
    (sent : c.sent <+: c'.sent) (begun : c'.begun = c.begun) : c'.Traced tasks log := by
  refine ⟨knows, begun ▸ traced.unbegun, fun w member => ?_⟩
  rcases workers w member with before | unbegun
  · exact (traced.workers w before).later sent fun _ _ => rfl
  · exact isTraced_of_unbegun unbegun

/-- What a worker does with its work concerns no other work. -/
theorem Traced.moved {w w' : Worker} {log' : Notes} (sound : c.Sound) (traced : c.Traced tasks log)
    (here : c.workers[place]? = some w) (work : w.work? = some n)
    (workers : c'.workers = c.workers.set place w') (sent : c'.sent = c.sent)
    (begun : n ∈ c'.begun.map (·.1)) (before : c.begun ⊆ c'.begun)
    (knows : c'.engine.registry = tasks) (others : ∀ k ≠ n, log'.ofWork k = log.ofWork k)
    (goesOn : IsTraced tasks c.sent log' w') : c'.Traced tasks log' := by
  refine ⟨knows, fun k absent => ?_, fun v member => ?_⟩
  · rw [others k fun same => absent (same ▸ begun)]
    exact traced.unbegun k fun known => absent (List.map_subset _ before known)
  · rw [sent]
    rw [workers] at member
    rcases mem_withWorker here member with rfl | other
    · exact goesOn
    · refine (traced.workers v ((List.eraseIdx_sublist _ _).subset other)).later
        (List.prefix_refl _) fun k works => others k ?_
      rintro rfl
      exact (sound.only here work).1 v other (work?_of_begun? works)

theorem Traced.beginWork (sound : c.Sound) (traced : c.Traced tasks log) (place : Nat) :
    (c.beginWork place).Traced tasks log := by
  unfold Crew.beginWork
  split
  next n h here =>
    have own := sound.custody.held n h (List.mem_of_getElem? here)
    have fresh := traced.unbegun n (sound.unbegun here)
    have begins : n ∈ (c.begun ++ [(n, h)]).map (·.1) := by simp
    have before : c.begun ⊆ c.begun ++ [(n, h)] := List.subset_append_left _ _
    have knows := Engine.registry_beginWork c.engine .worker h
    dsimp only
    split
    next e x begun =>
      rw [begun] at knows
      exact traced.moved sound here rfl rfl rfl begins before (knows.trans traced.knows)
        (fun _ _ => rfl) ⟨h, [], own, .first _ _ _ traced.knows begun, fresh⟩
    next e answer _ begun =>
      rw [begun] at knows
      exact traced.moved sound here rfl rfl rfl begins before (knows.trans traced.knows)
        (fun _ _ => rfl) trivial
  next => exact traced

private theorem conclude_of_running (here : c.workers[place]? = some (.running n x))
    (result : JobResult) :
    c.notes (.conclude place result) = [(n, x, result)] := by
  simp only [notes, here]

private theorem conclude_of_other (other : ∀ n x, c.workers[place]? ≠ some (.running n x))
    (result : JobResult) :
    c.conclude place result = c ∧ c.notes (.conclude place result) = [] := by
  constructor
  · unfold Crew.conclude
    split
    next n x here => exact absurd here (other n x)
    next => rfl
  · unfold notes
    dsimp only
    split
    next n x here => exact absurd here (other n x)
    next => rfl

theorem Traced.conclude (sound : c.Sound) (traced : c.Traced tasks log) (place : Nat)
    (result : JobResult) (faithful : (c.notes (.conclude place result)).Faithful) :
    (c.conclude place result).Traced tasks (log ++ c.notes (.conclude place result)) := by
  by_cases running : ∃ n x, c.workers[place]? = some (.running n x)
  · obtain ⟨n, x, here⟩ := running
    rw [conclude_of_running here] at faithful ⊢
    obtain ⟨fate, rfl⟩ : ∃ fate : Fate, fate.result x = result :=
      faithful (n, x, result) (List.mem_singleton_self _)
    obtain ⟨h, past, own, underway, behind⟩ := traced.workers _ (List.mem_of_getElem? here)
    have begun := sound.begun here rfl
    have others : ∀ k ≠ n, Notes.ofWork (log ++ [(n, x, fate.result x)]) k = log.ofWork k := by
      intro k other
      simp [Notes.ofWork, Ne.symm other]
    have knows := Engine.registry_concludeJob c.engine x (fate.result x)
    unfold Crew.conclude
    simp only [here]
    split
    next e i concluded =>
      rw [concluded] at knows
      have ended : Notes.ofWork (log ++ [(n, x, fate.result x)]) n =
          resultsOf (past ++ [(x, fate)]) := by
        rw [Notes.ofWork_append, behind]
        simp [Notes.ofWork, resultsOf]
      exact traced.moved sound here rfl rfl rfl begun (List.Subset.refl _)
        (knows.trans traced.knows) others
        ⟨h, past, x, fate, _, _, own, underway, concluded, ended⟩
    next e ended concluded =>
      rw [concluded] at knows
      exact traced.moved sound here rfl rfl rfl begun (List.Subset.refl _)
        (knows.trans traced.knows) others trivial
  · obtain ⟨same, nothing⟩ := conclude_of_other (fun n x here => running ⟨n, x, here⟩) result
    rw [same, nothing, List.append_nil]
    exact traced

theorem Traced.goOn (sound : c.Sound) (traced : c.Traced tasks log) (place : Nat) :
    (c.goOn place).Traced tasks log := by
  unfold Crew.goOn
  split
  next n i here =>
    obtain ⟨h, past, x, fate, e₁, e₂, own, underway, concluded, behind⟩ :=
      traced.workers _ (List.mem_of_getElem? here)
    have begun := sound.begun here rfl
    have knows := Engine.registry_goOn c.engine i
    split
    next e y goes =>
      rw [goes] at knows
      exact traced.moved sound here rfl rfl rfl begun (List.Subset.refl _)
        (knows.trans traced.knows) (fun _ _ => rfl)
        ⟨h, _, own, .next past x y fate _ _ _ _ i underway concluded traced.knows goes, behind⟩
    next e ended goes =>
      rw [goes] at knows
      exact traced.moved sound here rfl rfl rfl begun (List.Subset.refl _)
        (knows.trans traced.knows) (fun _ _ => rfl) trivial
  next => exact traced

theorem Traced.perform (sound : c.Sound) (traced : c.Traced tasks log) (keeps : m.Keeps tasks)
    (faithful : (c.notes m).Faithful) : (c.perform m).Traced tasks (log ++ c.notes m) := by
  have quiet {c' : Crew} (knows : c'.engine.registry = c.engine.registry)
      (workers : ∀ w ∈ c'.workers, w ∈ c.workers ∨ w.begun? = none) (sent : c.sent <+: c'.sent)
      (begun : c'.begun = c.begun) : c'.Traced tasks (log ++ []) := by
    rw [List.append_nil]
    exact traced.of_kept (knows.trans traced.knows) workers sent begun
  cases m with
  | start =>
    unfold Crew.perform Crew.start
    dsimp only
    split <;> exact quiet rfl (fun _ => .inl) (List.prefix_refl _) rfl
  | hire =>
    unfold Crew.perform Crew.hire
    dsimp only
    split
    next =>
      refine quiet rfl (fun w new => .inr ?_) (List.prefix_refl _) rfl
      rw [(List.mem_replicate.mp new).2]
      rfl
    next => exact quiet rfl (fun _ => .inl) (List.prefix_refl _) rfl
  | call h =>
    unfold Crew.perform
    dsimp only
    split <;> exact quiet rfl (fun _ => .inl) (List.prefix_refl _) rfl
  | send place =>
    unfold Crew.perform Crew.send
    dsimp only
    split
    next => exact quiet rfl (fun _ => .inl) (List.prefix_refl _) rfl
    next => split <;> exact quiet rfl (fun _ => .inl) (List.prefix_append _ _) rfl
  | take place =>
    unfold Crew.perform Crew.take
    dsimp only
    split
    next =>
      refine quiet rfl (fun w member => ?_) (List.prefix_refl _) rfl
      exact (List.mem_or_eq_of_mem_set member).imp_right (congrArg Worker.begun?)
    next => exact quiet rfl (fun _ => .inl) (List.prefix_refl _) rfl
  | leave place =>
    unfold Crew.perform Crew.leave
    dsimp only
    split
    next =>
      split
      next =>
        refine quiet rfl (fun w member => ?_) (List.prefix_refl _) rfl
        exact (List.mem_or_eq_of_mem_set member).imp_right (congrArg Worker.begun?)
      next => exact quiet rfl (fun _ => .inl) (List.prefix_refl _) rfl
    next => exact quiet rfl (fun _ => .inl) (List.prefix_refl _) rfl
  | hangUp | abandon | close | join => exact quiet rfl (fun _ => .inl) (List.prefix_refl _) rfl
  | elsewhere e =>
    exact quiet ((keeps e rfl).trans traced.knows.symm) (fun _ => .inl) (List.prefix_refl _) rfl
  | beginWork place => exact (List.append_nil log).symm ▸ traced.beginWork sound place
  | conclude place result => exact traced.conclude sound place result faithful
  | goOn place => exact (List.append_nil log).symm ▸ traced.goOn sound place

theorem Traced.run {moves : List Move} (sound : c.Sound) (traced : c.Traced tasks log)
    (keeps : ∀ m ∈ moves, m.Keeps tasks) (faithful : (c.noted moves).Faithful) :
    (c.run moves).Traced tasks (log ++ c.noted moves) := by
  induction moves generalizing c log with
  | nil => exact (List.append_nil log).symm ▸ traced
  | cons m moves ih =>
    obtain ⟨first, later⟩ := List.forall_mem_append.mp faithful
    have done := traced.perform sound (keeps m List.mem_cons_self) first
    rw [noted, ← List.append_assoc]
    exact ih (sound.perform m) done (fun m member => keeps m (List.mem_cons_of_mem _ member)) later

private theorem traced_of (e : Engine) : (of e).Traced e.registry [] :=
  ⟨rfl, fun _ _ => rfl, fun _ none_ => by cases none_⟩

/-- The task that is registered for a job of a chain is called with the parameters of its job. It is
given what the job right before it has answered in the same run, if the job asks for it and that is
not null, and nothing else ever. In particular, this is so for every job that a worker of a new pool
executes after any moves of workers and callers; the jobs before it are those that the run has noted
for its work. -/
theorem passesOn :
    (∀ (tasks : Registry) (executor : Executor) (h : Handover) (past : List (Execution × Fate))
      (x : Execution), Engine.Underway tasks executor h past x →
        Engine.CalledInTurn tasks h.work.jobs past x) ∧
    ∀ (unit : TimeUnit) (size capacity : Nat) (e : Engine) (moves : List Move),
      Pool.new? unit size capacity = some e.pool → (∀ m ∈ moves, m.Keeps e.registry) →
      ((of e).noted moves).Faithful →
      ∀ n x, .running n x ∈ ((of e).run moves).workers → ∃ h past,
        ((of e).run moves).sent[n]? = some h ∧ ((of e).noted moves).ofWork n = resultsOf past ∧
        Engine.CalledInTurn e.registry h.work.jobs past x := by
  refine ⟨fun _ _ _ _ _ => Engine.calledInTurn, ?_⟩
  intro unit size capacity e moves fresh keeps faithful n x runs
  have traced := (traced_of e).run (Sound.of_new fresh) keeps faithful
  obtain ⟨h, past, own, underway, behind⟩ := traced.workers _ runs
  exact ⟨h, past, own, behind, Engine.calledInTurn underway⟩

def withEcho : Engine := { Engine.withReport with registry := [("echo", Task.echo)] }

def relay : Handover :=
  ⟨.pipeline (.issued 0) (withEcho.store.jobs.values.map fun j =>
    { j with taskName := "echo", usePreviousResults := true }), true⟩

def relayed : List Move :=
  [.start, .hire, .call relay, .send 0, .take 0, .beginWork 0,
    .conclude 0 ((Outcome.value (.bool true)).result (.issued 1)), .goOn 0]

private theorem noted_relayed : ∀ note ∈ (of withEcho).noted relayed,
    note.2.1.current.id = .issued 1 ∧
      note.2.2 = (Outcome.value (.bool true)).result (.issued 1) := by
  have ids : (((of withEcho).noted relayed).all fun note =>
      note.2.1.current.id = .issued 1) = true := by
    decide +kernel
  intro note member
  obtain ⟨place, concludes⟩ := move_of_noted member
  simp only [relayed, List.mem_cons, Move.conclude.injEq, reduceCtorEq, false_or, List.not_mem_nil,
    or_false] at concludes
  exact ⟨of_decide_eq_true (List.all_eq_true.mp ids note member), concludes.2⟩

def runsJobOf (n : Nat) : Worker → Bool
  | .running m _ => m = n
  | _ => false

/-- The second job gets what the first one has answered. -/
theorem passesOn_relay : ∃ x job, .running 0 x ∈ ((of withEcho).run relayed).workers ∧
    relay.work.jobs[1]? = some job ∧
    withEcho.registry.find? job.taskName = some Task.echo ∧
    x.run = Task.echo job.taskParams (some (.bool true)) := by
  have fresh : Pool.new? .second 1 1 = some withEcho.pool := rfl
  have keeps : ∀ m ∈ relayed, m.Keeps withEcho.registry := by
    simp [relayed, Move.Keeps]
  have faithful : ((of withEcho).noted relayed).Faithful := by
    intro note member
    obtain ⟨key, result⟩ := noted_relayed note member
    exact ⟨.answered (.value (.bool true)), by rw [result, Fate.result, key]⟩
  have running : ((of withEcho).run relayed).workers.any (runsJobOf 0) = true := by
    decide +kernel
  obtain ⟨w, member, runs⟩ := List.any_eq_true.mp running
  cases w with
  | idle | gone | holding _ _ | between _ _ => cases runs
  | running n x =>
    obtain rfl : n = 0 := of_decide_eq_true runs
    obtain ⟨h, past, sent, behind, called⟩ :=
      passesOn.2 .second 1 1 _ relayed fresh keeps faithful 0 x member
    obtain ⟨job, t, previous, here, _, calls, passes⟩ := called.called
    have all : ((of withEcho).run relayed).sent = [relay] := rfl
    rw [all] at sent
    cases sent
    have one : (((of withEcho).noted relayed).ofWork 0).length = 1 := by decide +kernel
    rw [behind, resultsOf, List.length_map] at one
    obtain ⟨⟨y, fate⟩, rfl⟩ := List.length_eq_one_iff.mp one
    have noted : (0, y, fate.result y) ∈ (of withEcho).noted relayed :=
      Notes.mem_ofWork.mp (behind ▸ List.mem_singleton_self _)
    have result : fate.result y = (Outcome.value (.bool true)).result (.issued 1) :=
      (noted_relayed _ noted).2
    have answered : fate = .answered (.value (.bool true)) :=
      ((Fate.metadata_result y fate _).mp (result ▸ rfl)).1
    obtain ⟨asks, echoes⟩ : job.usePreviousResults = true ∧
        withEcho.registry.find? job.taskName = some Task.echo := by
      obtain ⟨row, _, rfl⟩ := List.mem_map.mp (List.mem_of_getElem? here)
      exact ⟨rfl, rfl⟩
    refine ⟨x, job, member, here, echoes, ?_⟩
    have valued : Json.bool true ≠ .null := by simp
    rw [calls.task Task.echo echoes,
      (passes (.bool true)).mpr ⟨Nat.one_pos, asks, valued, y, by rw [answered]; rfl⟩]

end Crew

end Rota
