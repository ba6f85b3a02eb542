import Rota.Engine.Timeline
import Rota.Proofs.Course
import Rota.Proofs.Flight
/-! Waiting comes to an end.
Each piece of background work leaves fewer pieces of it behind. When there is none, time passes up
to a moment at which there is one again. So whatever is going on, the engine lets as much time pass
as it is told to. -/
namespace Rota

namespace Pool

variable {p q : Pool} {h : Handover}

def sent (p : Pool) : List Handover := p.channel ++ p.waiting.map (·.2)

private theorem sent_take (taken : p.take? = some (h, q)) : p.sent = h :: q.sent := by
  unfold take? at taken
  split at taken
  next => cases taken
  next first rest channel nobody =>
    cases taken
    simp [sent, channel, nobody]
  next first rest ticket w later channel waits =>
    cases taken
    simp [sent, channel, waits]

private theorem take?_still (taken : p.take? = some (h, q)) :
    q.executing = p.executing ∧ q.unsaved = p.unsaved ∧ q.isCancelled = p.isCancelled := by
  unfold take? at taken
  split at taken <;> cases taken <;> exact ⟨rfl, rfl, rfl⟩

end Pool

namespace Execution

variable {x : Execution} {time : Nat}

def fate (x : Execution) : Fate :=
  if x.expiry ≤ x.run.delay then .overdue else .answered x.run.outcome

theorem verdict?_eq (x : Execution) (time : Nat) :
    x.verdict? false time = if x.dueAt ≤ time then some (x.fate.result x) else none := by
  unfold verdict? dueAt fate
  rw [if_neg Bool.false_ne_true]
  by_cases overdue : x.expiry ≤ x.run.delay
  · rw [if_pos overdue, if_pos overdue, Nat.min_eq_left overdue]
    rfl
  · rw [if_neg overdue, if_neg overdue, Nat.min_eq_right (Nat.le_of_not_le overdue)]
    rfl

private theorem isSome_verdict? (isCancelled : Bool) (due : x.dueAt ≤ time) :
    (x.verdict? isCancelled time).isSome = true := by
  cases isCancelled with
  | true => rfl
  | false =>
    rw [verdict?_eq, if_pos due]
    rfl

end Execution

namespace Engine

variable {e e' : Engine} {x : Execution} {limit fuel : Nat}

/-! ### What a piece of background work does -/

/-- No time passes. Afterwards the jobs of `running` run, and those that have been started. -/
structure Leads (e : Engine) (running started : List Execution) (e' : Engine) : Prop where
  now : e'.now = e.now
  time : e'.time = e.time
  isCancelled : e'.pool.isCancelled = e.pool.isCancelled
  executing : e'.pool.executing = running ++ started
  startedAt : ∀ y ∈ started, y.startedAt = e.time

def without (e : Engine) (place : Nat) : Engine :=
  { e with pool := { e.pool with executing := e.pool.executing.eraseIdx place } }

def finishAt (e : Engine) (place : Nat) (x : Execution) (result : JobResult) : Engine :=
  match (e.without place).finishJob x result with
  | (e, .inl next) => e.addExecution next
  | (e, .inr ended) => e.endExecution x.executor ended

/-- One piece of background work: a result is stored, a work begins, or a job ends. -/
inductive Works (e e' : Engine) : Prop
  | save (result : JobResult) (oldest : e.pool.unsaved = result :: e'.pool.unsaved)
      (sent : e'.pool.sent = e.pool.sent) (leads : e.Leads e.pool.executing [] e')
  | take (h : Handover) (started : Option Execution) (first : e.pool.sent = h :: e'.pool.sent)
      (unsaved : e'.pool.unsaved = e.pool.unsaved)
      (leads : e.Leads e.pool.executing started.toList e')
      (begins : ∀ y ∈ started, h.work.length = y.waiting.length + 1)
  | finish (place : Nat) (x : Execution) (result : JobResult)
      (here : e.pool.executing[place]? = some x)
      (verdict : x.verdict? (e.pool.isCancelledFor x) e.time = some result)
      (same : e' = e.finishAt place x result)

private theorem works_saveResult (saved : e.saveResult? = some e') : e.Works e' := by
  unfold saveResult? at saved
  split at saved
  next => cases saved
  next result rest oldest =>
    dsimp only at saved
    split at saved
    all_goals
      cases saved
      exact .save result oldest rfl ⟨rfl, rfl, rfl, (List.append_nil _).symm, by simp⟩

private theorem works_takeWork (taken : e.takeWork? = some e') : e.Works e' := by
  unfold takeWork? at taken
  split at taken
  next =>
    obtain ⟨⟨h, pool⟩, first, begun⟩ := Option.map_eq_some_iff.mp taken
    obtain ⟨executing, unsaved, isCancelled⟩ := Pool.take?_still first
    have sent := Pool.sent_take first
    dsimp only at begun
    split at begun
    next e₁ x starts =>
      obtain ⟨pipeline, job, waiting, store, jobs, rfl, rfl⟩ := beginWork_runs starts
      subst begun
      refine .take h (some _) sent unsaved ⟨rfl, rfl, isCancelled, congrArg (· ++ _) executing,
        List.forall_mem_singleton.mpr rfl⟩ ?_
      rintro _ ⟨⟩
      exact congrArg List.length jobs
    next e₁ answer lost starts =>
      obtain ⟨store, _, rfl, _⟩ := beginWork_lost starts lost
      subst begun
      exact .take h none sent unsaved
        ⟨rfl, rfl, isCancelled, executing.trans (List.append_nil _).symm, by simp⟩ (by simp)
  next => cases taken

private theorem works_finishNext (finished : e.finishNext? = some e') : e.Works e' := by
  unfold finishNext? at finished
  dsimp only at finished
  split at finished
  next => cases finished
  next place found =>
    split at finished
    next => cases finished
    next x running =>
      obtain ⟨result, verdict, ends⟩ := Option.map_eq_some_iff.mp finished
      exact .finish place x result running verdict ends.symm

theorem works_work (worked : e.work? = some e') : e.Works e' := by
  unfold work? at worked
  split at worked
  next saved =>
    cases worked
    exact works_saveResult saved
  next =>
    split at worked
    next taken =>
      cases worked
      exact works_takeWork taken
    next => exact works_finishNext worked

structure Finishes (e : Engine) (place : Nat) (x : Execution) (started : Option Execution)
    (e' : Engine) : Prop extends e.Leads (e.pool.executing.eraseIdx place) started.toList e' where
  sent : e'.pool.sent = e.pool.sent
  unsaved : e'.pool.unsaved.length ≤ e.pool.unsaved.length + 1
  fewer : ∀ y ∈ started, y.waiting.length < x.waiting.length

theorem Finishes.endExecution {place : Nat} (finishes : e.Finishes place x none e')
    (executor : Executor) (ended : Ended) :
    e.Finishes place x none (e'.endExecution executor ended) := by
  obtain ⟨⟨now, time, isCancelled, executing, startedAt⟩, sent, unsaved, fewer⟩ := finishes
  cases executor <;> exact ⟨⟨now, time, isCancelled, executing, startedAt⟩, sent, unsaved, fewer⟩

/-- When a job has ended, its worker starts the next one at once or has nothing left. -/
theorem finishes_finishAt (e : Engine) (place : Nat) (x : Execution) (result : JobResult) :
    ∃ started, e.Finishes place x started (e.finishAt place x result) := by
  have unsaved : ((e.without place).concludeJob x result).1.pool.unsaved.length ≤
      e.pool.unsaved.length + 1 := by
    rw [unsaved_concludeJob, List.length_append]
    split <;> simp [without]
  unfold finishAt finishJob
  cases concluded : (e.without place).concludeJob x result with
  | mk e₁ answer =>
    rw [concluded] at unsaved
    obtain ⟨_, _, _, _, _, _, _, _, rfl, _⟩ := concludeJob_spec concluded
    have parted : e.Finishes place x none { e.without place with
        store := _, feed := _, issued := _
        pool := { (e.without place).pool with unsaved := _ } } :=
      ⟨⟨rfl, rfl, rfl, (List.append_nil _).symm, by simp⟩, rfl, unsaved, by simp⟩
    cases answer with
    | inr ended => exact ⟨none, parted.endExecution x.executor ended⟩
    | inl i =>
      obtain ⟨_, jobs, _⟩ := concludeJob_hands concluded
      dsimp only
      split
      next next_ goes =>
        obtain ⟨job, waiting, store, listed, _, rfl, rfl⟩ := goOn_runs goes
        refine ⟨some _, ⟨rfl, rfl, rfl, rfl, List.forall_mem_singleton.mpr rfl⟩, rfl, unsaved, ?_⟩
        rintro _ ⟨⟩
        rw [← jobs, listed]
        exact Nat.lt_succ_self _
      next ended goes =>
        obtain ⟨rfl, _⟩ := goOn_inr goes
        exact ⟨none, parted.endExecution x.executor ended⟩

/-! ### The backlog -/

def load {α : Type} (pieces : α → Nat) (l : List α) : Nat := l.foldr (fun a n => pieces a + n) 0

section

variable {α : Type} {pieces : α → Nat} {l l' : List α}

private theorem load_append (pieces : α → Nat) (l l' : List α) :
    load pieces (l ++ l') = load pieces l + load pieces l' := by
  induction l with
  | nil => exact (Nat.zero_add _).symm
  | cons a l ih => exact (congrArg (pieces a + ·) ih).trans (Nat.add_assoc _ _ _).symm

private theorem load_perm (perm : l.Perm l') : load pieces l = load pieces l' := by
  induction perm with
  | nil => rfl
  | cons a _ ih => exact congrArg (pieces a + ·) ih
  | swap a b l => exact Nat.add_left_comm _ _ _
  | trans _ _ first then_ => exact first.trans then_

private theorem load_toList {started : Option α} {bound : Nat}
    (small : ∀ a ∈ started, pieces a ≤ bound) :
    load pieces started.toList ≤ bound := by
  cases started with
  | none => exact Nat.zero_le _
  | some a => exact small a rfl

end

private theorem backlog_eq (e : Engine) : e.backlog = load Handover.backlog e.pool.sent +
    load Execution.backlog e.pool.executing + e.pool.unsaved.length := rfl

/-- A piece of work is done, and it does not make up for itself. -/
theorem backlog_lt (works : e.Works e') : e'.backlog < e.backlog := by
  rw [backlog_eq, backlog_eq]
  cases works with
  | save result oldest sent leads =>
    rw [leads.executing, List.append_nil, oldest, sent]
    exact Nat.lt_succ_self _
  | take h started first unsaved leads begins =>
    have few : load Execution.backlog started.toList ≤ 2 * h.work.length :=
      load_toList fun y here => by
        unfold Execution.backlog
        have := begins y here
        omega
    have taken : load Handover.backlog (h :: e'.pool.sent) =
      2 * h.work.length + 1 + load Handover.backlog e'.pool.sent := rfl
    rw [leads.executing, first, unsaved, load_append, taken]
    omega
  | finish place x result here verdict same =>
    obtain ⟨started, leads, sent, saved, fewer⟩ := finishes_finishAt e place x result
    rw [← same] at leads sent saved
    have few : load Execution.backlog started.toList ≤ 2 * x.waiting.length :=
      load_toList fun y here => by
        unfold Execution.backlog
        have := fewer y here
        omega
    have ended : load Execution.backlog e.pool.executing =
      2 * x.waiting.length + 2 + load Execution.backlog (e.pool.executing.eraseIdx place) :=
      load_perm (perm_eraseIdx here)
    rw [leads.executing, sent, load_append, ended]
    omega

/-! ### The passing of time -/

private theorem time_works (works : e.Works e') : e'.time = e.time := by
  cases works with
  | save _ _ _ leads => exact leads.time
  | take _ _ _ _ leads _ => exact leads.time
  | finish place x result _ _ same =>
    obtain ⟨_, finishes⟩ := finishes_finishAt e place x result
    exact same ▸ finishes.time

/-- A job that is due leaves something to do. -/
theorem work?_of_due (runs : x ∈ e.pool.executing) (due : x.dueAt ≤ e.time) :
    e.work?.isSome = true := by
  have finishes : e.finishNext?.isSome = true := by
    unfold finishNext?
    dsimp only
    split
    next nowhere =>
      have all := List.findIdx?_eq_none_iff.mp nowhere x runs
      rw [Execution.isSome_verdict? _ due] at all
      cases all
    next place found =>
      obtain ⟨inside, verdict, _⟩ := List.findIdx?_eq_some_iff_getElem.mp found
      rw [List.getElem?_eq_getElem inside]
      simpa using verdict
  unfold work?
  split
  next => rfl
  next =>
    split
    next => rfl
    next => exact finishes

private theorem time_advanceTo {time : Nat} (onward : e.time ≤ time) :
    (e.advanceTo time).time = time :=
  Nat.add_sub_of_le onward

private theorem nextDue?_some {next : Nat} (due : e.nextDue? = some next) :
    (∃ x ∈ e.pool.executing, x.dueAt = next) ∧ ∀ y ∈ e.pool.executing, next ≤ y.dueAt := by
  obtain ⟨listed, least⟩ := List.min?_eq_some_iff.mp due
  exact ⟨List.mem_map.mp listed, fun y runs => least _ (List.mem_map_of_mem runs)⟩

/-- How far the engine lets time pass at once: up to the next moment at which a job is due, unless
the limit comes first. -/
def nextStop (e : Engine) (limit : Nat) : Nat := min (e.nextDue?.getD limit) limit

theorem nextStop_early {x : Execution} (runs : x ∈ e.pool.executing) :
    e.nextStop limit ≤ x.dueAt := by
  unfold nextStop
  cases next : e.nextDue? with
  | none =>
    have none_ : e.pool.executing = [] := List.map_eq_nil_iff.mp (List.min?_eq_none_iff.mp next)
    rw [none_] at runs
    cases runs
  | some m => exact Nat.le_trans (Nat.min_le_left _ _) ((nextDue?_some next).2 x runs)

/-- Time that passes ends at the limit or when there is something to do again. -/
theorem advanceTo_nextStop (idle : e.work? = none) (early : e.time ≤ limit) :
    (e.advanceTo (e.nextStop limit)).time = limit ∨
      (e.advanceTo (e.nextStop limit)).time ≤ limit ∧
        (e.advanceTo (e.nextStop limit)).work?.isSome = true := by
  unfold nextStop
  cases next : e.nextDue? with
  | none => exact .inl ((time_advanceTo (by simpa using early)).trans (Nat.min_self limit))
  | some m =>
    obtain ⟨⟨x, runs, due⟩, _⟩ := nextDue?_some next
    have later : e.time < x.dueAt := by
      by_contra already
      have busy := work?_of_due runs (Nat.le_of_not_lt already)
      rw [idle] at busy
      cases busy
    rw [Option.getD_some, ← due]
    have there := time_advanceTo (e := e) (Nat.le_min.mpr ⟨Nat.le_of_lt later, early⟩)
    rcases Nat.le_total limit x.dueAt with beyond | within
    · exact .inl (there.trans (Nat.min_eq_right beyond))
    · rw [Nat.min_eq_left within] at there ⊢
      exact .inr ⟨Nat.le_trans (Nat.le_of_eq there) within,
        work?_of_due (e := e.advanceTo _) runs (Nat.le_of_eq there.symm)⟩

/-- At the limit no time passes. -/
theorem time_passUntil (done : Engine → Bool) (fuel : Nat) (reached : e.time = limit) :
    (e.passUntil done limit fuel).time = limit := by
  induction fuel generalizing e with
  | zero => exact reached
  | succ fuel ih =>
    unfold passUntil
    split
    next => exact reached
    next =>
      split
      next e' worked => exact ih ((time_works (works_work worked)).trans reached)
      next => rwa [if_pos (Nat.le_of_eq reached.symm)]

/-- Each time that passes is followed by a piece of work, so twice the backlog is fuel enough. -/
theorem time_passUntil_never (early : e.time ≤ limit)
    (enough : 2 * e.backlog + 1 ≤ fuel ∨ e.work?.isSome = true ∧ 2 * e.backlog ≤ fuel) :
    (e.passUntil (fun _ => false) limit fuel).time = limit := by
  induction fuel generalizing e with
  | zero =>
    obtain none_ | ⟨busy, none_⟩ := enough
    · omega
    · obtain ⟨e', worked⟩ := Option.isSome_iff_exists.mp busy
      have := backlog_lt (works_work worked)
      omega
  | succ fuel ih =>
    unfold passUntil
    rw [if_neg Bool.false_ne_true]
    split
    next e' worked =>
      have works := works_work worked
      have := backlog_lt works
      exact ih (time_works works ▸ early) (.inl (by omega))
    next idle =>
      rw [idle] at enough
      have enough : 2 * e.backlog ≤ fuel := by simpa using enough
      split
      next reached => exact Nat.le_antisymm early reached
      next =>
        rcases advanceTo_nextStop idle early with reached | ⟨within, busy⟩
        · exact time_passUntil _ fuel reached
        · exact ih within (.inr ⟨busy, enough⟩)

theorem time_elapse (e : Engine) (millis : Nat) : (e.elapse millis).time = e.time + millis :=
  time_passUntil_never (Nat.le_add_right _ _) (.inl (Nat.le_succ _))

end Engine

end Rota
