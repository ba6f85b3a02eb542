import Rota.Engine.Timeline
import Rota.Proofs.Course
/-! What the engine does when it is left alone.
It does one piece of work after the other, lets time pass when there is none, and brings its ticks
to an end. All of it is a run of the system: steps of workers, ticks and the clock in one of their
orders, with nothing in a worker's hands at the end. -/
namespace Rota

def Action.isInternal : Action → Bool
  | .scan | .look | .submit _ | .abandon _ => true
  | .take | .proceed _ | .finish _ _ | .save _ | .advance _ => true
  | _ => false

namespace System

def Reaches (s s' : System) : Prop :=
  ∃ actions, (∀ a ∈ actions, a.isInternal = true) ∧ s.run actions = s'

namespace Reaches

variable {s s' s'' : System}

theorem refl (s : System) : s.Reaches s := ⟨[], by simp, rfl⟩

theorem step {a : Action} (internal : a.isInternal = true) (done : s.perform a = s') :
    s.Reaches s' :=
  ⟨[a], by simpa using internal, done⟩

theorem trans (first : s.Reaches s') (second : s'.Reaches s'') : s.Reaches s'' := by
  obtain ⟨actions, internal, rfl⟩ := first
  obtain ⟨actions', internal', rfl⟩ := second
  refine ⟨actions ++ actions', ?_, run_append s actions actions'⟩
  intro a member
  rcases List.mem_append.mp member with before | behind
  · exact internal a before
  · exact internal' a behind

end Reaches

variable {e e' : Engine} {ticks : List Tick}

/-! ### Background work -/

private theorem reaches_saveResult (saved : e.saveResult? = some e') :
    Reaches ⟨e, ticks, []⟩ ⟨e', ticks, []⟩ := by
  apply Reaches.step (a := .save 0) rfl
  rw [perform]
  unfold Engine.saveResult? at saved
  unfold save
  split at saved
  next => cases saved
  next result rest listed =>
    simp only [listed, List.getElem?_cons_zero, List.eraseIdx_cons_zero]
    dsimp only at saved
    split at saved
    next store created =>
      cases saved
      simp only [withPool, withEngine, created]
    next err failed =>
      cases saved
      simp only [withPool, withEngine, failed]

/-- A worker that takes a work begins it at once. -/
theorem reaches_takeWork (taken : e.takeWork? = some e') :
    Reaches ⟨e, ticks, []⟩ ⟨e', ticks, []⟩ := by
  unfold Engine.takeWork? at taken
  split at taken
  next free =>
    obtain ⟨⟨h, pool⟩, next, begun⟩ := Option.map_eq_some_iff.mp taken
    have takes : perform ⟨e, ticks, []⟩ .take = ⟨{ e with pool := pool }, ticks, [.work h]⟩ := by
      have worker : hasIdleWorker ⟨e, ticks, []⟩ = true := free
      rw [perform]
      unfold take
      rw [if_pos worker, next]
      rfl
    refine (Reaches.step rfl takes).trans (.step (a := .proceed 0) rfl ?_)
    rw [perform]
    unfold proceed
    simp only [List.getElem?_cons_zero, List.eraseIdx_cons_zero]
    rw [← begun]
    dsimp only
    cases Engine.beginWork { e with pool := pool } .worker h with
    | mk e₁ answer =>
      rcases answer with err | _ | x
      · rfl
      · rfl
      · rfl
  next => cases taken

/-- A job that has its result is finished, and its worker goes on at once. -/
theorem reaches_finishNext (finished : e.finishNext? = some e') :
    Reaches ⟨e, ticks, []⟩ ⟨e', ticks, []⟩ := by
  unfold Engine.finishNext? at finished
  dsimp only at finished
  split at finished
  next => cases finished
  next place found =>
    split at finished
    next => cases finished
    next x running =>
      obtain ⟨result, verdict, ends⟩ := Option.map_eq_some_iff.mp finished
      obtain ⟨fate, rfl⟩ := Execution.verdict?_fate verdict
      have own := Fate.jobId_result x fate
      rw [Engine.finishJob] at ends
      cases concluded : Engine.concludeJob { e with pool :=
          { e.pool with executing := e.pool.executing.eraseIdx place } } x (fate.result x) with
      | mk e₁ answer =>
        rw [concluded] at ends
        cases answer with
        | inl i =>
          have finishes : perform ⟨e, ticks, []⟩ (.finish place (fate.result x)) =
              ⟨e₁, ticks, [.rest i]⟩ := by
            rw [perform]
            unfold finish
            simp only [running, if_pos own]
            rw [concluded]
            rfl
          refine (Reaches.step rfl finishes).trans (.step (a := .proceed 0) rfl ?_)
          rw [perform]
          unfold proceed
          simp only [List.getElem?_cons_zero, List.eraseIdx_cons_zero]
          dsimp only at ends
          rw [← ends]
          cases goes : e₁.goOn i with
          | mk e₂ outcome =>
            cases outcome with
            | inl y => rfl
            | inr ended =>
              dsimp only
              rw [Engine.executor_concludeJob concluded]
        | inr ended =>
          apply Reaches.step (a := .finish place (fate.result x)) rfl
          rw [perform]
          unfold finish
          simp only [running, if_pos own]
          rw [concluded, ← ends]

private theorem reaches_work (worked : e.work? = some e') :
    Reaches ⟨e, ticks, []⟩ ⟨e', ticks, []⟩ := by
  unfold Engine.work? at worked
  split at worked
  next saved =>
    cases worked
    exact reaches_saveResult saved
  next =>
    split at worked
    next taken =>
      cases worked
      exact reaches_takeWork taken
    next => exact reaches_finishNext worked

/-- Letting work and time go on is a run, for however long it lasts. -/
theorem reaches_passUntil (done : Engine → Bool) (limit fuel : Nat) (e : Engine)
    (ticks : List Tick) :
    Reaches ⟨e, ticks, []⟩ ⟨e.passUntil done limit fuel, ticks, []⟩ := by
  induction fuel generalizing e with
  | zero => exact .refl _
  | succ fuel ih =>
    unfold Engine.passUntil
    split
    next => exact .refl _
    next =>
      split
      next e₁ worked => exact (reaches_work worked).trans (ih e₁)
      next =>
        split
        next => exact .refl _
        next => exact (Reaches.step (a := .advance _) rfl rfl).trans (ih _)

/-! ### Ticks -/

def StandsAt (place : Nat) (isScan : Bool) (ticks : List Tick) (t : TickState) : Prop :=
  ∀ ticket count due, t = .paused ticket count due →
    ticks[place]? = some ⟨isScan, due, some ticket⟩

variable {place : Nat} {isScan : Bool}

/-- A tick that does not wait submits one job after the other. -/
theorem reaches_submitAll {due : List Job} {ticket : Option Nat}
    (here : ticks[place]? = some ⟨isScan, due, ticket⟩)
    (free : Tick.isBlocked ⟨isScan, due, ticket⟩ e.pool = false) (count : Nat) :
    ∃ ticks', Reaches ⟨e, ticks, []⟩ ⟨(e.submitAll count due).1, ticks', []⟩ ∧
      StandsAt place isScan ticks' (e.submitAll count due).2 := by
  induction due generalizing e ticks count ticket with
  | nil => exact ⟨ticks, .refl _, by rintro _ _ _ ⟨⟩⟩
  | cons job rest ih =>
    obtain ⟨inside, _⟩ := List.getElem?_eq_some_iff.mp here
    cases submitted : e.submit job with
    | mk e₁ submission =>
      have submits : Reaches ⟨e, ticks, []⟩
          ⟨e₁, afterSubmission ticks place isScan rest submission, []⟩ := by
        apply Reaches.step (a := .submit place) rfl
        rw [perform]
        unfold submitNext
        simp only [here, free, submitted]
        rfl
      -- The tick goes on unless its work waits or its dates are out of range.
      have goesOn (count : Nat) (passed : afterSubmission ticks place isScan rest submission =
          ticks.set place ⟨isScan, rest, none⟩) :
          ∃ ticks', Reaches ⟨e, ticks, []⟩ ⟨(e₁.submitAll count rest).1, ticks', []⟩ ∧
            StandsAt place isScan ticks' (e₁.submitAll count rest).2 := by
        rw [passed] at submits
        have there : (ticks.set place ⟨isScan, rest, none⟩)[place]? = some ⟨isScan, rest, none⟩ :=
          List.getElem?_set_self inside
        obtain ⟨ticks', reaches, stands⟩ := ih (e := e₁) there rfl count
        exact ⟨ticks', submits.trans reaches, stands⟩
      rw [Engine.submitAll, submitted]
      cases submission with
      | submitted => exact goesOn (count + 1) rfl
      | skipped => exact goesOn count rfl
      | failed => exact goesOn count rfl
      | overflow => exact ⟨_, submits, by rintro _ _ _ ⟨⟩⟩
      | waiting ticket =>
        refine ⟨_, submits, ?_⟩
        rintro _ _ _ ⟨⟩
        exact List.getElem?_set_self inside

private theorem reaches_scheduleTick (e : Engine) (ticks : List Tick) :
    ∃ ticks', Reaches ⟨e, ticks, []⟩ ⟨e.scheduleTick.1, ticks', []⟩ ∧
      StandsAt ticks.length true ticks' e.scheduleTick.2 := by
  unfold Engine.scheduleTick
  split
  next => exact ⟨ticks, .refl _, by rintro _ _ _ ⟨⟩⟩
  next due read =>
    have scans : perform ⟨e, ticks, []⟩ .scan = ⟨e, ticks ++ [⟨true, due, none⟩], []⟩ := by
      rw [perform, scan, read]
    have here : (ticks ++ [⟨true, due, none⟩])[ticks.length]? = some ⟨true, due, none⟩ :=
      List.getElem?_concat_length
    obtain ⟨ticks', submits, stands⟩ := reaches_submitAll (e := e) here rfl 0
    exact ⟨ticks', (Reaches.step rfl scans).trans submits, stands⟩

private theorem reaches_dispatchTick (e : Engine) (ticks : List Tick) :
    ∃ ticks', Reaches ⟨e, ticks, []⟩ ⟨e.dispatchTick.1, ticks', []⟩ ∧
      StandsAt ticks.length false ticks' e.dispatchTick.2 := by
  unfold Engine.dispatchTick
  split
  next => exact ⟨ticks, .refl _, by rintro _ _ _ ⟨⟩⟩
  next queued queue popped =>
    dsimp only
    split
    next err failed =>
      have looks : perform ⟨e, ticks, []⟩ .look = ⟨{ e with queue := queue }, ticks, []⟩ := by
        rw [perform, look, popped]
        dsimp only
        rw [failed]
        rfl
      exact ⟨ticks, .step rfl looks, by rintro _ _ _ ⟨⟩⟩
    next job read =>
      have looks : perform ⟨e, ticks, []⟩ .look =
          ⟨{ e with queue := queue }, ticks ++ [⟨false, [job], none⟩], []⟩ := by
        rw [perform, look, popped]
        dsimp only
        rw [read]
      have here : (ticks ++ [⟨false, [job], none⟩])[ticks.length]? = some ⟨false, [job], none⟩ :=
        List.getElem?_concat_length
      obtain ⟨ticks', submits, stands⟩ :=
        reaches_submitAll (e := { e with queue := queue }) here rfl 0
      have reaches := (Reaches.step rfl looks).trans submits
      cases submitted : Engine.submit { e with queue := queue } job with
      | mk e₁ submission =>
        rw [Engine.submitAll, submitted] at reaches stands
        cases submission with
        | submitted => exact ⟨ticks', reaches, stands⟩
        | skipped => exact ⟨ticks', reaches, stands⟩
        | failed err => exact ⟨ticks', reaches, by rintro _ _ _ ⟨⟩⟩
        | overflow => exact ⟨ticks', reaches, stands⟩
        | waiting ticket => exact ⟨ticks', reaches, stands⟩

/-- Bringing a tick to its end is a run: it goes on when there is room or is given up. -/
theorem reaches_completeTick (limit fuel : Nat) {t : TickState}
    (stands : StandsAt place isScan ticks t) :
    ∃ ticks', Reaches ⟨e, ticks, []⟩ ⟨(e.completeTick limit fuel t).1, ticks', []⟩ := by
  induction fuel generalizing e ticks t with
  | zero => exact ⟨ticks, .refl _⟩
  | succ fuel ih =>
    cases t with
    | done count => exact ⟨ticks, .refl _⟩
    | failed err => exact ⟨ticks, .refl _⟩
    | overflow => exact ⟨ticks, .refl _⟩
    | paused ticket count due =>
      have here := stands ticket count due rfl
      have waits := reaches_passUntil (fun e => !e.pool.isWaiting ticket) limit
        (2 * e.backlog + 2) e ticks
      unfold Engine.completeTick
      dsimp only
      rw [← Engine.await] at waits
      generalize e.await (fun e => !e.pool.isWaiting ticket) limit = e₁ at waits ⊢
      cases waiting : e₁.pool.isWaiting ticket with
      | true =>
        refine ⟨ticks.eraseIdx place, waits.trans (.step (a := .abandon place) rfl ?_)⟩
        rw [perform]
        unfold abandon
        simp only [here, waiting, if_true]
        rfl
      | false =>
        rw [if_neg Bool.false_ne_true, Engine.resumeTick, waiting, if_neg Bool.false_ne_true]
        obtain ⟨ticks', submits, stands'⟩ := reaches_submitAll (e := e₁) here waiting count
        obtain ⟨ticks'', completes⟩ := ih stands'
        exact ⟨ticks'', waits.trans (submits.trans completes)⟩

/-- A tick that has begun as a run comes to its end as one. -/
theorem reaches_runTick {tick : Engine → Engine × TickState} {ticks₁ : List Tick}
    (begins : Reaches ⟨e, ticks, []⟩ ⟨(tick e).1, ticks₁, []⟩)
    (stands : StandsAt place isScan ticks₁ (tick e).2) (limit : Nat) :
    ∃ ticks', Reaches ⟨e, ticks, []⟩ ⟨(e.runTick tick limit).1, ticks', []⟩ := by
  unfold Engine.runTick
  split
  next e₁ ticket count due paused =>
    rw [paused] at begins stands
    obtain ⟨ticks', completes⟩ := reaches_completeTick (e := e₁) limit (due.length + 1) stands
    exact ⟨ticks', begins.trans completes⟩
  next e₁ t _ done =>
    rw [done] at begins
    exact ⟨ticks₁, begins⟩

theorem reaches_runScan (e : Engine) (ticks : List Tick) (limit : Nat) :
    ∃ ticks', Reaches ⟨e, ticks, []⟩ ⟨(e.runTick Engine.scheduleTick limit).1, ticks', []⟩ := by
  obtain ⟨ticks₁, begins, stands⟩ := reaches_scheduleTick e ticks
  exact reaches_runTick begins stands limit

theorem reaches_runLook (e : Engine) (ticks : List Tick) (limit : Nat) :
    ∃ ticks', Reaches ⟨e, ticks, []⟩ ⟨(e.runTick Engine.dispatchTick limit).1, ticks', []⟩ := by
  obtain ⟨ticks₁, begins, stands⟩ := reaches_dispatchTick e ticks
  exact reaches_runTick begins stands limit

end System

end Rota
