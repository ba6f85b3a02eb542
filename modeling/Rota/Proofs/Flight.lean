import Rota.Proofs.Scheduler
import Rota.Proofs.System
import Mathlib.Data.List.Perm.Basic
/-! What is on its way: works that have been sent and not ended.
A flight is such a work, wherever it is: it waits for room, lies in the channel, is held by a
worker, or one of its jobs runs. Steps of the pool only move flights; their order is of no
concern. -/
namespace Rota

inductive Stage where
  /-- Sent and not begun. -/
  | waiting
  /-- One of its jobs runs. -/
  | running
  /-- One of its jobs has ended and the next has not been started. -/
  | between
deriving DecidableEq

structure Flight where
  stage : Stage
  pipelineId : Option Id
  /-- The record of its pipeline that its worker has, once it is begun. -/
  record : Option Pipeline
  /-- The jobs that have not ended, in the order in which they run. -/
  jobs : List Job

def Flight.headId? (f : Flight) : Option Id := f.jobs.head?.map (·.id)

theorem Flight.headId?_eq {f : Flight} {job : Job} {waiting : List Job}
    (jobs : f.jobs = job :: waiting) : f.headId? = some job.id := by
  simp [headId?, jobs]

def Handover.flight (h : Handover) : Flight := ⟨.waiting, h.work.pipelineId?, none, h.work.jobs⟩

def Execution.flight (x : Execution) : Flight :=
  ⟨.running, x.pipelineId?, x.pipeline, x.current :: x.waiting⟩

def Engine.Interlude.flight (i : Engine.Interlude) : Flight :=
  ⟨.between, i.pipeline.map (·.id), i.pipeline, i.jobs⟩

def Held.flight : Held → Flight
  | .work h => h.flight
  | .rest i => i.flight

def Pool.flights (p : Pool) : List Flight :=
  (p.waiting.map (·.2.flight) ++ p.channel.map Handover.flight) ++ p.executing.map Execution.flight

def System.flights (s : System) : List Flight := s.engine.pool.flights ++ s.held.map Held.flight

theorem perm_eraseIdx {α : Type} {l : List α} {i : Nat} {a : α} (here : l[i]? = some a) :
    l.Perm (a :: l.eraseIdx i) := by
  obtain ⟨lt, rfl⟩ := List.getElem?_eq_some_iff.mp here
  exact (List.getElem_cons_eraseIdx_perm lt).symm

/-! ### At most one of its kind -/

section

variable {α : Type} {l l' : List α} {x : α} {P : α → Prop} [DecidablePred P]

theorem mem_of_fewer (fewer : ∃ gone, l.Perm (gone ++ l')) (member : x ∈ l') : x ∈ l := by
  obtain ⟨gone, perm⟩ := fewer
  exact perm.mem_iff.mpr (List.mem_append_right _ member)

theorem sole_of_fewer (fewer : ∃ gone, l.Perm (gone ++ l'))
    (sole : l.countP (P ·) ≤ 1) : l'.countP (P ·) ≤ 1 := by
  obtain ⟨gone, perm⟩ := fewer
  rw [perm.countP_eq, List.countP_append] at sole
  omega

theorem sole_cons (sole : l.countP (P ·) ≤ 1) (fresh : P x → ∀ y ∈ l, ¬P y) :
    (x :: l).countP (P ·) ≤ 1 := by
  by_cases here : P x
  · have none_ : l.countP (P ·) = 0 := List.countP_eq_zero.mpr (by simpa using fresh here)
    rw [List.countP_cons_of_pos (by simpa using here)]
    omega
  · rwa [List.countP_cons_of_neg (by simpa using here)]

theorem fresh_of_sole (sole : (x :: l).countP (P ·) ≤ 1) (here : P x) :
    ∀ y ∈ l, ¬P y := by
  rw [List.countP_cons_of_pos (by simpa using here)] at sole
  have none_ : l.countP (P ·) = 0 := by omega
  simpa using List.countP_eq_zero.mp none_

end

/-! ### What the pool does with flights -/

namespace Pool

variable {p q : Pool} {h : Handover}

theorem flights_send {answer : Sent} (sent : p.send h = (q, answer)) (accepted : answer ≠ .refused) :
    q.flights.Perm (h.flight :: p.flights) := by
  unfold send at sent
  split at sent
  next =>
    cases sent
    exact absurd rfl accepted
  next =>
    split at sent
    next =>
      cases sent
      simp only [flights, List.map_append, List.map_cons, List.map_nil, ← List.append_assoc]
      exact (List.perm_append_singleton _ _).append_right _
    next =>
      cases sent
      simp only [flights, List.map_append, List.map_cons, List.map_nil, List.append_assoc]
      exact List.perm_middle

theorem flights_take (taken : p.take? = some (h, q)) : p.flights.Perm (h.flight :: q.flights) := by
  unfold take? at taken
  split at taken
  next => cases taken
  next first rest channel nobody =>
    cases taken
    simp only [flights, channel, nobody, List.map_nil, List.nil_append, List.map_cons,
      List.cons_append]
    exact List.Perm.refl _
  next first rest ticket w later channel waits =>
    cases taken
    simp only [flights, channel, waits, List.map_cons, List.map_append, List.map_nil,
      List.cons_append, List.append_assoc]
    refine ((List.perm_middle.cons _).trans (List.Perm.swap _ _ _)).trans (List.Perm.cons _ ?_)
    rw [List.nil_append, ← List.append_assoc, ← List.append_assoc]
    exact List.perm_middle.symm

theorem flights_abandon (p : Pool) (ticket : Nat) :
    ∃ gone, p.flights.Perm (gone ++ (p.abandon ticket).flights) := by
  refine ⟨(p.waiting.filter fun w => !decide (w.1 ≠ ticket)).map (·.2.flight), ?_⟩
  simp only [flights, abandon]
  rw [← List.append_assoc, ← List.append_assoc, ← List.map_append]
  refine (List.Perm.append_right _ (List.Perm.map _ ?_)).append_right _
  exact (List.filter_append_perm _ p.waiting).symm.trans List.perm_append_comm

theorem flights_addExecution (e : Engine) (x : Execution) :
    (e.addExecution x).pool.flights.Perm (x.flight :: e.pool.flights) := by
  simp only [Engine.addExecution, flights, List.map_append, List.map_cons, List.map_nil]
  rw [← List.append_assoc]
  exact List.perm_append_singleton _ _

theorem flights_eraseIdx {place : Nat} {x : Execution} (here : p.executing[place]? = some x) :
    p.flights.Perm (x.flight ::
      { p with executing := p.executing.eraseIdx place }.flights) := by
  refine (((perm_eraseIdx here).map Execution.flight).append_left _).trans ?_
  exact List.perm_middle

end Pool

end Rota
