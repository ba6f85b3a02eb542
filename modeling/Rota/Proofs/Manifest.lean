import Rota.Manifest
import Rota.Proofs.Admitted
/-! Applying a manifest.
The entries are created one after the other until one is rejected. Each that runs at once takes a
place in the queue from those behind it, so it depends on its place in the manifest whether an entry
is accepted. What was created before a rejection stays, and the rejected entry leaves nothing. -/
namespace Rota

inductive Manifest.Entry where
  | job (r : CreateJob)
  | pipeline (r : CreatePipeline)

namespace Manifest.Entry

def call : Entry → Call
  | job r => .createJob r
  | pipeline r => .createPipeline r

def runNow : Entry → Bool
  | job r => r.runNow
  | pipeline r => r.runNow

def ids : Entry → Nat
  | job _ => 1
  | pipeline r => r.jobs.length + 1

def rejection (err : AdmissionError) : Entry → Rejection
  | job r => .job r.name err
  | pipeline r => .pipeline r.name err

/-- What the entry has to say, and the engine to have. -/
def Valid (e : Engine) : Entry → Prop
  | job r => r.Valid e
  | pipeline r => r.Valid e

end Manifest.Entry

open Manifest (Entry)

def Reply.jobs : Reply → List Job
  | .job j => [j]
  | .pipeline p => p.jobs
  | _ => []

def Reply.pipelines : Reply → List Pipeline
  | .pipeline p => [p]
  | _ => []

def Manifest.Entry.queued (x : Entry) (a : Reply) : List Job :=
  if x.runNow then a.jobs.head?.toList else []

@[simp] theorem Manifest.Entry.queued_job (r : CreateJob) (j : Job) :
    (Entry.job r).queued (.job j) = if r.runNow then [j] else [] := rfl

@[simp] theorem Manifest.Entry.queued_pipeline (r : CreatePipeline) (p : Pipeline) :
    (Entry.pipeline r).queued (.pipeline p) = if r.runNow then p.jobs.head?.toList else [] := rfl

namespace Engine

variable {e e' : Engine} {x : Entry} {xs : List Entry} {a : Reply} {answers : List Reply}
  {err : AdmissionError}

/-- The entries are created one after the other, with these answers. -/
inductive Admits : Engine → List Entry → List Reply → Engine → Prop
  | nil (e : Engine) : Admits e [] [] e
  | cons {e between e' : Engine} {x : Entry} {xs : List Entry} {a : Reply} {answers : List Reply}
      (accepted : e.call x.call = (between, .ok a)) (later : Admits between xs answers e') :
      Admits e (x :: xs) (a :: answers) e'

/-- The engine with what was created for the entries behind what it has. -/
def gain (e : Engine) (xs : List Entry) (answers : List Reply) : Engine :=
  { e with
    issued := e.issued + (xs.map Entry.ids).sum
    store := { e.store with
      jobs := ⟨e.store.jobs.rows ++ (answers.flatMap Reply.jobs).map fun j => (j.id, j)⟩
      pipelines := ⟨e.store.pipelines.rows ++ (answers.flatMap Reply.pipelines).map fun p =>
        (p.id, ⟨{ p with jobs := [] }, p.jobs.map (·.id)⟩)⟩ }
    queue := { e.queue with
      jobs := e.queue.jobs ++ (List.zipWith Entry.queued xs answers).flatten } }

def reserving (e : Engine) (places : Nat) : Engine :=
  { e with queue := { e.queue with capacity := e.queue.capacity - places } }

private theorem hasRoom_reserving_iff {places : Nat} : (e.reserving places).queue.HasRoom ↔
    e.queue.isClosed = false ∧ e.queue.length + places < e.queue.capacity := by
  have fewer : e.queue.length < e.queue.capacity - places ↔
      e.queue.length + places < e.queue.capacity := by omega
  exact and_congr_right fun _ => fewer

private theorem gain_nil (e : Engine) : e.gain [] [] = e := by
  simp [gain]

private theorem gain_cons (e : Engine) (x : Entry) (xs : List Entry) (a : Reply)
    (answers : List Reply) :
    (e.gain [x] [a]).gain xs answers = e.gain (x :: xs) (a :: answers) := by
  simp [gain, Nat.add_assoc]

/-! ### One entry -/

private theorem issued_call (e : Engine) (x : Entry) :
    (e.call x.call).1.issued = e.issued + x.ids := by
  cases x with
  | job r => exact System.issued_createJob e r
  | pipeline r => exact System.issued_createPipeline e r

private theorem call_refused (numbered : e.store.Numbered e.issued)
    (distinct : Id.Distinct (e.issued + x.ids)) (failed : (e.call x.call).2 = .error err) :
    (e.call x.call).1 = { e with issued := e.issued + x.ids } := by
  cases x with
  | job r =>
    have done := createJob_created e r
    rw [error_of_map failed] at done
    show (e.createJob r).1 = _
    generalize (e.createJob r).1 = e' at done
    cases done with
    | refused => rfl
    | undone _ j key =>
      have fresh := key ▸ distinct.fresh (Nat.le_refl e.issued) (Nat.lt_succ_self _)
      rw [Store.withoutJob_withJob numbered fresh]
      rfl
  | pipeline r =>
    have done := createPipeline_created e r
    rw [error_of_map failed] at done
    show (e.createPipeline r).1 = _
    generalize (e.createPipeline r).1 = e' at done
    cases done with
    | refused => rfl
    | undone _ p isNew length =>
      have fresh := isNew.key ▸ distinct.fresh (Nat.le_refl e.issued) (by simp [Entry.ids])
      have freshJobs := fresh_jobs isNew (length ▸ distinct) (Nat.le_refl _)
      rw [Store.withoutPipeline_withPipeline numbered fresh freshJobs]
      rfl

private theorem call_accepted (numbered : e.store.Numbered e.issued)
    (distinct : Id.Distinct (e.issued + x.ids)) (answer : (e.call x.call).2 = .ok a) :
    (e.call x.call).1 = e.gain [x] [a] := by
  cases x with
  | job r =>
    obtain ⟨j, created, rfl⟩ := ok_of_map answer
    obtain ⟨_, _, _, rfl, after⟩ := createJob_ok created
    have put : e.store.jobs.put j.id j = ⟨e.store.jobs.rows ++ [(j.id, j)]⟩ :=
      congrArg Table.mk (Table.rows_put_absent j (createJob_added numbered distinct created).absent)
    refine after.trans ?_
    simp [gain, Store.withJob, put, Entry.ids, Reply.jobs, Reply.pipelines]
  | pipeline r =>
    obtain ⟨p, created, rfl⟩ := ok_of_map answer
    obtain ⟨_, _, _, isNew, length, rfl, after⟩ := createPipeline_ok created
    have added := createPipeline_added numbered distinct created
    have putJobs : Store.putJobs e.store.jobs p.jobs =
        ⟨e.store.jobs.rows ++ p.jobs.map fun j => (j.id, j)⟩ :=
      congrArg Table.mk (Store.rows_putJobs (nodup_ids isNew (length ▸ distinct)) added.absentJobs)
    have put (row : PipelineRow) : e.store.pipelines.put p.id row =
        ⟨e.store.pipelines.rows ++ [(p.id, row)]⟩ :=
      congrArg Table.mk (Table.rows_put_absent row added.absent)
    refine after.trans ?_
    simp [gain, Store.withPipeline, putJobs, put, Entry.ids, Reply.jobs,
      Reply.pipelines, Nat.add_assoc]

/-- Each answer has a job to run first. -/
theorem jobs_of_call (answer : (e.call x.call).2 = .ok a) : a.jobs ≠ [] := by
  cases x with
  | job r =>
    obtain ⟨j, _, rfl⟩ := ok_of_map answer
    exact List.cons_ne_nil _ _
  | pipeline r =>
    obtain ⟨p, created, rfl⟩ := ok_of_map answer
    obtain ⟨_, _, _, isNew, _⟩ := createPipeline_ok created
    exact List.length_pos_iff.mp (Nat.lt_of_lt_of_le Nat.zero_lt_two isNew.several)

private theorem call_accepts_iff (open_ : e.store.isClosed = false) :
    (∃ a, (e.call x.call).2 = .ok a) ↔ x.Valid e := by
  have mapped {α : Type} {f : α → Reply} {answer : Except AdmissionError α} :
      (∃ a, answer.map f = .ok a) ↔ ∃ v, answer = .ok v := by
    cases answer <;> simp [Except.map]
  cases x with
  | job r => exact mapped.trans (createJob_accepts_iff open_)
  | pipeline r => exact mapped.trans (createPipeline_accepts_iff open_)

private theorem valid_of_eq (now : e'.now = e.now) (registry : e'.registry = e.registry)
    (room : e.queue.HasRoom → e'.queue.HasRoom) (valid : x.Valid e) : x.Valid e' := by
  cases x with
  | job r =>
    obtain ⟨runTime, job, has⟩ := valid
    exact ⟨now ▸ runTime, registry ▸ job, fun runs => room (has runs)⟩
  | pipeline r =>
    obtain ⟨runTime, named, several, steps, recurs, has⟩ := valid
    exact ⟨now ▸ runTime, named, several, registry ▸ steps, recurs, fun runs => room (has runs)⟩

/-- Of the queue it matters only whether it has room. -/
theorem valid_congr (now : e'.now = e.now) (registry : e'.registry = e.registry)
    (room : e'.queue.HasRoom ↔ e.queue.HasRoom) : x.Valid e' ↔ x.Valid e :=
  ⟨valid_of_eq now.symm registry.symm room.mp, valid_of_eq now registry room.mpr⟩

/-! ### All entries -/

theorem Admits.issued (admits : e.Admits xs answers e') :
    e'.issued = e.issued + (xs.map Entry.ids).sum := by
  induction admits with
  | nil => rfl
  | @cons e between e' x xs a answers accepted _ ih =>
    have first := issued_call e x
    rw [accepted] at first
    rw [ih, first, List.map_cons, List.sum_cons, Nat.add_assoc]

/-- Before an entry that was created, those in front of it were. -/
theorem Admits.upTo {i : Nat} (admits : e.Admits xs answers e') (here : xs[i]? = some x) :
    ∃ before between a, e.Admits (xs.take i) before between ∧
      (between.call x.call).2 = .ok a ∧ between.issued ≤ e'.issued := by
  induction admits generalizing i with
  | nil => cases here
  | @cons e between e' y xs a answers accepted later ih =>
    cases i with
    | zero =>
      cases here
      refine ⟨[], e, a, .nil e, congrArg Prod.snd accepted, ?_⟩
      rw [(Admits.cons accepted later).issued]
      exact Nat.le_add_right _ _
    | succ i =>
      obtain ⟨before, here, answer, front, behind⟩ := ih here
      exact ⟨a :: before, here, answer, .cons accepted front, behind⟩

/-- Every entry that runs at once has taken a place. -/
theorem Admits.queued (admits : e.Admits xs answers e') :
    (List.zipWith Entry.queued xs answers).flatten.length = xs.countP Entry.runNow := by
  induction admits with
  | nil => rfl
  | @cons e between e' x xs a answers accepted _ ih =>
    obtain ⟨head, later, jobs⟩ :=
      List.exists_cons_of_ne_nil (jobs_of_call (congrArg Prod.snd accepted))
    rw [List.zipWith_cons_cons, List.flatten_cons, List.length_append, ih, List.countP_cons,
      Entry.queued, jobs, Nat.add_comm]
    cases x.runNow <;> rfl

/-- An entry is accepted behind others if it is valid with as many places taken as run at once of
these. -/
theorem Admits.accepts_iff (admits : e.Admits xs answers (e.gain xs answers))
    (open_ : e.store.isClosed = false) :
    (∃ a, ((e.gain xs answers).call x.call).2 = .ok a) ↔
      x.Valid (e.reserving (xs.countP Entry.runNow)) := by
  have accepts : (∃ a, ((e.gain xs answers).call x.call).2 = .ok a) ↔ x.Valid (e.gain xs answers) :=
    call_accepts_iff open_
  have long : (e.gain xs answers).queue.length = e.queue.length + xs.countP Entry.runNow := by
    rw [← admits.queued]
    exact List.length_append
  refine accepts.trans (valid_congr rfl rfl ?_)
  rw [hasRoom_reserving_iff, JobQueue.HasRoom, long]
  rfl

end Engine

namespace Manifest

variable {m : Manifest} {e e' : Engine}

def admitAll (e : Engine) : List Entry → Engine × Except Rejection Unit
  | [] => (e, .ok ())
  | x :: rest =>
    match e.call x.call with
    | (e, .ok _) => admitAll e rest
    | (e, .error err) => (e, .error (x.rejection err))

private theorem admitJobs_eq (e : Engine) (rs : List CreateJob) :
    admitJobs e rs = admitAll e (rs.map .job) := by
  induction rs generalizing e with
  | nil => rfl
  | cons r rest ih =>
    rcases created : e.createJob r with ⟨between, err | j⟩ <;>
      simp [admitJobs, admitAll, Entry.call, Engine.call, created, Except.map, ih, Entry.rejection]

private theorem admitPipelines_eq (e : Engine) (rs : List CreatePipeline) :
    admitPipelines e rs = admitAll e (rs.map .pipeline) := by
  induction rs generalizing e with
  | nil => rfl
  | cons r rest ih =>
    rcases created : e.createPipeline r with ⟨between, err | p⟩ <;>
      simp [admitPipelines, admitAll, Entry.call, Engine.call, created, Except.map, ih,
        Entry.rejection]

private theorem admitAll_append (e : Engine) (xs ys : List Entry) : admitAll e (xs ++ ys) =
    match admitAll e xs with
    | (e, .ok ()) => admitAll e ys
    | (e, .error err) => (e, .error err) := by
  induction xs generalizing e with
  | nil => rfl
  | cons x rest ih =>
    rcases called : e.call x.call with ⟨between, err | a⟩ <;>
      simp [admitAll, called, ih]

def entries (m : Manifest) : List Entry := m.jobs.map .job ++ m.pipelines.map .pipeline

/-- How many of the first `i` entries run at once. -/
def ahead (m : Manifest) (i : Nat) : Nat := (m.entries.take i).countP Entry.runNow

private theorem apply_eq (m : Manifest) (e : Engine) : m.apply e =
    match admitAll e m.entries with
    | (e, .error err) => (e, .error err)
    | (e, .ok ()) => (e, .ok (m.jobs.length, m.pipelines.length)) := by
  rw [apply, entries, admitAll_append, ← admitJobs_eq]
  rcases admitJobs e m.jobs with ⟨between, err | done⟩
  · rfl
  · rcases pipelines : admitPipelines between m.pipelines with ⟨last, err | done⟩ <;>
      simp [← admitPipelines_eq, pipelines]

private theorem admitAll_cases (e : Engine) (xs : List Entry) :
    (∃ answers e', e.Admits xs answers e' ∧ admitAll e xs = (e', .ok ())) ∨
    ∃ k x answers between e' err, xs[k]? = some x ∧ e.Admits (xs.take k) answers between ∧
      between.call x.call = (e', .error err) ∧ admitAll e xs = (e', .error (x.rejection err)) := by
  induction xs generalizing e with
  | nil => exact Or.inl ⟨[], e, .nil e, rfl⟩
  | cons x rest ih =>
    rcases called : e.call x.call with ⟨between, err | a⟩
    · exact Or.inr ⟨0, x, [], e, between, err, rfl, .nil e, called, by simp [admitAll, called]⟩
    · have same : admitAll e (x :: rest) = admitAll between rest := by simp [admitAll, called]
      rcases ih between with ⟨answers, e', admits, all⟩ |
        ⟨k, y, answers, before, e', err, here, admits, refused, stops⟩
      · exact Or.inl ⟨a :: answers, e', .cons called admits, same.trans all⟩
      · exact Or.inr ⟨k + 1, y, a :: answers, before, e', err, here, .cons called admits, refused,
          same.trans stops⟩

/-- How a manifest is applied: the entries up to the first that is not valid are created, and this
one leaves nothing but identifiers that are not used. -/
inductive Applied (m : Manifest) (e : Engine) : Engine × Except Rejection (Nat × Nat) → Prop
  | whole {answers : List Reply} (admits : e.Admits m.entries answers (e.gain m.entries answers))
      (valid : ∀ i (x : Entry), m.entries[i]? = some x → x.Valid (e.reserving (m.ahead i))) :
      Applied m e (e.gain m.entries answers, .ok (m.jobs.length, m.pipelines.length))
  | stopped {k : Nat} {x : Entry} {answers : List Reply} {e' : Engine} {err : AdmissionError}
      (first : m.entries[k]? = some x)
      (admits : e.Admits (m.entries.take k) answers (e.gain (m.entries.take k) answers))
      (valid : ∀ i (y : Entry), i < k → m.entries[i]? = some y → y.Valid (e.reserving (m.ahead i)))
      (invalid : ¬x.Valid (e.reserving (m.ahead k)))
      (refused : (e.gain (m.entries.take k) answers).call x.call = (e', .error err))
      (nothing : e' = { e.gain (m.entries.take k) answers with issued := e'.issued }) :
      Applied m e (e', .error (x.rejection err))

/-- The manifest is applied in full if every entry is valid where it stands. -/
theorem Applied.ok_iff {result : Engine × Except Rejection (Nat × Nat)}
    (applied : m.Applied e result) (counts : Nat × Nat) :
    result.2 = .ok counts ↔ counts = (m.jobs.length, m.pipelines.length) ∧
      ∀ i (x : Entry), m.entries[i]? = some x → x.Valid (e.reserving (m.ahead i)) := by
  cases applied with
  | whole _ valid =>
    constructor
    · rintro ⟨⟩
      exact ⟨rfl, valid⟩
    · rintro ⟨rfl, _⟩
      rfl
  | stopped first _ _ invalid =>
    refine iff_of_false nofun ?_
    rintro ⟨_, valid⟩
    exact invalid (valid _ _ first)

end Manifest

namespace System
open Manifest

variable {s : System} {now : Instant} {registry : Registry} {queueCapacity : Nat} {unit : TimeUnit}
  {workers poolCapacity : Nat} {actions : List Action} {e e' : Engine} {xs : List Entry}
  {answers : List Reply}

/-- What was created before is reached by a run too, and it is all behind what was there. -/
theorem gain_of_admits (made : new? now registry queueCapacity unit workers poolCapacity = some s)
    (reached : (s.run actions).engine = e) (admits : e.Admits xs answers e')
    (distinct : Id.Distinct e'.issued) :
    e' = e.gain xs answers ∧ ∃ more, (s.run more).engine = e' := by
  -- The identifiers of each entry are new because a run has issued those before them.
  induction admits generalizing actions with
  | nil e => exact ⟨(Engine.gain_nil e).symm, actions, reached⟩
  | @cons e between e' x xs a answers accepted later ih =>
    have issued : between.issued = e.issued + x.ids := by
      rw [← Engine.issued_call e x, accepted]
    have few : Id.Distinct between.issued := distinct.mono (by rw [later.issued]; omega)
    have known : Id.Distinct (s.run actions).engine.issued := few.mono (by rw [reached]; omega)
    have numbered : e.store.Numbered e.issued := reached ▸ (accounted_run made known).numbered
    have next : (s.run (actions ++ [x.call.action])).engine = between := by
      rw [run_append, run_cons, run_nil, perform_call, reached, accepted]
      rfl
    obtain ⟨rfl, more⟩ := ih next distinct
    have grown := Engine.call_accepted numbered (issued ▸ few) (congrArg Prod.snd accepted)
    refine ⟨?_, more⟩
    rw [← Engine.gain_cons, ← grown, accepted]

/-- What was created was valid where it stands. -/
theorem valid_of_admits (made : new? now registry queueCapacity unit workers poolCapacity = some s)
    (reached : (s.run actions).engine = e) (open_ : e.store.isClosed = false)
    (admits : e.Admits xs answers e') (distinct : Id.Distinct e'.issued) {i : Nat} {x : Entry}
    (here : xs[i]? = some x) : x.Valid (e.reserving ((xs.take i).countP Entry.runNow)) := by
  obtain ⟨before, between, a, front, accepted, le⟩ := admits.upTo here
  obtain ⟨rfl, _⟩ := gain_of_admits made reached front (distinct.mono le)
  exact (front.accepts_iff open_).mp ⟨a, accepted⟩

/-- In every reachable state with an open store a manifest is applied up to the first entry that is
not valid with the places in the queue that the entries before it have left. -/
theorem apply_exact (made : new? now registry queueCapacity unit workers poolCapacity = some s)
    (m : Manifest) (open_ : (s.run actions).engine.store.isClosed = false)
    (distinct : Id.Distinct (m.apply (s.run actions).engine).1.issued) :
    m.Applied (s.run actions).engine (m.apply (s.run actions).engine) ∧
    ∀ counts, (m.apply (s.run actions).engine).2 = .ok counts ↔
      counts = (m.jobs.length, m.pipelines.length) ∧ ∀ i (x : Entry), m.entries[i]? = some x →
        x.Valid ((s.run actions).engine.reserving (m.ahead i)) := by
  suffices applied : m.Applied (s.run actions).engine (m.apply (s.run actions).engine) from
    ⟨applied, applied.ok_iff⟩
  generalize reached : (s.run actions).engine = e at *
  rw [apply_eq] at distinct ⊢
  rcases admitAll_cases e m.entries with ⟨answers, e', admits, all⟩ |
    ⟨k, x, answers, between, e', err, first, admits, refused, stops⟩
  · rw [all] at distinct ⊢
    obtain ⟨rfl, _⟩ := gain_of_admits made reached admits distinct
    exact .whole admits fun i x here => valid_of_admits made reached open_ admits distinct here
  · rw [stops] at distinct ⊢
    have issued : e'.issued = between.issued + x.ids := by
      rw [← Engine.issued_call between x, refused]
    have few : Id.Distinct between.issued := distinct.mono (by dsimp only; omega)
    obtain ⟨rfl, more, reached'⟩ := gain_of_admits made reached admits few
    refine .stopped first admits (fun i y lt here => ?_) (fun valid => ?_) refused ?_
    · have valid := valid_of_admits made reached open_ admits few
        ((List.getElem?_take_of_lt lt).trans here)
      rwa [List.take_take, Nat.min_eq_left (Nat.le_of_lt lt)] at valid
    · obtain ⟨a, accepted⟩ := (admits.accepts_iff open_).mpr valid
      rw [refused] at accepted
      cases accepted
    · have numbered := (accounted_run made (reached' ▸ few)).numbered
      rw [reached'] at numbered
      have undone := Engine.call_refused numbered (issued ▸ distinct) (congrArg Prod.snd refused)
      rw [refused] at undone
      rw [issued]
      exact undone

def errand (runNow : Bool) : CreateJob :=
  ⟨"errand", none, "noop", [], 0, none, runNow, false, ⟨none, false⟩⟩

def fitting : Manifest :=
  ⟨[errand true, errand false, errand true, errand true],
    [exampleRequest, { exampleRequest with runNow := false }]⟩

def crowded : Manifest :=
  { fitting with pipelines := fitting.pipelines ++ [exampleRequest, fortnightly] }

/-- The queue of the engine has four places. -/
theorem apply_exact_crowded :
    start.engine.store.isClosed = false ∧
    Id.Distinct (fitting.apply start.engine).1.issued ∧
    (fitting.apply start.engine).2 = .ok (4, 2) ∧
    (∀ i (x : Entry), fitting.entries[i]? = some x →
      x.Valid (start.engine.reserving (fitting.ahead i))) ∧
    Id.Distinct (crowded.apply start.engine).1.issued ∧
    crowded.Applied start.engine (crowded.apply start.engine) ∧
    (crowded.apply start.engine).2.mapError Rejection.fullMessage = .error
      "Pipeline 'report' was rejected: job queue is full (capacity 4), try again later" ∧
    ¬∀ i (x : Entry), crowded.entries[i]? = some x →
      x.Valid (start.engine.reserving (crowded.ahead i)) := by
  have open_ : (start.run []).engine.store.isClosed = false := rfl
  have few : Id.Distinct (fitting.apply (start.run []).engine).1.issued :=
    Id.distinct_of_le (by decide +kernel)
  have few' : Id.Distinct (crowded.apply (start.run []).engine).1.issued :=
    Id.distinct_of_le (by decide +kernel)
  obtain ⟨_, counts⟩ := apply_exact new_start fitting open_ few
  obtain ⟨applied, counts'⟩ := apply_exact new_start crowded open_ few'
  obtain ⟨_, all, rfl⟩ := ok_of_toOption (show (fitting.apply start.engine).2.toOption.map id =
    some (4, 2) by decide +kernel)
  have full : (crowded.apply start.engine).2.mapError Rejection.fullMessage = .error
      "Pipeline 'report' was rejected: job queue is full (capacity 4), try again later" := by
    decide +kernel
  refine ⟨rfl, few, all, ((counts _).mp all).2, few', applied, full, fun valid => ?_⟩
  have ok : (crowded.apply start.engine).2 = .ok (4, 4) := (counts' _).mpr ⟨rfl, valid⟩
  rw [ok] at full
  cases full

end System

end Rota
