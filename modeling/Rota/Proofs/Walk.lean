import Rota.Proofs.Coverage
import Rota.Proofs.ReadBack
import Rota.Proofs.Scan
/-! Following links, wherever they lead.
Nothing keeps the links of a table from leading to a job that is not there, or round and round. The
loader follows them over as many jobs as the pipeline has, and no further. -/
namespace Rota

namespace Store

variable {s : Store} {id pipelineId : Id} {n : Nat} {job head last next j : Job}
  {met chain : List Job} {answer : Except EngineError (List Job)}

private theorem getJob_absent (open_ : s.isClosed = false) (absent : s.jobs.get? id = none) :
    s.getJob id = .error (.notFound .job id) := by
  simp [getJob, ensureOpen, open_, absent, bind, Except.bind]

private theorem getJob_deep (open_ : s.isClosed = false) (stored : s.jobs.get? id = some j)
    (deep : maxDepth < j.depth) : s.getJob id = .error .unreadable := by
  have failed : j.reread = .error .unreadable := Job.reread_error_iff.mpr ⟨rfl, deep⟩
  simp [getJob, ensureOpen, open_, stored, failed, bind, Except.bind]

/-- The links lead from a job over the jobs `met` to `last`, which is one of these. -/
inductive Trail (s : Store) : Job → List Job → Job → Prop
  | here (job : Job) : Trail s job [job] job
  | on {job next last : Job} {id : Id} {met : List Job} (leads : job.nextJobId = some id)
      (read : s.getJob id = .ok next) (later : Trail s next met last) :
      Trail s job (job :: met) last

inductive Walk (s : Store) (pipelineId : Id) (n : Nat) (head : Job) :
    Except EngineError (List Job) → Prop
  | ended {chain : List Job} (path : s.Path head chain) (fits : chain.length ≤ n) :
      Walk s pipelineId n head (.ok chain)
  | missing {met : List Job} {last : Job} {id : Id} (trail : s.Trail head met last)
      (fits : met.length < n) (leads : last.nextJobId = some id)
      (absent : s.jobs.get? id = none) : Walk s pipelineId n head (.error (.brokenChain pipelineId))
  | endless {met : List Job} {last : Job} {id : Id} (trail : s.Trail head met last)
      (full : met.length = n) (leads : last.nextJobId = some id) :
      Walk s pipelineId n head (.error (.brokenChain pipelineId))
  /-- The next job is there, and nests too deeply to be read. -/
  | jammed {met : List Job} {last j : Job} {id : Id} (trail : s.Trail head met last)
      (fits : met.length < n) (leads : last.nextJobId = some id)
      (stored : s.jobs.get? id = some j) (deep : maxDepth < j.depth) :
      Walk s pipelineId n head (.error (.store .unreadable))

private theorem Trail.length_pos (trail : s.Trail job met last) : 0 < met.length := by
  cases trail <;> simp

private theorem Walk.on (leads : job.nextJobId = some id) (read : s.getJob id = .ok next)
    (walk : s.Walk pipelineId n next answer) :
    s.Walk pipelineId (n + 1) job (answer.map (job :: ·)) := by
  cases walk with
  | ended path fits => exact .ended (.link leads read path) (Nat.succ_le_succ fits)
  | missing trail fits leads' absent =>
    exact .missing (.on leads read trail) (Nat.succ_lt_succ fits) leads' absent
  | endless trail full leads' => exact .endless (.on leads read trail) (congrArg _ full) leads'
  | jammed trail fits leads' stored deep =>
    exact .jammed (.on leads read trail) (Nat.succ_lt_succ fits) leads' stored deep

theorem Path.links (indexed : s.Indexed) (path : s.Path job chain)
    (stored : s.getJob job.id = .ok job) : s.Links chain := by
  induction path with
  | last ends =>
    intro i j here
    cases i with
    | zero => cases here; exact ⟨stored, ends⟩
    | succ i => cases here
  | link leads read behind ih =>
    obtain ⟨key, _⟩ := indexed.getJob read
    obtain ⟨rest, rfl⟩ := behind.begins
    intro i j here
    cases i with
    | zero => cases here; exact ⟨stored, by simpa [key] using leads⟩
    | succ i => exact ih (key ▸ read) i j here

end Store

namespace Engine

variable {s : Store} {id : Id} {room : Nat} {job head last : Job} {met : List Job}
  {answer : Except EngineError (List Job)}

/-- As long as it has room the loader goes where the links lead. -/
theorem loadChain_trail (trail : s.Trail job met last) (fits : met.length ≤ room + 1) :
    loadChain s id room job =
      (loadChain s id (room + 1 - met.length) last).map (met.dropLast ++ ·) := by
  induction trail generalizing room with
  | here job =>
    show _ = (loadChain s id room job).map ([] ++ ·)
    cases loadChain s id room job <;> rfl
  | @on job next last jobId met leads read later ih =>
    have some_ := later.length_pos
    obtain ⟨room, rfl⟩ : ∃ less, room = less + 1 := ⟨room - 1, by simp at fits; omega⟩
    rw [loadChain_on leads read, ih (Nat.le_of_succ_le_succ fits), List.length_cons,
      Nat.add_sub_add_right, List.dropLast_cons_of_ne_nil (List.length_pos_iff.mp some_)]
    cases loadChain s id (room + 1 - met.length) last <;> rfl

private theorem loadChain_of_walk (open_ : s.isClosed = false)
    (walk : s.Walk id (room + 1) head answer) :
    loadChain s id room head = answer := by
  have left {met : List Job} (fits : met.length < room + 1) :
      room + 1 - met.length = room - met.length + 1 :=
    Nat.succ_sub (Nat.le_of_lt_succ fits)
  cases walk with
  | ended path fits => exact loadChain_ok_iff.mpr ⟨path, fits⟩
  | missing trail fits leads absent =>
    rw [loadChain_trail trail (Nat.le_of_lt fits), left fits,
      loadChain_off leads (Store.getJob_absent open_ absent)]
    rfl
  | endless trail full leads =>
    rw [loadChain_trail trail (Nat.le_of_eq full), full, Nat.sub_self, loadChain_full leads]
    rfl
  | jammed trail fits leads stored deep =>
    rw [loadChain_trail trail (Nat.le_of_lt fits), left fits,
      loadChain_off leads (Store.getJob_deep open_ stored deep)]
    rfl

private theorem walk_loadChain (open_ : s.isClosed = false) (id : Id) (room : Nat) (head : Job) :
    s.Walk id (room + 1) head (loadChain s id room head) := by
  induction room generalizing head with
  | zero =>
    cases leads : head.nextJobId with
    | none => exact loadChain_last leads ▸ .ended (.last leads) (Nat.le_refl _)
    | some next => exact loadChain_full leads ▸ .endless (.here head) rfl leads
  | succ room ih =>
    cases leads : head.nextJobId with
    | none => exact loadChain_last leads ▸ .ended (.last leads) (by simp)
    | some next =>
      cases stored : s.jobs.get? next with
      | none =>
        rw [loadChain_off leads (Store.getJob_absent open_ stored)]
        exact .missing (.here head) (by simp) leads stored
      | some row =>
        by_cases shallow : row.depth ≤ maxDepth
        · obtain ⟨j, rereads⟩ := Job.reread_ok_iff.mpr shallow
          have read := Store.getJob_of_reread open_ stored rereads
          exact loadChain_on leads read ▸ (ih j).on leads read
        · have deep := Nat.lt_of_not_le shallow
          rw [loadChain_off leads (Store.getJob_deep open_ stored deep)]
          exact .jammed (.here head) (by simp) leads stored deep

end Engine

/-- What the loader does, apart from the store: it has an answer, or it reads a job and goes on with
what it gets. -/
inductive Loading where
  | finished (answer : Except EngineError (List Job))
  | reading (id : Id) (resume : Except StoreError Job → Loading)

namespace Loading

def run (s : Store) : Loading → List Id × Except EngineError (List Job)
  | finished answer => ([], answer)
  | reading id resume =>
    let (later, answer) := (resume (s.getJob id)).run s
    (id :: later, answer)

def follow (pipelineId : Id) (expected : Nat) (front : List Job) (last : Job) : Loading :=
  match last.nextJobId with
  | none => finished (.ok (front ++ [last]))
  | some id =>
    if expected ≤ front.length + 1 then finished (.error (.brokenChain pipelineId))
    else reading id fun
      | .ok next => follow pipelineId expected (front ++ [last]) next
      | .error e => finished (.error (if e.isNotFound then .brokenChain pipelineId else .store e))
termination_by expected - front.length
decreasing_by simp; omega

/-- The loader reads one job less than it may give, and what it gives depends on nothing else. -/
theorem run_follow (s : Store) (id : Id) (expected : Nat) (front : List Job) (last : Job) :
    ((follow id expected front last).run s).1.length ≤ expected - (front.length + 1) ∧
      ((follow id expected front last).run s).2 =
        (Engine.loadChain s id (expected - (front.length + 1)) last).map (front ++ ·) := by
  -- The room that is left goes down by one job with each that is read.
  generalize left : expected - (front.length + 1) = room
  induction room generalizing front last with
  | zero =>
    have full : expected ≤ front.length + 1 := Nat.le_of_sub_eq_zero left
    unfold follow
    cases leads : last.nextJobId with
    | none => simp [run, Engine.loadChain_last leads, Except.map]
    | some next => simp [run, full, Engine.loadChain_full leads, Except.map]
  | succ room ih =>
    have free : ¬expected ≤ front.length + 1 := by omega
    unfold follow
    cases leads : last.nextJobId with
    | none => simp [run, Engine.loadChain_last leads, Except.map]
    | some next =>
      cases read : s.getJob next with
      | error e => simp [run, free, read, Engine.loadChain_off leads read, Except.map]
      | ok j =>
        obtain ⟨few, same⟩ := ih (front ++ [last]) j (by simp; omega)
        simp only [run, free, if_false, read]
        refine ⟨Nat.succ_le_succ few, same.trans ?_⟩
        rw [Engine.loadChain_on leads read]
        cases Engine.loadChain s id room j <;> simp [Except.map]

end Loading

namespace Engine

variable {s : Store} {n : Nat} {head : Job}

/-- Whatever the links of the jobs, the loader ends after `n - 1` reads at most, with what the walk
along the links comes to. A chain that it gives has no job twice. -/
theorem loadChain_exact (indexed : s.Indexed) (stored : s.getJob head.id = .ok head)
    (counted : 1 ≤ n) (id : Id) :
    (((Loading.follow id n [] head).run s).1.length ≤ n - 1 ∧
      ((Loading.follow id n [] head).run s).2 = loadChain s id (n - 1) head) ∧
    (∀ answer, loadChain s id (n - 1) head = answer ↔ s.Walk id n head answer) ∧
    ∀ chain, loadChain s id (n - 1) head = .ok chain →
      chain.head? = some head ∧ (chain.map (·.id)).Nodup ∧ s.Links chain := by
  obtain ⟨room, rfl⟩ : ∃ room, n = room + 1 := ⟨n - 1, (Nat.sub_add_cancel counted).symm⟩
  have open_ := Store.isClosed_of_getJob stored
  rw [Nat.add_sub_cancel]
  refine ⟨?_, fun answer => ⟨?_, loadChain_of_walk open_⟩, fun chain loaded => ?_⟩
  · obtain ⟨few, same⟩ := Loading.run_follow s id (room + 1) [] head
    refine ⟨few, same.trans ?_⟩
    rw [List.length_nil, Nat.zero_add, Nat.add_sub_cancel]
    cases loadChain s id room head <;> rfl
  · rintro rfl
    exact walk_loadChain open_ id room head
  · have path := (loadChain_ok_iff.mp loaded).1
    have agrees : s.Agrees head := by
      intro j found
      obtain ⟨_, row, here, origin⟩ := indexed.getJob stored
      cases here.symm.trans found
      exact origin
    obtain ⟨rest, same⟩ := path.begins
    exact ⟨by rw [same]; rfl, path.nodup indexed agrees, path.links indexed stored⟩

/-- Two steps that lead to the end, and the same two where the second leads back to the first. -/
theorem loadChain_exact_withSteps :
    let s := (withSteps []).store
    let ring := (withSteps [.updateJob (dueStep (.issued 2) 1 (some (.issued 1)))]).store
    (s.Indexed ∧ s.getJob firstStep.id = .ok firstStep ∧ 1 ≤ 2 ∧
      ((Loading.follow (.issued 0) 2 [] firstStep).run s).1.length ≤ 1 ∧
      s.Walk (.issued 0) 2 firstStep (.ok [firstStep, lastStep]) ∧
      s.Links [firstStep, lastStep]) ∧
    ring.Indexed ∧ ring.getJob firstStep.id = .ok firstStep ∧
      ((Loading.follow (.issued 0) 2 [] firstStep).run ring).1.length ≤ 1 ∧
      ring.Walk (.issued 0) 2 firstStep (.error (.brokenChain (.issued 0))) := by
  intro s ring
  have indexed : s.Indexed := indexed_withSteps (by simp)
  have indexed' : ring.Indexed := indexed_withSteps (by simp [Operation.IsSound])
  have two : 1 ≤ 2 := by decide
  obtain ⟨⟨few, _⟩, walks, chains⟩ :=
    loadChain_exact indexed (by rfl : s.getJob firstStep.id = .ok firstStep) two (.issued 0)
  obtain ⟨⟨few', _⟩, walks', _⟩ :=
    loadChain_exact indexed' (by rfl : ring.getJob firstStep.id = .ok firstStep) two (.issued 0)
  exact ⟨⟨indexed, by rfl, two, few, (walks _).mp (by rfl), (chains _ (by rfl)).2.2⟩, indexed',
    by rfl, few', (walks' _).mp (by rfl)⟩

end Engine

end Rota
