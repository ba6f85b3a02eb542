import Rota.Engine.Scheduler
import Rota.Proofs.Answer
/-! What the loader of a chain gives.
It gives the jobs to which the links lead, if there is room for them. -/
namespace Rota

namespace Store

variable {s : Store} {job : Job} {chain : List Job}

/-- The jobs to which the links lead, from a job to the first that has no link. -/
inductive Path (s : Store) : Job → List Job → Prop
  | last {job : Job} (ends : job.nextJobId = none) : Path s job [job]
  | link {job next : Job} {id : Id} {rest : List Job} (leads : job.nextJobId = some id)
      (read : s.getJob id = .ok next) (behind : Path s next rest) : Path s job (job :: rest)

theorem Path.begins (path : s.Path job chain) : ∃ rest, chain = job :: rest := by
  cases path <;> exact ⟨_, rfl⟩

theorem Path.reads (path : s.Path job chain) : ∀ c ∈ chain.tail, ∃ id, s.getJob id = .ok c := by
  induction path with
  | last => simp
  | link leads read behind ih =>
    obtain ⟨rest, rfl⟩ := behind.begins
    intro c member
    rcases List.mem_cons.mp member with rfl | inside
    · exact ⟨_, read⟩
    · exact ih c inside

end Store

namespace Engine

variable {s : Store} {id next : Id} {room : Nat} {last job j k : Job} {chain rest : List Job}
  {e : StoreError}

theorem loadChain_last (ends : last.nextJobId = none) : loadChain s id room last = .ok [last] := by
  simp [loadChain, ends]

theorem loadChain_full (leads : last.nextJobId = some next) :
    loadChain s id 0 last = .error (.brokenChain id) := by
  simp [loadChain, leads]

theorem loadChain_on (leads : last.nextJobId = some next) (read : s.getJob next = .ok j) :
    loadChain s id (room + 1) last = (loadChain s id room j).map (last :: ·) := by
  simp [loadChain, leads, read, bind, Except.bind, Except.map]

theorem loadChain_off (leads : last.nextJobId = some next) (failed : s.getJob next = .error e) :
    loadChain s id (room + 1) last =
      .error (if e.isNotFound then .brokenChain id else .store e) := by
  simp [loadChain, leads, failed]

theorem path_of_loadChain (loaded : loadChain s id room job = .ok chain) :
    s.Path job chain ∧ chain.length ≤ room + 1 := by
  induction room generalizing job chain with
  | zero =>
    cases leads : job.nextJobId with
    | none =>
      rw [loadChain_last leads] at loaded
      cases loaded
      exact ⟨.last leads, Nat.le_refl _⟩
    | some next =>
      rw [loadChain_full leads] at loaded
      cases loaded
  | succ room ih =>
    cases leads : job.nextJobId with
    | none =>
      rw [loadChain_last leads] at loaded
      cases loaded
      exact ⟨.last leads, by simp⟩
    | some next =>
      cases read : s.getJob next with
      | error e =>
        rw [loadChain_off leads read] at loaded
        cases loaded
      | ok j =>
        rw [loadChain_on leads read] at loaded
        obtain ⟨rest, later, rfl⟩ := ok_of_map loaded
        obtain ⟨path, fits⟩ := ih later
        exact ⟨.link leads read path, Nat.succ_le_succ fits⟩

theorem loadChain_of_path (path : s.Path job chain) (fits : chain.length ≤ room + 1) :
    loadChain s id room job = .ok chain := by
  induction path generalizing room with
  | last ends => exact loadChain_last ends
  | link leads read behind ih =>
    obtain ⟨rest, rfl⟩ := behind.begins
    cases room with
    | zero => simp at fits
    | succ room =>
      rw [loadChain_on leads read, ih (Nat.le_of_succ_le_succ fits)]
      rfl

/-- A chain is what the links lead to, if there is room for it. -/
theorem loadChain_ok_iff : loadChain s id room job = .ok chain ↔
    s.Path job chain ∧ chain.length ≤ room + 1 :=
  ⟨path_of_loadChain, fun ⟨path, fits⟩ => loadChain_of_path path fits⟩

theorem loadChain_cons (loaded : loadChain s id room last = .ok chain) :
    ∃ rest, chain = last :: rest :=
  (path_of_loadChain loaded).1.begins

/-- All jobs of a chain but the first are read from the store. -/
theorem loadChain_read (loaded : loadChain s id room last = .ok (last :: rest)) :
    ∀ c ∈ rest, ∃ cId, s.getJob cId = .ok c :=
  (path_of_loadChain loaded).1.reads

/-- Copies of a job have the same jobs behind them. -/
theorem loadChain_congr (same : j.nextJobId = k.nextJobId)
    (loaded : loadChain s id room j = .ok (j :: rest)) :
    loadChain s id room k = .ok (k :: rest) := by
  obtain ⟨path, fits⟩ := path_of_loadChain loaded
  refine loadChain_of_path ?_ fits
  cases path with
  | last ends => exact .last (same ▸ ends)
  | link leads read behind => exact .link (same ▸ leads) read behind

end Engine

end Rota
