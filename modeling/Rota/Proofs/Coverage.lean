import Rota.Proofs.Operations
import Rota.Proofs.Rearmed
/-! What the work of a pipeline covers.
The links lead from the first job to the jobs that run behind it, whatever the table holds. A chain
is taken when it has as many jobs as the pipeline, so a chain that leads to a job of another
pipeline, or of none, is taken too if it is as long. Where there is no such chain, a work that is
sent has each job of its pipeline once, and no other. -/
namespace Rota

namespace Store

variable {s s' : Store} {id : Id} {p : Pipeline} {c d j job next : Job} {chain rest : List Job}

/-- If the job of a copy is stored, it stands where the copy says. -/
def Agrees (s : Store) (c : Job) : Prop := ∀ j, s.jobs.get? c.id = some j → j.origin = c.origin

theorem Agrees.of_origin (agrees : s.Agrees c) (same : d.origin = c.origin) : s.Agrees d := by
  intro j found
  rw [same]
  exact agrees j (Job.id_of_origin same ▸ found)

/-! ### Following the links -/

inductive Blocked (s : Store) (e : StoreError) : Job → Prop
  | here {job : Job} {id : Id} (leads : job.nextJobId = some id) (failed : s.getJob id = .error e)
      (there : e.isNotFound = false) : Blocked s e job
  | behind {job next : Job} {id : Id} (leads : job.nextJobId = some id)
      (read : s.getJob id = .ok next) (later : Blocked s e next) : Blocked s e job

/-- The links lead from the job to each job of the pipeline once. -/
def Covers (s : Store) (p : Pipeline) (job : Job) : Prop :=
  ∃ chain, s.Path job chain ∧ (chain.map (·.id)).Perm (p.jobs.map (·.id))

/-- The links lead from the job to as many jobs as the pipeline has, and not all are its own. -/
def Strays (s : Store) (p : Pipeline) (job : Job) : Prop :=
  ∃ chain, s.Path job chain ∧ chain.length = p.jobs.length ∧
    ∃ k ∈ chain, k.id ∉ p.jobs.map (·.id)

theorem Path.unique {other : List Job} (path : s.Path job chain) (path' : s.Path job other) :
    chain = other := by
  induction path generalizing other with
  | last ends =>
    cases path' with
    | last => rfl
    | link leads => rw [ends] at leads; cases leads
  | link leads read _ ih =>
    cases path' with
    | last ends => rw [ends] at leads; cases leads
    | link leads' read' behind' =>
      rw [leads] at leads'
      cases leads'
      rw [read] at read'
      cases read'
      rw [ih behind']

theorem Path.length_eq {other : List Job} (path : s.Path c chain) (path' : s.Path d other)
    (same : c.nextJobId = d.nextJobId) : chain.length = other.length := by
  cases path with
  | last ends =>
    cases path' with
    | last => rfl
    | link leads => rw [← same, ends] at leads; cases leads
  | link leads read behind =>
    cases path' with
    | last ends => rw [← same, leads] at ends; cases ends
    | link leads' read' behind' =>
      rw [← same, leads] at leads'
      cases leads'
      rw [read] at read'
      cases read'
      rw [List.length_cons, List.length_cons, behind.unique behind']

private theorem Path.suffix (path : s.Path job chain) (member : c ∈ chain) :
    ∃ later, s.Path c later ∧ later.length ≤ chain.length := by
  induction path with
  | last ends =>
    rw [List.mem_singleton.mp member]
    exact ⟨_, .last ends, Nat.le_refl _⟩
  | link leads read behind ih =>
    rcases List.mem_cons.mp member with rfl | inside
    · exact ⟨_, .link leads read behind, Nat.le_refl _⟩
    · obtain ⟨later, path, le⟩ := ih inside
      exact ⟨later, path, Nat.le_succ_of_le le⟩

theorem Indexed.getJob (indexed : s.Indexed) (read : s.getJob id = .ok c) :
    c.id = id ∧ ∃ j, s.jobs.get? c.id = some j ∧ j.origin = c.origin := by
  obtain ⟨j, stored, rereads⟩ := getJob_ok read
  have same := Job.origin_reread rereads
  have key : c.id = id := (Job.id_of_origin same).trans (indexed.jobKey id j stored)
  exact ⟨key, j, key ▸ stored, same.symm⟩

/-- The jobs behind the first one are stored, with the links that were followed. -/
theorem Path.stored (indexed : s.Indexed) (path : s.Path job chain) :
    ∀ k ∈ chain.tail, ∃ j, s.jobs.get? k.id = some j ∧ j.origin = k.origin := by
  intro k member
  obtain ⟨id, read⟩ := path.reads k member
  exact (indexed.getJob read).2

/-- No job comes twice on the way to the end. -/
theorem Path.nodup (indexed : s.Indexed) (path : s.Path job chain)
    (agrees : s.Agrees job) : (chain.map (·.id)).Nodup := by
  induction path with
  | last => simp
  | link leads read behind ih =>
    obtain ⟨_, row, stored, origin⟩ := indexed.getJob read
    rw [List.map_cons, List.nodup_cons]
    refine ⟨fun listed => ?_, ih fun j found => ?_⟩
    · -- The same job again has the same link, so its links lead as far as those of the first, and
      -- yet it stands behind the first.
      obtain ⟨k, member, key⟩ := List.mem_map.mp listed
      obtain ⟨j, found, same⟩ := (Path.link leads read behind).stored indexed k member
      have links := (Job.nextJobId_of_origin same).symm.trans
        (Job.nextJobId_of_origin (agrees j (key ▸ found)))
      obtain ⟨later, path, le⟩ := behind.suffix member
      have longer := path.length_eq (.link leads read behind) links
      rw [List.length_cons] at longer
      omega
    · rw [stored] at found
      cases found
      exact origin

/-- As many jobs as the pipeline has, each once and all its own, are its jobs. -/
theorem Path.covers (indexed : s.Indexed) (path : s.Path job chain)
    (agrees : s.Agrees job) (long : chain.length = p.jobs.length) (straight : ¬s.Strays p job) :
    (chain.map (·.id)).Perm (p.jobs.map (·.id)) := by
  have own : chain.map (·.id) ⊆ p.jobs.map (·.id) := by
    intro jobId listed
    obtain ⟨k, member, rfl⟩ := List.mem_map.mp listed
    by_contra outside
    exact straight ⟨chain, path, long, k, member, outside⟩
  refine (List.subperm_of_subset (path.nodup indexed agrees) own).perm_of_length_le ?_
  rw [List.length_map, List.length_map, long]

end Store

namespace Engine

variable {e e' e₀ : Engine} {s : Store} {id : Id} {p : Pipeline} {job : Job} {chain : List Job}
  {room : Nat} {submission : Submission}

/-- The chain is broken, unless a job on the way is there and cannot be read. -/
theorem loadChain_error {err : EngineError} (failed : loadChain s id room job = .error err) :
    err = .brokenChain id ∨ ∃ unread, s.Blocked unread job ∧ err = .store unread := by
  induction room generalizing job with
  | zero =>
    cases leads : job.nextJobId with
    | none =>
      rw [loadChain_last leads] at failed
      cases failed
    | some next =>
      rw [loadChain_full leads] at failed
      cases failed
      exact Or.inl rfl
  | succ room ih =>
    cases leads : job.nextJobId with
    | none =>
      rw [loadChain_last leads] at failed
      cases failed
    | some next =>
      cases read : s.getJob next with
      | ok j =>
        rw [loadChain_on leads read] at failed
        rcases ih (error_of_map failed) with broken | ⟨unread, blocked, same⟩
        · exact Or.inl broken
        · exact Or.inr ⟨unread, .behind leads read blocked, same⟩
      | error unread =>
        rw [loadChain_off leads read] at failed
        cases failed
        split
        next => exact Or.inl rfl
        next there => exact Or.inr ⟨unread, .here leads read (by simpa using there), rfl⟩

/-! ### Deciding -/

/-- Nothing but its links keeps the pipeline `id` from running through this job. -/
structure Ready (e : Engine) (id : Id) (job : Job) (p : Pipeline) : Prop where
  owner : job.pipelineId = some id
  read : e.store.getPipeline id = .ok p
  runs : p.isRearmed = false
  first : p.headId = some job.id
  idle : p.status.isActive = false

private theorem resolve_broken (ready : e.Ready id job p)
    (uncovered : ∀ chain, e.store.Path job chain → chain.length ≠ p.jobs.length) :
    e.resolve job = (e, .fail (.brokenChain p.id)) ∨
      ∃ unread, e.store.Blocked unread job ∧ e.resolve job = (e, .fail (.store unread)) := by
  obtain ⟨owner, read, runs, first, idle⟩ := ready
  simp only [Pipeline.isRearmed, Bool.or_eq_false_iff] at runs
  obtain ⟨enabled, unfailed⟩ := runs
  cases loaded : loadChain e.store p.id (p.jobs.length - 1) job with
  | ok chain =>
    have short := uncovered chain (loadChain_ok_iff.mp loaded).1
    exact Or.inl (by simp [resolve, owner, read, enabled, unfailed, first, idle, loaded, short])
  | error err =>
    rcases loadChain_error loaded with rfl | ⟨unread, blocked, rfl⟩
    · exact Or.inl (by simp [resolve, owner, read, enabled, unfailed, first, idle, loaded])
    · refine Or.inr ⟨unread, blocked, ?_⟩
      simp [resolve, owner, read, enabled, unfailed, first, idle, loaded]

private theorem submit_fail {err : EngineError} (fails : e.resolve job = (e, .fail err)) :
    e.submit job = (e, .failed err) := by
  simp only [submit, fails]

theorem Resolved.path {c : Chain} (resolved : Resolved e job e' (.run c))
    (owner : job.pipelineId = some id) : ∃ p, e.store.getPipeline id = .ok p ∧
      e.store.Path job c.toList ∧ c.toList.length = p.jobs.length := by
  cases resolved.runsThrough with
  | alone standalone => rw [standalone] at owner; cases owner
  | whole _ p chain _ owner' read _ _ _ loaded long linked =>
    rw [owner] at owner'
    cases owner'
    rw [Chain.toList_ofList linked]
    exact ⟨p, read, (loadChain_ok_iff.mp loaded).1, long⟩

private theorem Resolved.ids_work {c : Chain} {w : Work} {t : Instant}
    (resolved : Resolved e job e' (.run c))
    (made : Work.ofChain (c.withHead (job.markScheduled t)) = .ok w) :
    w.jobs.map (·.id) = c.toList.map (·.id) := by
  rw [(Work.ofChain_ok made).1, Chain.toList_withHead, Chain.toList_eq c, resolved.head]
  rfl

theorem Resolved.pool {r : Resolution} (resolved : Resolved e job e' r) : e'.pool = e.pool := by
  cases resolved <;> rfl

private theorem unschedule_failed (e : Engine) (head : Job) (err : EngineError) :
    (e.unschedule head err).1.pool = e.pool ∧
      ∃ err', (e.unschedule head err).2 = .failed err' := by
  unfold unschedule
  split
  next => exact ⟨rfl, _, rfl⟩
  next => exact ⟨rfl, _, rfl⟩

/-- A submission sends the work of the chain that was decided on, or it sends nothing and does not
say that it had. -/
theorem submit_sends (done : e.submit job = (e', submission)) :
    (∃ c w, Resolved e job e (.run c) ∧
      Work.ofChain (c.withHead (job.markScheduled e.now)) = .ok w ∧
      e'.pool.handovers = e.pool.handovers ++ [⟨w, true⟩]) ∨
    e'.pool = e.pool ∧ submission ≠ .submitted ∧ ∀ ticket, submission ≠ .waiting ticket := by
  obtain ⟨e₁, r, resolves⟩ : ∃ e₁ r, e.resolve job = (e₁, r) := ⟨_, _, rfl⟩
  have resolved := resolve_resolved resolves
  unfold submit at done
  rw [resolves] at done
  cases r with
  | skip | fail | overflow =>
    cases done
    exact Or.inr ⟨resolved.pool, by simp, by simp⟩
  | run c =>
    obtain rfl := resolved.unchanged
    dsimp only at done
    rw [resolved.head] at done
    split at done
    next =>
      cases done
      exact Or.inr ⟨rfl, by simp, by simp⟩
    next store updated =>
      obtain ⟨w, made⟩ := resolved.makes_work e₁.now
      unfold sendChain at done
      rw [made] at done
      dsimp only at done
      split at done
      next pool sends =>
        cases done
        exact Or.inl ⟨c, w, resolved, made, Pool.handovers_send sends (by simp)⟩
      next pool ticket sends =>
        cases done
        exact Or.inl ⟨c, w, resolved, made, Pool.handovers_send sends (by simp)⟩
      next =>
        obtain ⟨kept, err, failed⟩ := unschedule_failed (e₁.withStore store)
          (c.withHead (job.markScheduled e₁.now)).head .poolStopped
        rw [done] at kept failed
        dsimp only at failed
        exact Or.inr ⟨kept, by simp [failed], by simp [failed]⟩

/-- The length of the chain decides whether the work is sent. -/
theorem submit_accepted (indexed : e.store.Indexed) (ready : e.Ready id job p)
    (path : e.store.Path job chain) (long : chain.length = p.jobs.length)
    (accepts : e.pool.isAccepting = true) :
    (e.submit job).2 = .submitted ∨ ∃ ticket, (e.submit job).2 = .waiting ticket := by
  have loaded : loadChain e.store p.id (p.jobs.length - 1) job = .ok chain :=
    loadChain_ok_iff.mpr ⟨path, by omega⟩
  obtain ⟨rest, rfl⟩ := loadChain_cons loaded
  obtain ⟨c, linked, head, _⟩ := Chain.ofList_cons job rest
  have decided :=
    resolve_run ready.owner ready.read ready.runs ready.first ready.idle loaded long linked
  obtain ⟨w, made⟩ := (resolve_resolved decided).makes_work e.now
  have open_ : e.store.isClosed = false := Store.isClosed_of_getPipeline ready.read
  -- A pipeline that was read lists only stored jobs, and this is its first.
  have known : (e.store.jobs.get? job.id).isSome = true := by
    obtain ⟨row, found, loads⟩ := Store.getPipeline_ok ready.read
    obtain ⟨k, heads, same⟩ := Option.map_eq_some_iff.mp ready.first
    obtain ⟨j, stored, _⟩ := (indexed.loaded found loads).2 k (List.mem_of_mem_head? heads)
    rw [← same, stored]
    rfl
  rw [submit_decided decided head open_ known]
  cases room : e.pool.hasRoom with
  | true => exact Or.inl (by simp [sendChain, withStore, made, Pool.send, accepts, room])
  | false =>
    refine Or.inr ⟨e.pool.nextTicket, ?_⟩
    simp [sendChain, withStore, made, Pool.send, accepts, room]

/-- A submission of a job of the pipeline `id` sends each job of the pipeline once, or nothing. -/
inductive SendsWhole (e : Engine) (id : Id) (job : Job) (e' : Engine) : Submission → Prop
  | sent (submission : Submission) (p : Pipeline) (w : Work)
      (read : e.store.getPipeline id = .ok p)
      (sends : e'.pool.handovers = e.pool.handovers ++ [⟨w, true⟩])
      (named : ∀ other, w.pipelineId? = some other → other = id)
      (whole : (w.jobs.map (·.id)).Perm (p.jobs.map (·.id)))
      (once : (w.jobs.map (·.id)).Nodup) : SendsWhole e id job e' submission
  | unsent (submission : Submission) (nothing : e'.pool = e.pool)
      (answer : submission ≠ .submitted ∧ ∀ ticket, submission ≠ .waiting ticket)
      (broken : ∀ p, e.Ready id job p → ¬e.store.Covers p job →
        submission = .failed (.brokenChain id) ∨
          ∃ unread, e.store.Blocked unread job ∧ submission = .failed (.store unread))
      (stopped : ∀ p, e.Ready id job p → e.store.Covers p job → e.pool.isAccepting = false) :
      SendsWhole e id job e' submission

private theorem submit_sendsWhole (indexed : e.store.Indexed) (agrees : e.store.Agrees job)
    (owner : job.pipelineId = some id)
    (straight : ∀ p, e.store.getPipeline id = .ok p → ¬e.store.Strays p job) :
    e.SendsWhole id job (e.submit job).1 (e.submit job).2 := by
  have done := (Prod.eta (e.submit job)).symm
  rcases submit_sends done with ⟨c, w, resolved, made, sends⟩ | ⟨nothing, answer⟩
  · obtain ⟨p, read, path, long⟩ := resolved.path owner
    have covers := path.covers indexed agrees long (straight p read)
    have jobs := resolved.ids_work made
    have named : ∀ other, w.pipelineId? = some other → other = id := by
      intro other named
      rcases (Work.ofChain_ok made).2 with ⟨alone, _⟩ | ⟨same, names, heads, _⟩
      · rw [alone] at named
        cases named
      · rw [Chain.head_withHead] at heads
        rw [names] at named
        cases named
        exact Option.some.inj (heads.symm.trans owner)
    exact .sent _ p w read sends named (jobs ▸ covers) (jobs ▸ path.nodup indexed agrees)
  · refine .unsent _ nothing answer (fun p ready uncovered => ?_) (fun p ready covers => ?_)
    · have long : ∀ chain, e.store.Path job chain → chain.length ≠ p.jobs.length := by
        intro chain path long
        have covers := path.covers indexed agrees long (straight p ready.read)
        exact uncovered ⟨chain, path, covers⟩
      obtain ⟨row, found, loads⟩ := Store.getPipeline_ok ready.read
      have key : p.id = id := (indexed.loaded found loads).1
      rcases resolve_broken ready long with fails | ⟨unread, blocked, fails⟩
      · exact Or.inl (by rw [submit_fail fails, key])
      · exact Or.inr ⟨unread, blocked, by rw [submit_fail fails]⟩
    · obtain ⟨chain, path, perm⟩ := covers
      have long : chain.length = p.jobs.length := by simpa using perm.length_eq
      by_contra accepts
      rcases submit_accepted indexed ready path long (by simpa using accepts) with
        submitted | ⟨ticket, waits⟩
      · exact answer.1 submitted
      · exact answer.2 ticket waits

/-- Where the links lead out of the pipeline over as many jobs as it has, a work with a job that is
not its own is sent as soon as the pipeline can run and the pool accepts it. -/
theorem not_sendsWhole (indexed : e.store.Indexed) (ready : e.Ready id job p)
    (accepts : e.pool.isAccepting = true) (strays : e.store.Strays p job) :
    ¬e.SendsWhole id job (e.submit job).1 (e.submit job).2 := by
  obtain ⟨chain, path, long, k, member, outside⟩ := strays
  have accepted := submit_accepted indexed ready path long accepts
  rcases done : e.submit job with ⟨e', submission⟩
  rw [done] at accepted
  intro whole
  cases whole with
  | unsent _ answer =>
    rcases accepted with submitted | ⟨ticket, waits⟩
    · exact answer.1 submitted
    · exact answer.2 ticket waits
  | sent q other read sends _ perm =>
    rcases submit_sends done with ⟨c, w, resolved, made, sends'⟩ | ⟨nothing, _⟩
    · obtain ⟨_, _, path', _⟩ := resolved.path ready.owner
      cases List.append_cancel_left (sends.symm.trans sends')
      have listed : k.id ∈ other.jobs.map (·.id) := by
        rw [resolved.ids_work made, ← path.unique path']
        exact List.mem_map_of_mem member
      rw [ready.read] at read
      cases read
      exact outside (perm.mem_iff.mp listed)
    · rw [nothing] at sends
      simp at sends

/-! ### Whose turn it is -/

def submitEach (e : Engine) (jobs : List Job) : Engine :=
  jobs.foldl (fun e job => (e.submit job).1) e

/-- A tick that is not held up submits each of its jobs. -/
theorem submitAll_done {due : List Job} {count total : Nat}
    (done : e.submitAll count due = (e', .done total)) : e' = e.submitEach due := by
  induction due generalizing e count with
  | nil =>
    cases done
    rfl
  | cons job rest ih =>
    unfold submitAll at done
    unfold submitEach
    rw [List.foldl_cons]
    split at done
    all_goals
      next submits =>
        first
        | cases done
        | rw [submits]; exact ih done

/-- It is the turn of a job: the tick has submitted the jobs that are due before it, or the job came
first in the queue and has been read anew. -/
inductive Offers (e₀ : Engine) : Engine → Job → Prop
  | due (front back : List Job) (job : Job)
      (scanned : e₀.store.getDueJobs e₀.now = .ok (front ++ job :: back)) :
      Offers e₀ (e₀.submitEach front) job
  | popped (queued job : Job) (queue : JobQueue) (pops : e₀.queue.pop = (some queued, queue))
      (read : e₀.store.getJob queued.id = .ok job) : Offers e₀ { e₀ with queue := queue } job

theorem Submitted.edits (submitted : Submitted e job e' submission) (indexed : e.store.Indexed)
    (agrees : e.store.Agrees job) : ∃ jobs records,
      Store.Edited e.store e'.store jobs records ∧ ∀ k ∈ jobs, e.store.Agrees k := by
  cases submitted with
  | unsent => exact ⟨[], [], .refl _, by simp⟩
  | rearmed id p store jobs records _ owner read holds edited pendingJobs =>
    refine ⟨jobs, records, edited, fun k member j found => ?_⟩
    obtain ⟨row, here, loads⟩ := Store.getPipeline_ok read
    obtain ⟨_, c, inside, same, _⟩ := pendingJobs k member
    obtain ⟨i, stored, origin⟩ := (indexed.loaded here loads).2 c inside
    rw [Job.id_of_origin same, stored] at found
    cases found
    exact origin.trans same.symm
  | refused c store _ undone resolved edited back =>
    refine ⟨_, [], edited, fun k member => agrees.of_origin ?_⟩
    rcases List.mem_cons.mp member with rfl | later
    · rfl
    · rcases back with rfl | ⟨rfl, _⟩
      · rw [List.mem_singleton.mp later]
        rfl
      · cases later
  | sent c w store pool answer _ resolved made edited =>
    refine ⟨_, [], edited, fun k member => agrees.of_origin ?_⟩
    rw [List.mem_singleton.mp member]
    rfl

private theorem submitEach_keeps {jobs : List Job} (indexed : e.store.Indexed)
    (agree : ∀ c ∈ jobs, e.store.Agrees c) : (e.submitEach jobs).store.Indexed ∧
      ∀ c, e.store.Agrees c → (e.submitEach jobs).store.Agrees c := by
  induction jobs generalizing e with
  | nil => exact ⟨indexed, fun _ agrees => agrees⟩
  | cons job rest ih =>
    have submitted := submit_submitted (Prod.eta (e.submit job)).symm
    obtain ⟨written, records, edited, own⟩ :=
      submitted.edits indexed (agree job List.mem_cons_self)
    have kept (c : Job) (agrees : e.store.Agrees c) : (e.submit job).1.store.Agrees c := by
      intro j found
      have same := edited.origins_of own c.id
      rw [found] at same
      obtain ⟨i, before, origin⟩ := Option.map_eq_some_iff.mp same.symm
      exact origin.symm.trans (agrees i before)
    obtain ⟨indexed', agree'⟩ := ih (edited.indexed own indexed) fun c member =>
      kept c (agree c (List.mem_cons_of_mem _ member))
    exact ⟨indexed', fun c agrees => agree' c (kept c agrees)⟩

theorem Offers.agrees (offers : Offers e₀ e job) (indexed : e₀.store.Indexed) :
    e.store.Indexed ∧ e.store.Agrees job := by
  cases offers with
  | due front back _ scanned =>
    have agree : ∀ c ∈ front ++ job :: back, e₀.store.Agrees c := by
      intro c member j found
      obtain ⟨i, stored, rereads, _⟩ := indexed.stored_due scanned member
      rw [stored] at found
      cases found
      exact (Job.origin_reread rereads).symm
    obtain ⟨indexed', kept⟩ := submitEach_keeps indexed fun c member =>
      agree c (List.mem_append_left _ member)
    exact ⟨indexed', kept job (agree job (by simp))⟩
  | popped queued _ queue pops read =>
    refine ⟨indexed, fun j found => ?_⟩
    obtain ⟨_, i, stored, origin⟩ := indexed.getJob read
    rw [stored] at found
    cases found
    exact origin

/-- Whatever the tables hold, a job whose turn it is is submitted with all of its pipeline or not at
all, unless the links lead out of the pipeline over as many jobs as it has. -/
theorem offered_sendsWhole (indexed : e₀.store.Indexed) (offers : Offers e₀ e job)
    (owner : job.pipelineId = some id)
    (straight : ∀ p, e.store.getPipeline id = .ok p → ¬e.store.Strays p job) :
    e.SendsWhole id job (e.submit job).1 (e.submit job).2 := by
  obtain ⟨now, agrees⟩ := offers.agrees indexed
  exact submit_sendsWhole now agrees owner straight

def dueStep (id : Id) (sequence : UInt32) (next : Option Id) : Job :=
  { Job.new id "step" "noop" [] none with
    pipelineId := some (.issued 0), sequence, nextJobId := next, runAt := some .epoch }

def firstStep : Job := dueStep (.issued 1) 0 (some (.issued 2))

def lastStep : Job := dueStep (.issued 2) 1 none

def steps : Pipeline := .new (.issued 0) "steps" [firstStep, lastStep] none

def watch : Job := Job.new (.issued 3) "watch" "noop" [] none

def withSteps (operations : List Operation) : Engine :=
  let filled := [.createPipeline steps, .createJob watch] ++ operations
  { System.start.engine with store := (Repository.empty.run filled).store }

theorem indexed_withSteps {operations : List Operation} (sound : ∀ o ∈ operations, o.IsSound) :
    (withSteps operations).store.Indexed := by
  refine (Repository.filed_run ?_ Store.filed_empty).toIndexed
  simpa [Operation.IsSound] using sound

theorem offered_sendsWhole_withSteps :
    let e := withSteps []
    e.store.Indexed ∧ Offers e e firstStep ∧ firstStep.pipelineId = some (.issued 0) ∧
    (∀ p, e.store.getPipeline (.issued 0) = .ok p → ¬e.store.Strays p firstStep) ∧
    (e.submit firstStep).2 = .submitted ∧
    e.SendsWhole (.issued 0) firstStep (e.submit firstStep).1 (e.submit firstStep).2 := by
  have indexed : (withSteps []).store.Indexed := indexed_withSteps (by simp)
  have offers : Offers (withSteps []) (withSteps []) firstStep := .due [] [lastStep] _ (by rfl)
  have straight : ∀ p, (withSteps []).store.getPipeline (.issued 0) = .ok p →
      ¬(withSteps []).store.Strays p firstStep := by
    rintro p read ⟨chain, path, _, k, member, outside⟩
    have known : (withSteps []).store.getPipeline (.issued 0) = .ok steps := by rfl
    rw [known] at read
    cases read
    have leads : (withSteps []).store.Path firstStep steps.jobs :=
      .link rfl (by rfl) (.last rfl)
    rw [path.unique leads] at member
    exact outside (List.mem_map_of_mem member)
  exact ⟨indexed, offers, rfl, straight, by rfl, offered_sendsWhole indexed offers rfl straight⟩

/-- The first step is linked to the job that belongs to no pipeline, which is sent in the place of
the last step. -/
theorem offered_strays :
    let astray := dueStep (.issued 1) 0 (some (.issued 3))
    let e := withSteps [.updateJob astray]
    e.store.Indexed ∧ Offers e e astray ∧ astray.pipelineId = some (.issued 0) ∧
    (∃ p, e.store.getPipeline (.issued 0) = .ok p ∧
      p.jobs.map (·.id) = [.issued 1, .issued 2]) ∧
    (e.submit astray).2 = .submitted ∧
    (e.submit astray).1.pool.handovers.map (fun h => h.work.jobs.map (·.id)) =
      [[.issued 1, .issued 3]] ∧
    ¬e.SendsWhole (.issued 0) astray (e.submit astray).1 (e.submit astray).2 := by
  intro astray e
  have indexed : e.store.Indexed := indexed_withSteps (by simp [Operation.IsSound])
  have offers : Offers e e astray := .due [] [lastStep] _ (by rfl)
  have strays : e.store.Strays { steps with jobs := [astray, lastStep] } astray :=
    ⟨[astray, watch], .link rfl (by rfl) (.last rfl), rfl, watch, by simp, by decide⟩
  have ready : e.Ready (.issued 0) astray { steps with jobs := [astray, lastStep] } :=
    ⟨rfl, by rfl, by rfl, by rfl, by rfl⟩
  have whole := not_sendsWhole indexed ready (by rfl) strays
  exact ⟨indexed, offers, rfl, ⟨_, by rfl, by rfl⟩, by rfl, by rfl, whole⟩

end Engine

end Rota
