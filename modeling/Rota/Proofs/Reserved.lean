import Rota.Proofs.Exclusive
/-! Jobs that are called for wait undisturbed.
A job comes into the queue as it is admitted, pending and without a run time, so no scan reads it.
Until a tick submits it nothing else of its kind is on its way, and nobody writes its row. -/
namespace Rota

/-- What a work executes: a standalone job, or a pipeline. -/
inductive Target where
  | job (id : Id)
  | pipeline (id : Id)

def Job.target (j : Job) : Target :=
  match j.pipelineId with
  | some id => .pipeline id
  | none => .job j.id

def Flight.target? (f : Flight) : Option Target := f.jobs.head?.map Job.target

def Target.id : Target → Id
  | job id => id
  | pipeline id => id

private theorem Job.target_of_origin {j k : Job} (same : j.origin = k.origin) :
    j.target = k.target := by
  unfold target
  rw [Job.id_of_origin same, Job.pipelineId_of_origin same]

theorem Job.target_of_owner {j : Job} {id : Id} (owner : j.pipelineId = some id) :
    j.target = .pipeline id := by
  simp [target, owner]

private theorem Job.owner_of_target {j : Job} {id : Id} (same : j.target = .pipeline id) :
    j.pipelineId = some id := by
  unfold target at same
  split at same
  next owner =>
    cases same
    exact owner
  next => cases same

private theorem Job.alone_of_target {j : Job} {id : Id} (same : j.target = .job id) :
    j.pipelineId = none ∧ j.id = id := by
  unfold target at same
  split at same
  next => cases same
  next alone =>
    cases same
    exact ⟨alone, rfl⟩

private theorem Flight.target?_eq {f : Flight} {job : Job} {waiting : List Job}
    (jobs : f.jobs = job :: waiting) : f.target? = some job.target := by
  simp [target?, jobs]

namespace Store

variable {s s' : Store} {n : Nat} {c d j : Job} {id : Id}

private theorem IsCopy.target_issued (copy : s.IsCopy n c) : Id.IsIssued n c.target.id := by
  cases same : c.target with
  | job id => exact (Job.alone_of_target same).2 ▸ copy.issued
  | pipeline id => exact copy.ownerIssued id (Job.owner_of_target same)

private theorem IsCopy.same_target (copy : s.IsCopy n c) (copy' : s.IsCopy n d) (same : c.id = d.id)
    (stored : s.jobs.get? c.id = some j) : c.target = d.target := by
  unfold Job.target
  rw [copy.same_owner copy' same stored, same]

structure Leaves (s s' : Store) (t : Target) : Prop where
  jobs : ∀ id j, s'.jobs.get? id = some j → j.target = t →
    ∃ i, s.jobs.get? id = some i ∧ i.target = t ∧ i.status = j.status ∧ i.runAt = j.runAt
  record : ∀ id row, t = .pipeline id → s'.pipelines.get? id = some row →
    ∃ r, s.pipelines.get? id = some r ∧ r.record.status = row.record.status

theorem Leaves.of_eq (jobs : s'.jobs = s.jobs) (pipelines : s'.pipelines = s.pipelines)
    (t : Target) : Leaves s s' t where
  jobs _ j stored same := ⟨j, jobs ▸ stored, same, rfl, rfl⟩
  record _ row _ found := ⟨row, pipelines ▸ found, rfl⟩

end Store

theorem Engine.Changed.leaves {e e' : Engine} {t : Target} (change : e.Changed e')
    (distinct : Id.Distinct e'.issued) (consistent : e.store.Consistent e.issued)
    (issued : Id.IsIssued e.issued t.id) : Store.Leaves e.store e'.store t := by
  cases t with
  | job own =>
    refine ⟨fun id j stored same => ?_, fun id row same => by cases same⟩
    obtain ⟨_, rfl⟩ := Job.alone_of_target same
    have key := (change.consistent distinct consistent).jobKey id j stored
    rcases change.job_cases distinct stored with ⟨fresh, _⟩ | ⟨i, before, origin, kept⟩
    · exact absurd (key ▸ issued) fresh
    · exact ⟨i, before, (Job.target_of_origin origin).trans same, kept⟩
  | pipeline own =>
    have untouched := change.untouched distinct consistent issued
    refine ⟨fun id j stored same => ?_, fun id row same found => ?_⟩
    · obtain ⟨i, before, owner, kept⟩ := untouched.jobs id j stored (Job.owner_of_target same)
      exact ⟨i, before, Job.target_of_owner owner, kept⟩
    · cases same
      obtain ⟨r, before, _, status⟩ := untouched.pipelines row found
      exact ⟨r, before, status⟩

namespace System

structure Rests (s : System) (t : Target) : Prop where
  unread : ∀ c ∈ s.scanned, c.target ≠ t
  grounded : ∀ f ∈ s.flights, f.target? ≠ some t
  pending : ∀ id j, s.engine.store.jobs.get? id = some j → j.target = t →
    j.status = .pending ∧ j.runAt = none
  idle : ∀ id row, t = .pipeline id → s.engine.store.pipelines.get? id = some row →
    row.record.status = .pending

/-- No target is called for twice, and each rests until its job is submitted. -/
structure Reserved (s : System) : Prop where
  once : (s.called.map Job.target).Nodup
  rests : ∀ c ∈ s.called, s.Rests c.target

variable {s s' : System} {a : Action} {t : Target} {job : Job}

private theorem Rests.of_left (rests : s.Rests t)
    (leaves : Store.Leaves s.engine.store s'.engine.store t)
    (unread : ∀ c ∈ s'.scanned, c.target ≠ t) (grounded : ∀ f ∈ s'.flights, f.target? ≠ some t) :
    s'.Rests t where
  unread := unread
  grounded := grounded
  pending id j stored same := by
    obtain ⟨i, before, own, status, runAt⟩ := leaves.jobs id j stored same
    rw [← status, ← runAt]
    exact rests.pending id i before own
  idle id row same found := by
    obtain ⟨r, before, status⟩ := leaves.record id row same found
    exact status ▸ rests.idle id r same before

theorem Wrote.leaves {written : List Job} {records : List Pipeline}
    (wrote : Wrote s s' written records) (others : ∀ k ∈ written, k.target ≠ t)
    (otherRecords : ∀ r ∈ records, .pipeline r.id ≠ t) :
    Store.Leaves s.engine.store s'.engine.store t where
  jobs id j stored same := by
    rcases wrote.job_cases stored with ⟨member, _⟩ | ⟨before, _⟩
    · exact absurd same (others j member)
    · exact ⟨j, before, same, rfl, rfl⟩
  record id row same found := by
    obtain ⟨r, before, _, ⟨kept, _⟩ | ⟨p, member, key, _⟩⟩ := wrote.edited.record_cases found
    · exact ⟨r, before, by rw [kept]⟩
    · exact absurd (same ▸ congrArg Target.pipeline key) (otherRecords p member)

/-! ### What the steps keep -/

namespace Reserved

/-- With fewer jobs to submit it is enough that those still called for are left alone. -/
theorem of_fewer (reserved : s.Reserved) (scanned : ∃ gone, s.scanned.Perm (gone ++ s'.scanned))
    (called : ∃ gone, s.called.Perm (gone ++ s'.called))
    (leaves : ∀ c ∈ s'.called, Store.Leaves s.engine.store s'.engine.store c.target)
    (grounded : ∀ c ∈ s'.called, ∀ f ∈ s'.flights, f ∈ s.flights ∨ f.target? ≠ some c.target) :
    s'.Reserved where
  once := by
    obtain ⟨gone, perm⟩ := called
    have once := (perm.map Job.target).nodup_iff.mp reserved.once
    rw [List.map_append] at once
    exact once.of_append_right
  rests c member := by
    have rests := reserved.rests c (mem_of_fewer called member)
    refine rests.of_left (leaves c member)
      (fun d inside => rests.unread d (mem_of_fewer scanned inside)) fun f inside => ?_
    rcases grounded c member f inside with old | other
    · exact rests.grounded f old
    · exact other

/-- When a tick takes a job to submit it, nothing of its kind is left that is called for. -/
theorem other_of_taken (reserved : s.Reserved) (taken : Taken s s' job) :
    ∀ c ∈ s'.called, job.target ≠ c.target := by
  intro c member same
  rcases taken with ⟨⟨gone, scanned⟩, called⟩ | ⟨_, gone, called⟩
  · have inside : job ∈ s.scanned := scanned.mem_iff.mpr (by simp)
    exact (reserved.rests c (called.mem_iff.mp member)).unread job inside same
  · have once := (called.map Job.target).nodup_iff.mp reserved.once
    simp only [List.cons_append, List.map_cons, List.map_append] at once
    refine (List.nodup_cons.mp once).1 ?_
    rw [same]
    exact List.mem_append_right _ (List.mem_map_of_mem member)

/-- A tick has submitted a job and has written only what belongs to it. -/
theorem submit {written : List Job} {records : List Pipeline} (reserved : s.Reserved)
    (taken : Taken s s' job) (wrote : Wrote s s' written records)
    (own : ∀ k ∈ written, k.target = job.target)
    (ownRecords : ∀ r ∈ records, .pipeline r.id = job.target)
    (flights : ∀ f ∈ s'.flights, f ∈ s.flights ∨ f.target? = some job.target) : s'.Reserved := by
  have other := reserved.other_of_taken taken
  obtain ⟨scanned, called⟩ := taken.gone
  refine reserved.of_fewer scanned called
    (fun c member => wrote.leaves (fun k inside => ?_) fun r inside => ?_)
    fun c member f inside => ?_
  · exact own k inside ▸ other c member
  · exact ownRecords r inside ▸ other c member
  · refine (flights f inside).imp id fun here => ?_
    rw [here]
    exact fun same => other c member (Option.some.inj same)

/-- A worker has written only what belongs to its flight, which has gone on or ended. -/
theorem of_moved {f : Flight} {others : List Flight} {waiting written : List Job}
    {records : List Pipeline} (reserved : s.Reserved) (left : Option Flight)
    (wrote : Wrote s s' written records) (own : ∀ k ∈ written, k.target = job.target)
    (ownRecords : ∀ r ∈ records, .pipeline r.id = job.target)
    (before : s.flights.Perm (f :: others)) (after : s'.flights.Perm (left.toList ++ others))
    (apart : Apart s s') (jobs : f.jobs = job :: waiting)
    (same : ∀ g ∈ left, g.target? = some job.target) : s'.Reserved := by
  have rests {c : Job} (member : c ∈ s'.called) : some job.target ≠ some c.target := by
    rw [← Flight.target?_eq jobs]
    exact (reserved.rests c (apart.called ▸ member)).grounded f
      (before.mem_iff.mpr List.mem_cons_self)
  refine reserved.of_fewer ⟨[], by simp [apart.scanned]⟩ ⟨[], by simp [apart.called]⟩
    (fun c member => wrote.leaves (fun k inside same => ?_) fun r inside same => ?_)
    fun c member g inside => ?_
  · exact rests member (congrArg some ((own k inside).symm.trans same))
  · exact rests member (congrArg some ((ownRecords r inside).symm.trans same))
  · rcases List.mem_append.mp (after.mem_iff.mp inside) with moved | old
    · exact Or.inr (same g (Option.mem_toList.mp moved) ▸ rests member)
    · exact Or.inl (before.mem_iff.mpr (List.mem_cons_of_mem _ old))

end Reserved

/-- A job that a call puts into the queue is the first of its kind. -/
theorem called_of_managed (change : s.engine.Changed s'.engine)
    (distinct : Id.Distinct s'.engine.issued)
    (consistent : s.engine.store.Consistent s.engine.issued) (ticks : s'.ticks = s.ticks) :
    s'.called = s.called ∨ ∃ j, s'.called.Perm (j :: s.called) ∧
      ¬Id.IsIssued s.engine.issued j.target.id ∧
      (∀ id k, s'.engine.store.jobs.get? id = some k → k.target = j.target →
        k.status = .pending ∧ k.runAt = none) ∧
      ∀ id row, j.target = .pipeline id → s'.engine.store.pipelines.get? id = some row →
        row.record.status = .pending := by
  unfold System.called
  rw [ticks]
  rcases change.queue distinct consistent with same | ⟨j, longer, stored, owned⟩
  · exact Or.inl (by rw [same])
  · have alone : j.pipelineId = none → ¬Id.IsIssued s.engine.issued j.id ∧ j.runAt = none := by
      intro alone
      rcases change.queue_alone distinct with same | ⟨k, longer', new⟩
      · simp [longer] at same
      · obtain rfl : j = k := by simpa using longer.symm.trans longer'
        exact ⟨(new alone).1, (new alone).2.2⟩
    have fresh : ¬Id.IsIssued s.engine.issued j.target.id := by
      cases same : j.target with
      | job id =>
        obtain ⟨standalone, rfl⟩ := Job.alone_of_target same
        exact (alone standalone).1
      | pipeline id => exact (owned id (Job.owner_of_target same)).1
    refine Or.inr ⟨j, ?_, fresh, fun id k stored' same => ⟨?_, ?_⟩, fun id row same found => ?_⟩
    · rw [longer, List.append_assoc]
      exact List.perm_middle
    · rcases change.job_cases distinct stored' with ⟨_, pending⟩ | ⟨i, before, origin, _⟩
      · exact pending
      · refine absurd (consistent.isCopy before).target_issued ?_
        rwa [(Job.target_of_origin origin).trans same]
    · cases target : j.target with
      | job own =>
        obtain ⟨_, key⟩ := Job.alone_of_target (same.trans target)
        obtain ⟨standalone, rfl⟩ := Job.alone_of_target target
        have key' := (change.consistent distinct consistent).jobKey id k stored'
        rw [← key, key', stored'] at stored
        cases stored
        exact (alone standalone).2
      | pipeline own =>
        exact (owned own (Job.owner_of_target target)).2 id k stored'
          (Job.owner_of_target (same.trans target))
    · rcases change.record_cases distinct found with ⟨_, pending⟩ | ⟨r, before, _⟩
      · exact pending
      · rw [same] at fresh
        exact absurd (consistent.pipelineIssued id r before) fresh

/-- A job that is called for is stored as pending. -/
theorem Reserved.pending_of_called (reserved : s.Reserved) (sound : s.Sound) {c row : Job}
    (member : c ∈ s.called) (stored : s.engine.store.jobs.get? c.id = some row) :
    row.status = .pending := by
  have copy := sound.copies c (List.mem_append_right _ member)
  have same : row.target = c.target := Job.target_of_origin (copy.agrees row stored)
  exact ((reserved.rests c member).pending c.id row stored same).1

theorem Reserved.managed (reserved : s.Reserved) (sound : s.Sound)
    (change : s.engine.Changed s'.engine) (distinct : Id.Distinct s'.engine.issued)
    (ticks : s'.ticks = s.ticks) (flights : s'.flights = s.flights) : s'.Reserved := by
  have scanned : s'.scanned = s.scanned := by
    unfold System.scanned
    rw [ticks]
  have issued {c : Job} (member : c ∈ s.scanned ++ s.called) :
      Id.IsIssued s.engine.issued c.target.id := (sound.copies c member).target_issued
  have rests {c : Job} (member : c ∈ s.called) : s'.Rests c.target := by
    have rests := reserved.rests c member
    refine rests.of_left (change.leaves distinct sound.consistent ?_) (scanned ▸ rests.unread)
      (flights ▸ rests.grounded)
    exact issued (List.mem_append_right _ member)
  rcases called_of_managed change distinct sound.consistent ticks with same | ⟨j, longer, new⟩
  · exact ⟨same ▸ reserved.once, fun c member => rests (same ▸ member)⟩
  · obtain ⟨fresh, pending, idle⟩ := new
    refine ⟨?_, fun c member => ?_⟩
    · rw [(longer.map Job.target).nodup_iff, List.map_cons, List.nodup_cons]
      refine ⟨fun inside => ?_, reserved.once⟩
      obtain ⟨c, member, same⟩ := List.mem_map.mp inside
      exact fresh (same ▸ issued (List.mem_append_right _ member))
    · rcases List.mem_cons.mp (longer.mem_iff.mp member) with rfl | old
      · refine ⟨fun d inside same => fresh (same ▸ issued ?_), fun f inside same => fresh ?_,
          pending, idle⟩
        · exact List.mem_append_left _ (scanned ▸ inside)
        · have carried := sound.flights f (flights ▸ inside)
          obtain ⟨first, rest, jobs⟩ := List.exists_cons_of_ne_nil carried.nonempty
          have own : first.target = c.target :=
            Option.some.inj ((Flight.target?_eq jobs).symm.trans same)
          exact own ▸ (carried.copies first (by simp [jobs])).1.target_issued
      · exact rests old

theorem Reserved.scan (reserved : s.Reserved) (sound : s.Sound) {due : List Job}
    (read : s.engine.store.getDueJobs s.engine.now = .ok due) (engine : s'.engine = s.engine)
    (scanned : s'.scanned = s.scanned ++ due) (called : s'.called = s.called)
    (flights : s'.flights = s.flights) : s'.Reserved := by
  refine ⟨called ▸ reserved.once, fun c member => ?_⟩
  have rests := reserved.rests c (called ▸ member)
  refine rests.of_left (.of_eq (by rw [engine]) (by rw [engine]) _) (fun d inside same => ?_)
    (flights ▸ rests.grounded)
  rcases List.mem_append.mp (scanned ▸ inside) with old | new
  · exact rests.unread d old same
  · -- What is due has a run time.
    obtain ⟨j, stored, rereads, isDue⟩ := sound.consistent.stored_due read new
    have own := (Job.target_of_origin (Job.origin_reread rereads)).symm.trans same
    have undated := (Job.runAt_reread rereads).trans (rests.pending d.id j stored own).2
    simp [Job.isDue, undated] at isDue

theorem Reserved.look (reserved : s.Reserved) (sound : s.Sound) {queued : Job}
    (read : s.engine.store.getJob queued.id = .ok job) (store : s'.engine.store = s.engine.store)
    (scanned : s'.scanned = s.scanned)
    (called : ∃ rest, s.called.Perm (queued :: rest) ∧ s'.called.Perm (job :: rest))
    (flights : s'.flights = s.flights) : s'.Reserved := by
  obtain ⟨rest, before, after⟩ := called
  have same : job.target = queued.target := by
    have member : queued ∈ s.called := before.mem_iff.mpr List.mem_cons_self
    obtain ⟨copy, key⟩ := sound.consistent.isCopy_getJob read
    obtain ⟨j, stored, _⟩ := Store.getJob_ok read
    exact copy.same_target (sound.copies queued (List.mem_append_right _ member)) key (key ▸ stored)
  have targets : (s'.called.map Job.target).Perm (s.called.map Job.target) := by
    refine (after.map Job.target).trans (.trans ?_ (before.map Job.target).symm)
    rw [List.map_cons, List.map_cons, same]
  refine ⟨targets.nodup_iff.mpr reserved.once, fun c member => ?_⟩
  obtain ⟨c', inside, own⟩ := List.mem_map.mp (targets.mem_iff.mp (List.mem_map_of_mem member))
  have rests := own ▸ reserved.rests c' inside
  exact rests.of_left (.of_eq (by rw [store]) (by rw [store]) _) (scanned ▸ rests.unread)
    (flights ▸ rests.grounded)

theorem Step.reserved (step : Step s a s') (sound : s.Sound) (reserved : s.Reserved)
    (distinct : Id.Distinct s'.engine.issued) : s'.Reserved := by
  have owned {f : Flight} {others : List Flight} {job : Job} {waiting : List Job} {r : Pipeline}
      (before : s.flights.Perm (f :: others)) (jobs : f.jobs = job :: waiting)
      (owner : f.pipelineId = some r.id) : .pipeline r.id = job.target := by
    have carried := sound.flights f (before.mem_iff.mpr List.mem_cons_self)
    exact (Job.target_of_owner ((carried.copies job (by simp [jobs])).2.trans owner)).symm
  cases step with
  | quiet jobs pipelines _ _ scanned called flights =>
    exact reserved.of_fewer scanned called (fun _ _ => .of_eq jobs pipelines _)
      fun _ _ f inside => Or.inl (flights.mem_iff.mp inside)
  | managed change ticks held =>
    refine reserved.managed sound change.change distinct ticks ?_
    unfold System.flights
    rw [change.pool, held]
  | scanned due _ read engine scanned called flights =>
    exact reserved.scan sound read engine scanned called flights
  | looked queued job read store _ scanned called flights =>
    exact reserved.look sound read store scanned called flights
  | rearmed job own p written records taken owner _ _ wrote pendingJobs pendingRecords _ flights =>
    refine reserved.submit taken wrote (fun k inside => ?_) (fun r inside => ?_)
      fun f inside => Or.inl (flights ▸ inside)
    · rw [Job.target_of_owner (pendingJobs k inside).2, Job.target_of_owner owner]
    · rw [(pendingRecords r inside).1, Job.target_of_owner owner]
  | refused job written taken wrote own _ _ flights =>
    exact reserved.submit taken wrote (fun k inside => Job.target_of_origin (own k inside))
      (by simp) fun f inside => Or.inl (flights ▸ inside)
  | sent job f rest taken wrote _ jobs _ _ _ _ flights =>
    have same : (job.markScheduled s.engine.now).target = job.target :=
      Job.target_of_origin (Job.origin_markScheduled job _)
    refine reserved.submit taken wrote (by simpa using same) (by simp) fun g inside => ?_
    rcases List.mem_cons.mp (flights.mem_iff.mp inside) with rfl | old
    · exact Or.inr ((Flight.target?_eq jobs).trans (congrArg some same))
    · exact Or.inl old
  | started f f' others job waiting records before after apart jobs jobs' _ owner known _ wrote
      begins =>
    have same : (job.markStarted s.engine.now).target = job.target :=
      Job.target_of_origin (Job.origin_markStarted job _)
    refine reserved.of_moved (some f') wrote (by simpa using same) (fun r inside => ?_) before after
      apart jobs ?_
    · exact owned before jobs (ownRecords_of_begins owner known begins r inside)
    · rintro g ⟨⟩
      exact (Flight.target?_eq jobs').trans (congrArg some same)
  | paused f f' others job k waiting before after apart _ _ jobs jobs' more record owner wrote origin
      _ whole =>
    have carried := sound.flights f (before.mem_iff.mpr List.mem_cons_self)
    refine reserved.of_moved (some f') wrote (by simpa using Job.target_of_origin origin) (by simp)
      before after apart jobs ?_
    rintro g ⟨⟩
    -- A flight that goes on is one of a pipeline, of which all its jobs are.
    obtain ⟨p, whole⟩ := Option.isSome_iff_exists.mp whole
    have owned := (carried.begun p whole).1
    obtain ⟨next, rest, behind⟩ := List.exists_cons_of_ne_nil more
    rw [Flight.target?_eq (jobs'.trans behind),
      Job.target_of_owner ((carried.copies job (by simp [jobs])).2.trans owned),
      Job.target_of_owner ((carried.copies next (by simp [jobs, behind])).2.trans owned)]
  | ended f others job waiting written records before after apart jobs wrote own ownRecords =>
    exact reserved.of_moved none wrote (fun k inside => Job.target_of_origin (own k inside))
      (fun r inside => owned before jobs (ownRecords r inside)) before after apart jobs (by simp)
  | abandoned _ gone _ store _ scanned called flights =>
    exact reserved.of_fewer scanned called (fun _ _ => .of_eq (by rw [store]) (by rw [store]) _)
      fun _ _ f inside => Or.inl (flights.mem_iff.mpr (List.mem_append_right _ inside))

theorem reserved_new {now : Instant} {registry : Registry} {queueCapacity : Nat} {unit : TimeUnit}
    {workers poolCapacity : Nat}
    (made : new? now registry queueCapacity unit workers poolCapacity = some s) : s.Reserved := by
  obtain ⟨_, _, _, called, _⟩ := new_eq made
  constructor <;> simp [called]

theorem reserved_run {now : Instant} {registry : Registry} {queueCapacity : Nat} {unit : TimeUnit}
    {workers poolCapacity : Nat} {actions : List Action}
    (made : new? now registry queueCapacity unit workers poolCapacity = some s)
    (short : ∀ a ∈ actions, a.IsShort) (distinct : Id.Distinct (s.run actions).engine.issued) :
    (s.run actions).Sound ∧ (s.run actions).Reserved := by
  have anything : Along (fun _ _ => True) s actions := along_of_forall (fun _ _ _ => trivial) s
  exact run_keeps (fun _ _ sound reserved _ distinct step => step.reserved sound reserved distinct)
    (sound_new made) (reserved_new made) anything short distinct

end System

end Rota
