import Rota.Proofs.Run
/-! No pipeline has two works on their way.
Two marks keep a pipeline from being sent twice. While its work waits, its first job is scheduled,
so no scan reads it; once the work is begun, its record is in progress, so no tick sends it. A
tick that arms the pipeline again wipes both out, whether a work is on its way or not: if no tick
does so, there is never a second work. -/
namespace Rota

/-- What guards the pipeline `id` is as it was, as far as it is still stored. -/
structure Store.Untouched (s s' : Store) (id : Id) : Prop where
  jobs : ∀ jobId j, s'.jobs.get? jobId = some j → j.pipelineId = some id →
    ∃ i, s.jobs.get? jobId = some i ∧ i.pipelineId = some id ∧ i.status = j.status ∧
      i.runAt = j.runAt
  pipelines : ∀ row, s'.pipelines.get? id = some row → ∃ r, s.pipelines.get? id = some r ∧
    r.jobIds = row.jobIds ∧ r.record.status = row.record.status

theorem Store.Untouched.of_eq {s s' : Store} (jobs : s'.jobs = s.jobs)
    (pipelines : s'.pipelines = s.pipelines) (id : Id) : Untouched s s' id :=
  ⟨fun _ j stored owner => ⟨j, jobs ▸ stored, owner, rfl, rfl⟩,
    fun row found => ⟨row, pipelines ▸ found, rfl, rfl⟩⟩

theorem Engine.Changed.untouched {e e' : Engine} {id : Id} (change : e.Changed e')
    (distinct : Id.Distinct e'.issued) (consistent : e.store.Consistent e.issued)
    (issued : Id.IsIssued e.issued id) : Store.Untouched e.store e'.store id where
  jobs jobId j stored owner := by
    obtain ⟨i, before, same⟩ := (change.descends distinct consistent).of_owner consistent
      (change.consistent distinct consistent) issued stored owner
    rcases change.job_cases distinct stored with ⟨fresh, _⟩ | ⟨i', before', _, status, runAt⟩
    · exact absurd (consistent.jobIssued jobId i before) fresh
    · rw [before] at before'
      cases before'
      exact ⟨i, before, (Job.pipelineId_of_origin same).symm.trans owner, status, runAt⟩
  pipelines row found := by
    obtain ⟨r, before, same⟩ := (change.descends distinct consistent).pipelines id row issued found
    rcases change.record_cases distinct found with ⟨fresh, _⟩ | ⟨r', before', status⟩
    · exact absurd issued fresh
    · rw [before] at before'
      cases before'
      exact ⟨r, before, same.symm, status⟩

namespace System

structure Guarded (s : System) (id : Id) (f : Flight) : Prop where
  unread : f.stage = .waiting → ∀ c ∈ s.scanned, f.headId? ≠ some c.id
  scheduled : f.stage = .waiting → ∀ jobId j, f.headId? = some jobId →
    s.engine.store.jobs.get? jobId = some j → j.pipelineId = some id → j.status = .scheduled
  first : f.stage = .waiting → ∀ row, s.engine.store.pipelines.get? id = some row →
    row.jobIds.head? = f.headId?
  inProgress : f.stage ≠ .waiting → ∀ row, s.engine.store.pipelines.get? id = some row →
    row.record.status = .inProgress

/-- What holds of the pipeline `id` as long as its first job has been called for and no tick has
submitted it. -/
structure Aside (s : System) (id : Id) : Prop where
  grounded : ∀ f ∈ s.flights, f.pipelineId ≠ some id
  unread : ∀ c ∈ s.scanned, c.pipelineId ≠ some id
  undated : ∀ jobId j, s.engine.store.jobs.get? jobId = some j → j.pipelineId = some id →
    j.runAt = none

/-- The pipeline `id` has at most one flight, and what keeps it so. -/
structure Single (s : System) (id : Id) : Prop where
  flights : s.flights.countP (·.pipelineId = some id) ≤ 1
  scanned : ∀ jobId, s.scanned.countP (·.id = jobId) ≤ 1
  called : s.called.countP (·.pipelineId = some id) ≤ 1
  guarded : ∀ f ∈ s.flights, f.pipelineId = some id → s.Guarded id f
  aside : ∀ c ∈ s.called, c.pipelineId = some id → s.Aside id

variable {s s' : System} {a : Action} {id : Id} {f : Flight} {job : Job}

theorem Wrote.untouched {written : List Job} {records : List Pipeline}
    (wrote : Wrote s s' written records) (others : ∀ k ∈ written, k.pipelineId ≠ some id)
    (otherRecords : ∀ r ∈ records, r.id ≠ id) :
    Store.Untouched s.engine.store s'.engine.store id where
  jobs jobId j stored owner := by
    rcases wrote.job_cases stored with ⟨member, _⟩ | ⟨before, _⟩
    · exact absurd owner (others j member)
    · exact ⟨j, before, owner, rfl, rfl⟩
  pipelines row found := by
    obtain ⟨r, before, same, ⟨kept, _⟩ | ⟨p, member, key, _⟩⟩ := wrote.edited.record_cases found
    · exact ⟨r, before, same.symm, by rw [kept]⟩
    · exact absurd key (otherRecords p member)

private theorem Guarded.of_untouched (guarded : s.Guarded id f)
    (untouched : Store.Untouched s.engine.store s'.engine.store id)
    (unread : f.stage = .waiting → ∀ c ∈ s'.scanned, f.headId? ≠ some c.id) : s'.Guarded id f where
  unread := unread
  scheduled waits jobId j head stored owner := by
    obtain ⟨i, before, owner', status, _⟩ := untouched.jobs jobId j stored owner
    exact status.symm.trans (guarded.scheduled waits jobId i head before owner')
  first waits row found := by
    obtain ⟨r, before, same, _⟩ := untouched.pipelines row found
    exact same ▸ guarded.first waits r before
  inProgress begun row found := by
    obtain ⟨r, before, _, status⟩ := untouched.pipelines row found
    exact status.symm.trans (guarded.inProgress begun r before)

private theorem Aside.of_untouched (aside : s.Aside id)
    (untouched : Store.Untouched s.engine.store s'.engine.store id)
    (grounded : ∀ f ∈ s'.flights, f.pipelineId ≠ some id)
    (unread : ∀ c ∈ s'.scanned, c.pipelineId ≠ some id) : s'.Aside id where
  grounded := grounded
  unread := unread
  undated jobId j stored owner := by
    obtain ⟨i, before, owner', _, runAt⟩ := untouched.jobs jobId j stored owner
    exact runAt.symm.trans (aside.undated jobId i before owner')

/-! ### What the steps keep -/

namespace Single

/-- With fewer flights and fewer jobs to submit, it is enough that a pipeline that still has any is
left alone. -/
theorem of_fewer (single : s.Single id) (flights : ∃ gone, s.flights.Perm (gone ++ s'.flights))
    (scanned : ∃ gone, s.scanned.Perm (gone ++ s'.scanned))
    (called : ∃ gone, s.called.Perm (gone ++ s'.called))
    (untouched : (∃ f ∈ s'.flights, f.pipelineId = some id) ∨
      (∃ c ∈ s'.called, c.pipelineId = some id) →
        Store.Untouched s.engine.store s'.engine.store id) : s'.Single id where
  flights := sole_of_fewer flights single.flights
  scanned jobId := sole_of_fewer scanned (single.scanned jobId)
  called := sole_of_fewer called single.called
  guarded f member owner := by
    have guarded := single.guarded f (mem_of_fewer flights member) owner
    refine guarded.of_untouched (untouched (Or.inl ⟨f, member, owner⟩)) fun waits c inside => ?_
    exact guarded.unread waits c (mem_of_fewer scanned inside)
  aside c member owner := by
    have aside := single.aside c (mem_of_fewer called member) owner
    exact aside.of_untouched (untouched (Or.inr ⟨c, member, owner⟩))
      (fun f inside => aside.grounded f (mem_of_fewer flights inside))
      fun c' inside => aside.unread c' (mem_of_fewer scanned inside)

private theorem called_of_taken (single : s.Single id) (taken : Taken s s' job)
    (owner : job.pipelineId = some id) : ∀ c ∈ s'.called, c.pipelineId ≠ some id := by
  rcases taken with ⟨⟨gone, scanned⟩, called⟩ | ⟨_, gone, called⟩
  · intro c member owner'
    have inside : job ∈ s.scanned := scanned.mem_iff.mpr (by simp)
    exact (single.aside c (called.mem_iff.mp member) owner').unread job inside owner
  · have sole := single.called
    rw [called.countP_eq] at sole
    exact fun c member => fresh_of_sole sole owner c (List.mem_append_right _ member)

/-- A pipeline of which a job can be sent has no flight. -/
theorem grounded (single : s.Single id) (taken : Taken s s' job) (idle : s.IsIdle job)
    (owner : job.pipelineId = some id) : ∀ f ∈ s.flights, f.pipelineId ≠ some id := by
  intro f member owner'
  rcases taken with ⟨⟨gone, scanned⟩, _⟩ | ⟨_, gone, called⟩
  · have guarded := single.guarded f member owner'
    obtain ⟨row, found, first, passive⟩ := idle id owner
    by_cases waits : f.stage = .waiting
    · refine guarded.unread waits job (scanned.mem_iff.mpr (by simp)) ?_
      exact (guarded.first waits row found).symm.trans first
    · rw [guarded.inProgress waits row found] at passive
      cases passive
  · exact (single.aside job (called.mem_iff.mpr (by simp)) owner).grounded f member owner'

/-- No other copy of a job that can be sent is to be submitted. -/
theorem unread_of_taken (single : s.Single id) (sound : s.Sound) (taken : Taken s s' job)
    (idle : s.IsIdle job) (owner : job.pipelineId = some id) :
    ∀ c ∈ s'.scanned, c.id ≠ job.id := by
  have copy := sound.copies job taken.mem
  obtain ⟨row, found, _⟩ := idle id owner
  obtain ⟨j, stored⟩ := sound.consistent.stored_of_owner copy owner found
  rcases taken with ⟨⟨gone, scanned⟩, _⟩ | ⟨scanned, gone, called⟩
  · have sole := single.scanned job.id
    rw [scanned.countP_eq] at sole
    exact fun c member => fresh_of_sole sole rfl c (List.mem_append_right _ member)
  · intro c member same
    have inside := scanned.mem_iff.mp member
    have copy' := sound.copies c (List.mem_append_left _ inside)
    refine (single.aside job (called.mem_iff.mpr (by simp)) owner).unread c inside ?_
    exact (copy'.same_owner copy same (same ▸ stored)).trans owner

private theorem called_of_changed (change : s.engine.Changed s'.engine)
    (distinct : Id.Distinct s'.engine.issued)
    (consistent : s.engine.store.Consistent s.engine.issued) (ticks : s'.ticks = s.ticks) :
    s'.called = s.called ∨ ∃ j, s'.called.Perm (j :: s.called) ∧
      ∀ id, j.pipelineId = some id → ¬Id.IsIssued s.engine.issued id ∧
        ∀ jobId k, s'.engine.store.jobs.get? jobId = some k → k.pipelineId = some id →
          k.runAt = none := by
  unfold System.called
  rw [ticks]
  rcases change.queue distinct consistent with same | ⟨j, longer, _, new⟩
  · exact Or.inl (by rw [same])
  · refine Or.inr ⟨j, ?_, new⟩
    rw [longer, List.append_assoc]
    exact List.perm_middle

theorem managed (single : s.Single id) (sound : s.Sound) (change : s.engine.Changed s'.engine)
    (distinct : Id.Distinct s'.engine.issued) (ticks : s'.ticks = s.ticks)
    (flights : s'.flights = s.flights) : s'.Single id := by
  have scanned : s'.scanned = s.scanned := by
    unfold System.scanned
    rw [ticks]
  have untouched (known : Id.IsIssued s.engine.issued id) :=
    change.untouched distinct sound.consistent known
  have guarded (f : Flight) (member : f ∈ s'.flights) (owner : f.pipelineId = some id) :
      s'.Guarded id f := by
    rw [flights] at member
    have guarded := single.guarded f member owner
    refine guarded.of_untouched (untouched ((sound.flights f member).ownerIssued owner)) ?_
    rw [scanned]
    exact guarded.unread
  have ownerIssued {c : Job} (member : c ∈ s.called) (owner : c.pipelineId = some id) :
      Id.IsIssued s.engine.issued id :=
    (sound.copies c (List.mem_append_right _ member)).ownerIssued id owner
  have aside {c : Job} (member : c ∈ s.called) (owner : c.pipelineId = some id) :
      s'.Aside id := by
    have aside := single.aside c member owner
    refine aside.of_untouched (untouched (ownerIssued member owner)) ?_ ?_
    · rw [flights]
      exact aside.grounded
    · rw [scanned]
      exact aside.unread
  rcases called_of_changed change distinct sound.consistent ticks with same | ⟨j, longer, new⟩
  · exact ⟨flights ▸ single.flights, scanned ▸ single.scanned, same ▸ single.called, guarded,
      fun c member => aside (same ▸ member)⟩
  · refine ⟨flights ▸ single.flights, scanned ▸ single.scanned, ?_, guarded,
      fun c member owner => ?_⟩
    · rw [longer.countP_eq]
      refine sole_cons single.called fun owner c member owner' => ?_
      exact (new id owner).1 (ownerIssued member owner')
    · rcases List.mem_cons.mp (longer.mem_iff.mp member) with rfl | old
      · obtain ⟨fresh, undated⟩ := new id owner
        refine ⟨fun f inside owner' => ?_, fun c' inside owner' => ?_, undated⟩
        · rw [flights] at inside
          exact fresh ((sound.flights f inside).ownerIssued owner')
        · rw [scanned] at inside
          exact fresh ((sound.copies c' (List.mem_append_left _ inside)).ownerIssued id owner')
      · exact aside old owner

theorem scan (single : s.Single id) (sound : s.Sound) {due : List Job} (alone : s.scanned = [])
    (read : s.engine.store.getDueJobs s.engine.now = .ok due) (engine : s'.engine = s.engine)
    (scanned : s'.scanned = s.scanned ++ due) (called : s'.called = s.called)
    (flights : s'.flights = s.flights) : s'.Single id := by
  rw [alone, List.nil_append] at scanned
  have store : s'.engine.store = s.engine.store := by rw [engine]
  have stays := Store.Untouched.of_eq (congrArg Store.jobs store) (congrArg Store.pipelines store) id
  refine ⟨flights ▸ single.flights, ?_, called ▸ single.called, fun f member owner => ?_,
    fun c member owner => ?_⟩
  · intro jobId
    have once := List.nodup_iff_count_le_one.mp (sound.consistent.nodup_due read) jobId
    rw [List.count, List.countP_map] at once
    rw [scanned]
    simpa only [Function.comp_def, beq_eq_decide] using once
  · rw [flights] at member
    have guarded := single.guarded f member owner
    refine guarded.of_untouched stays fun waits c inside head => ?_
    obtain ⟨j, stored, rereads, isDue⟩ := sound.consistent.stored_due read (scanned ▸ inside)
    have owned : j.pipelineId = some id := by
      obtain ⟨first, rest, jobs⟩ := List.exists_cons_of_ne_nil (sound.flights f member).nonempty
      obtain ⟨copy, owner'⟩ := (sound.flights f member).copies first (by simp [jobs])
      have same : first.id = c.id := Option.some.inj ((Flight.headId?_eq jobs).symm.trans head)
      exact (Job.pipelineId_of_origin (copy.agrees j (same ▸ stored))).trans (owner'.trans owner)
    have pending := Job.pending_of_isDue isDue
    rw [Job.status_reread rereads, guarded.scheduled waits c.id j head stored owned] at pending
    cases pending
  · rw [called] at member
    have aside := single.aside c member owner
    refine aside.of_untouched stays (flights ▸ aside.grounded) fun c' inside owner' => ?_
    obtain ⟨j, stored, rereads, isDue⟩ := sound.consistent.stored_due read (scanned ▸ inside)
    have owned : j.pipelineId = some id :=
      (Job.pipelineId_of_origin (Job.origin_reread rereads)).symm.trans owner'
    have undated : c'.runAt = none :=
      (Job.runAt_reread rereads).trans (aside.undated c'.id j stored owned)
    simp [Job.isDue, undated] at isDue

theorem look (single : s.Single id) (sound : s.Sound) {queued : Job}
    (read : s.engine.store.getJob queued.id = .ok job) (store : s'.engine.store = s.engine.store)
    (scanned : s'.scanned = s.scanned)
    (called : ∃ rest, s.called.Perm (queued :: rest) ∧ s'.called.Perm (job :: rest))
    (flights : s'.flights = s.flights) : s'.Single id := by
  obtain ⟨rest, before, after⟩ := called
  have same : job.pipelineId = queued.pipelineId := by
    have member : queued ∈ s.called := before.mem_iff.mpr List.mem_cons_self
    obtain ⟨copy, key⟩ := sound.consistent.isCopy_getJob read
    obtain ⟨j, stored, _⟩ := Store.getJob_ok read
    exact copy.same_owner (sound.copies queued (List.mem_append_right _ member)) key (key ▸ stored)
  have stays := Store.Untouched.of_eq (congrArg Store.jobs store) (congrArg Store.pipelines store) id
  refine ⟨flights ▸ single.flights, scanned ▸ single.scanned, ?_, fun f member owner => ?_,
    fun c member owner => ?_⟩
  · have sole := single.called
    rw [before.countP_eq, List.countP_cons] at sole
    rwa [after.countP_eq, List.countP_cons, same]
  · have guarded := single.guarded f (flights ▸ member) owner
    exact guarded.of_untouched stays (scanned ▸ guarded.unread)
  · obtain ⟨c', inside, owner'⟩ : ∃ c' ∈ s.called, c'.pipelineId = some id := by
      rcases List.mem_cons.mp (after.mem_iff.mp member) with rfl | old
      · exact ⟨queued, before.mem_iff.mpr List.mem_cons_self, same.symm.trans owner⟩
      · exact ⟨c, before.mem_iff.mpr (List.mem_cons_of_mem _ old), owner⟩
    have aside := single.aside c' inside owner'
    exact aside.of_untouched stays (flights ▸ aside.grounded) (scanned ▸ aside.unread)

theorem send (single : s.Single id) (sound : s.Sound) {rest : List Job} (taken : Taken s s' job)
    (wrote : Wrote s s' [job.markScheduled s.engine.now] []) (stage : f.stage = .waiting)
    (jobs : f.jobs = job.markScheduled s.engine.now :: rest) (owner : f.pipelineId = job.pipelineId)
    (idle : s.IsIdle job) (flights : s'.flights.Perm (f :: s.flights)) : s'.Single id := by
  have head : f.headId? = some job.id := (Flight.headId?_eq jobs).trans rfl
  have untouched (other : job.pipelineId ≠ some id) :=
    wrote.untouched (fun k member => by rwa [List.mem_singleton.mp member]) (by simp)
  obtain ⟨scanned, called⟩ := taken.gone
  refine ⟨?_, fun jobId => sole_of_fewer scanned (single.scanned jobId),
    sole_of_fewer called single.called, fun g member owner' => ?_, fun c member owner' => ?_⟩
  · rw [flights.countP_eq]
    refine sole_cons single.flights fun own => ?_
    exact single.grounded taken idle (owner.symm.trans own)
  · rcases List.mem_cons.mp (flights.mem_iff.mp member) with rfl | old
    · have own := owner.symm.trans owner'
      refine ⟨fun _ c inside same => ?_, fun _ jobId j here stored _ => ?_, fun _ row found => ?_,
        absurd stage⟩
      · rw [head] at same
        exact single.unread_of_taken sound taken idle own c inside (Option.some.inj same).symm
      · cases head.symm.trans here
        rcases wrote.job_cases stored with ⟨inside, _⟩ | ⟨_, others⟩
        · cases List.mem_singleton.mp inside
          rfl
        · exact absurd rfl (others (job.markScheduled s.engine.now) (List.mem_singleton_self _))
      · rw [wrote.edited.pipelines] at found
        obtain ⟨row', found', first, _⟩ := idle id own
        cases found.symm.trans found'
        exact first.trans head.symm
    · have guarded := single.guarded g old owner'
      have other : job.pipelineId ≠ some id := fun own =>
        single.grounded taken idle own g old owner'
      exact guarded.of_untouched (untouched other) fun waits c inside =>
        guarded.unread waits c (mem_of_fewer scanned inside)
  · have aside := single.aside c (mem_of_fewer called member) owner'
    have other : job.pipelineId ≠ some id := fun own => single.called_of_taken taken own c member owner'
    refine aside.of_untouched (untouched other) (fun g inside own => ?_) fun c' inside =>
      aside.unread c' (mem_of_fewer scanned inside)
    rcases List.mem_cons.mp (flights.mem_iff.mp inside) with rfl | old
    · exact other (owner.symm.trans own)
    · exact aside.grounded g old own

/-- A flight that is begun, and moves on or ends, touches nothing but its own pipeline. -/
theorem of_moved {written : List Job} {records : List Pipeline} {others : List Flight}
    (single : s.Single id) (left : Option Flight) (wrote : Wrote s s' written records)
    (own : ∀ k ∈ written, k.pipelineId = f.pipelineId)
    (ownRecords : ∀ r ∈ records, f.pipelineId = some r.id) (before : s.flights.Perm (f :: others))
    (after : s'.flights.Perm (left.toList ++ others)) (apart : Apart s s')
    (owner : ∀ g ∈ left, g.pipelineId = f.pipelineId) (begun : ∀ g ∈ left, g.stage ≠ .waiting)
    (inProgress : ∀ g ∈ left, ∀ row, f.pipelineId = some id →
      s'.engine.store.pipelines.get? id = some row → row.record.status = .inProgress) :
    s'.Single id := by
  have sole := single.flights
  rw [before.countP_eq] at sole
  have untouched (other : f.pipelineId ≠ some id) :=
    wrote.untouched (fun k member => own k member ▸ other)
      fun r member same => other ((ownRecords r member).trans (congrArg some same))
  refine ⟨?_, apart.scanned ▸ single.scanned, apart.called ▸ single.called,
    fun g member owner' => ?_, fun c member owner' => ?_⟩
  · rw [after.countP_eq]
    cases left with
    | none => exact sole_of_fewer ⟨[f], .refl _⟩ sole
    | some g =>
      rw [List.countP_cons] at sole
      rwa [Option.toList_some, List.cons_append, List.nil_append, List.countP_cons, owner g rfl]
  · rcases List.mem_append.mp (after.mem_iff.mp member) with moved | old
    · have here := Option.mem_toList.mp moved
      have waits := begun g here
      refine ⟨fun now => absurd now waits, fun now => absurd now waits, fun now => absurd now waits,
        fun _ row found => ?_⟩
      exact inProgress g here row ((owner g here).symm.trans owner') found
    · have guarded :=
        single.guarded g (before.mem_iff.mpr (List.mem_cons_of_mem _ old)) owner'
      have other : f.pipelineId ≠ some id := fun same => fresh_of_sole sole same g old owner'
      exact guarded.of_untouched (untouched other) (apart.scanned ▸ guarded.unread)
  · have aside := single.aside c (apart.called ▸ member) owner'
    have other := aside.grounded f (before.mem_iff.mpr List.mem_cons_self)
    refine aside.of_untouched (untouched other) (fun g inside own => ?_)
      (apart.scanned ▸ aside.unread)
    rcases List.mem_append.mp (after.mem_iff.mp inside) with moved | old
    · exact other ((owner g (Option.mem_toList.mp moved)).symm.trans own)
    · exact aside.grounded g (before.mem_iff.mpr (List.mem_cons_of_mem _ old)) own

end Single

/-! ### Runs -/

/-- A scan is made only when the last one has nothing left to submit. -/
def ScansAlone (s : System) (a : Action) : Prop := a.isScan = true → s.scanned = []

def armed? (s : System) : Action → Option Id
  | .submit place => do
    let job ← s.next? place
    let id ← job.pipelineId
    match s.engine.store.getPipeline id with
    | .ok p => if p.isRearmed then some id else none
    | .error _ => none
  | _ => none

/-- No tick arms the pipeline `id` while a work of it is on its way. -/
def ArmsGrounded (id : Id) (s : System) (a : Action) : Prop :=
  s.armed? a = some id → ∀ f ∈ s.flights, f.pipelineId ≠ some id

private theorem inProgress_of_started {f f' : Flight} {records : List Pipeline} {written : List Job}
    (wrote : Wrote s s' written records) (single : s.Single id) (member : f ∈ s.flights)
    (owner : f'.pipelineId = f.pipelineId) (known : f'.record.map (·.id) = f'.pipelineId)
    (inProgress : ∀ p, f'.record = some p → p.status = .inProgress)
    (begins : f.stage = .waiting ∧ records = f'.record.toList ∨
      f.stage = .between ∧ records = [] ∧ f'.record = f.record) {row : PipelineRow}
    (owned : f.pipelineId = some id) (found : s'.engine.store.pipelines.get? id = some row) :
    row.record.status = .inProgress := by
  rcases begins with ⟨_, rfl⟩ | ⟨stage, rfl, _⟩
  · obtain ⟨p, whole, key⟩ := Option.map_eq_some_iff.mp (known.trans (owner.trans owned))
    obtain ⟨r, _, _, ⟨_, others⟩ | ⟨q, inside, _, replaced⟩⟩ := wrote.edited.record_cases found
    · exact absurd key (others p (Option.mem_toList.mpr whole))
    · rw [replaced]
      exact inProgress q (Option.mem_toList.mp inside)
  · rw [wrote.edited.pipelines] at found
    exact (single.guarded f member owned).inProgress (by simp [stage]) row found

theorem Step.single (step : Step s a s') (sound : s.Sound) (single : s.Single id)
    (distinct : Id.Distinct s'.engine.issued) (alone : s.ScansAlone a) (grounded : ArmsGrounded id s a) :
    s'.Single id := by
  have same {l l' : List Flight} (flights : l' = l) : ∃ gone, l.Perm (gone ++ l') :=
    ⟨[], flights ▸ .refl _⟩
  have ownJob {f : Flight} {job : Job} {others : List Flight} {waiting : List Job}
      (before : s.flights.Perm (f :: others)) (jobs : f.jobs = job :: waiting) :
      f ∈ s.flights ∧ job.pipelineId = f.pipelineId := by
    have member : f ∈ s.flights := before.mem_iff.mpr List.mem_cons_self
    exact ⟨member, ((sound.flights f member).copies job (by simp [jobs])).2⟩
  cases step with
  | quiet jobs pipelines _ _ scanned called flights =>
    exact single.of_fewer ⟨[], flights.symm⟩ scanned called fun _ => .of_eq jobs pipelines id
  | managed change ticks held =>
    refine single.managed sound change.change distinct ticks ?_
    unfold System.flights
    rw [change.pool, held]
  | scanned due asked read engine scanned called flights =>
    subst asked
    exact single.scan sound (alone rfl) read engine scanned called flights
  | looked queued job read store _ scanned called flights =>
    exact single.look sound read store scanned called flights
  | rearmed job own p written records taken owner read holds wrote pendingJobs pendingRecords asked
      flights =>
    obtain ⟨place, rfl, next⟩ := asked
    have arms : s.armed? (.submit place) = some own := by
      simp [armed?, next, owner, read, holds]
    obtain ⟨scanned, called⟩ := taken.gone
    refine single.of_fewer (same flights) scanned called fun has => ?_
    have different : own ≠ id := by
      rintro rfl
      rcases has with ⟨f, member, owner'⟩ | ⟨c, member, owner'⟩
      · exact grounded arms f (flights ▸ member) owner'
      · exact single.called_of_taken taken owner c member owner'
    refine wrote.untouched (fun k member => ?_) fun r member => ?_
    · simpa [(pendingJobs k member).2] using different
    · rwa [(pendingRecords r member).1]
  | refused job written taken wrote own idle _ flights =>
    obtain ⟨scanned, called⟩ := taken.gone
    refine single.of_fewer (same flights) scanned called fun has => ?_
    refine wrote.untouched (fun k member owner => ?_) (by simp)
    rw [Job.pipelineId_of_origin (own k member)] at owner
    rcases has with ⟨f, member, owner'⟩ | ⟨c, member, owner'⟩
    · exact single.grounded taken idle owner f (flights ▸ member) owner'
    · exact single.called_of_taken taken owner c member owner'
  | sent job f rest taken wrote stage jobs _ owner _ idle flights =>
    exact single.send sound taken wrote stage jobs owner idle flights
  | started f f' others job waiting records before after apart jobs _ stage owner known inProgress
      wrote begins =>
    obtain ⟨member, owned⟩ := ownJob before jobs
    refine single.of_moved (some f') wrote (fun k inside => ?_)
      (ownRecords_of_begins owner known begins) before after apart ?_ ?_ ?_
    · rw [List.mem_singleton.mp inside]
      exact owned
    · simpa using owner
    · simp [stage]
    · rintro g ⟨⟩ row
      exact inProgress_of_started wrote single member owner known inProgress begins
  | paused f f' others job k waiting before after apart stage stage' jobs _ _ _ owner wrote origin =>
    obtain ⟨member, owned⟩ := ownJob before jobs
    refine single.of_moved (some f') wrote (fun k' inside => ?_) (by simp) before after apart ?_ ?_ ?_
    · rw [List.mem_singleton.mp inside]
      exact (Job.pipelineId_of_origin origin).trans owned
    · simpa using owner
    · simp [stage']
    · rintro g ⟨⟩ row here found
      rw [wrote.edited.pipelines] at found
      exact (single.guarded f member here).inProgress (by simp [stage]) row found
  | ended f others job waiting written records before after apart jobs wrote own ownRecords =>
    obtain ⟨_, owned⟩ := ownJob before jobs
    refine single.of_moved none wrote (fun k inside => ?_) ownRecords before after apart
      (by simp) (by simp) (by simp)
    exact (Job.pipelineId_of_origin (own k inside)).trans owned
  | abandoned _ gone _ store _ scanned called flights =>
    exact single.of_fewer ⟨gone, flights⟩ scanned called fun _ =>
      .of_eq (congrArg Store.jobs store) (congrArg Store.pipelines store) id

variable {now : Instant} {registry : Registry} {queueCapacity : Nat} {unit : TimeUnit}
  {workers poolCapacity : Nat} {actions : List Action}

/-- As long as scans come one after the other, a pipeline has two works on their way only after a
tick has armed it while it had one. -/
theorem single_run (made : new? now registry queueCapacity unit workers poolCapacity = some s)
    (short : ∀ a ∈ actions, a.IsShort) (distinct : Id.Distinct (s.run actions).engine.issued)
    (alone : Along ScansAlone s actions) (id : Id) (grounded : Along (ArmsGrounded id) s actions) :
    (s.run actions).flights.countP (·.pipelineId = some id) ≤ 1 := by
  have start : s.Single id := by
    obtain ⟨_, _, scanned, called, flights⟩ := new_eq made
    refine ⟨?_, ?_, ?_, ?_, ?_⟩ <;> simp [scanned, called, flights]
  exact (run_keeps (P := (Single · id))
    (fun t a sound single both distinct step => step.single sound single distinct both.1 both.2)
    (sound_new made) start (alone.and grounded) short distinct).2.flights

instance (s : System) (a : Action) : Decidable (s.ScansAlone a) :=
  inferInstanceAs (Decidable (a.isScan = true → s.scanned = []))

instance (id : Id) (s : System) (a : Action) : Decidable (ArmsGrounded id s a) :=
  inferInstanceAs (Decidable (s.armed? a = some id → ∀ f ∈ s.flights, f.pipelineId ≠ some id))

theorem single_firstJob : Along (ArmsGrounded (.issued 0)) start firstJob ∧
    (start.run firstJob).flights.countP (·.pipelineId = some (.issued 0)) ≤ 1 := by
  have grounded : Along (ArmsGrounded (.issued 0)) start firstJob := by decide +kernel
  exact ⟨grounded, single_run new_start short_firstJob distinct_firstJob (by decide +kernel)
    (.issued 0) grounded⟩

def TicksAlone (s : System) (a : Action) : Prop :=
  a.isTick = true → ∀ t ∈ s.ticks, t.isOver s.engine.pool = true

instance (s : System) (a : Action) : Decidable (s.TicksAlone a) :=
  inferInstanceAs (Decidable (a.isTick = true → ∀ t ∈ s.ticks, t.isOver s.engine.pool = true))

/-- While the second job runs the pipeline is disabled, the first job comes due, and the pipeline is
enabled again. -/
def secondWork : List Action :=
  firstJob ++ [.updatePipeline (.issued 0) ⟨none, none, some true, none⟩, .advance 2000, .scan,
    .submit 1, .updatePipeline (.issued 0) ⟨none, none, some false, none⟩, .advance 2000, .scan,
    .submit 2]

theorem overlap_of_armed : ∃ actions, (∀ a ∈ actions, a.IsShort) ∧
    Id.Distinct (start.run actions).engine.issued ∧ Along TicksAlone start actions ∧
    (∀ place, .abandon place ∉ actions) ∧
    1 < (start.run actions).flights.countP (·.pipelineId = some (.issued 0)) := by
  refine ⟨secondWork, ?_, Id.distinct_of_le (by decide +kernel), by decide +kernel, ?_,
    by decide +kernel⟩
  · simp [secondWork, firstJob, Action.IsShort, exampleRequest]
  · simp [secondWork, firstJob]

end System

end Rota
