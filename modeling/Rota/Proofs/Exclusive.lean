import Rota.Proofs.Overlap
/-! No standalone job has two works on its way.
A standalone job comes to the pool through a scan or through the queue. A job in the queue has no
run time, so no scan reads it, and it is in the queue only once. A job with a work on its way is
active, so no scan reads it either, and no tick holds an older copy of it. -/
namespace Rota

def Job.IsAlone (id : Id) (c : Job) : Prop := c.id = id ∧ c.pipelineId = none

def Flight.IsAlone (id : Id) (f : Flight) : Prop := f.pipelineId = none ∧ f.headId? = some id

instance (id : Id) : DecidablePred (Job.IsAlone id) := fun c =>
  inferInstanceAs (Decidable (c.id = id ∧ c.pipelineId = none))

instance (id : Id) : DecidablePred (Flight.IsAlone id) := fun f =>
  inferInstanceAs (Decidable (f.pipelineId = none ∧ f.headId? = some id))

private theorem Job.isAlone_of_origin {id : Id} {j k : Job} (same : j.origin = k.origin) :
    j.IsAlone id ↔ k.IsAlone id := by
  rw [IsAlone, IsAlone, Job.id_of_origin same, Job.pipelineId_of_origin same]

theorem Flight.isAlone_iff {id : Id} {f : Flight} {job : Job} {waiting : List Job}
    (jobs : f.jobs = job :: waiting) (owner : job.pipelineId = f.pipelineId) :
    f.IsAlone id ↔ job.IsAlone id := by
  rw [IsAlone, Job.IsAlone, headId?_eq jobs, Option.some_inj, owner, and_comm]

/-- The standalone job `id` has the status and the run time that it had, if it is still stored. -/
def Store.Spares (s s' : Store) (id : Id) : Prop :=
  ∀ j, s'.jobs.get? id = some j → j.IsAlone id →
    ∃ i, s.jobs.get? id = some i ∧ i.IsAlone id ∧ i.status = j.status ∧ i.runAt = j.runAt

theorem Store.Spares.of_eq {s s' : Store} (jobs : s'.jobs = s.jobs) (id : Id) : Spares s s' id :=
  fun j stored alone => ⟨j, jobs ▸ stored, alone, rfl, rfl⟩

theorem Engine.Changed.spares {e e' : Engine} {id : Id} (change : e.Changed e')
    (distinct : Id.Distinct e'.issued) (issued : Id.IsIssued e.issued id) :
    Store.Spares e.store e'.store id := by
  intro j stored alone
  rcases change.job_cases distinct stored with ⟨fresh, _⟩ | ⟨i, before, origin, status, runAt⟩
  · exact absurd issued fresh
  · exact ⟨i, before, (Job.isAlone_of_origin origin).mpr alone, status, runAt⟩

namespace System

structure Busy (s : System) (id : Id) : Prop where
  unread : ∀ c ∈ s.scanned ++ s.called, ¬c.IsAlone id
  active : ∀ j, s.engine.store.jobs.get? id = some j → j.IsAlone id → j.status.isActive = true

/-- What holds of the standalone job `id` from its call on until a tick has submitted it. -/
structure Awaited (s : System) (id : Id) : Prop where
  unread : ∀ c ∈ s.scanned, ¬c.IsAlone id
  undated : ∀ j, s.engine.store.jobs.get? id = some j → j.IsAlone id → j.runAt = none

/-- The standalone job `id` has at most one work on its way, and what keeps it so. -/
structure Exclusive (s : System) (id : Id) : Prop where
  flights : s.flights.countP (·.IsAlone id) ≤ 1
  scanned : s.scanned.countP (·.IsAlone id) ≤ 1
  called : s.called.countP (·.IsAlone id) ≤ 1
  busy : (∃ f ∈ s.flights, f.IsAlone id) → s.Busy id
  awaited : (∃ c ∈ s.called, c.IsAlone id) → s.Awaited id

variable {s s' : System} {a : Action} {id : Id} {f : Flight} {job : Job}

private theorem Busy.of_spared (busy : s.Busy id)
    (spares : Store.Spares s.engine.store s'.engine.store id)
    (unread : ∀ c ∈ s'.scanned ++ s'.called, ¬c.IsAlone id) : s'.Busy id where
  unread := unread
  active j stored alone := by
    obtain ⟨i, before, alone', status, _⟩ := spares j stored alone
    exact status ▸ busy.active i before alone'

private theorem Awaited.of_spared (awaited : s.Awaited id)
    (spares : Store.Spares s.engine.store s'.engine.store id)
    (unread : ∀ c ∈ s'.scanned, ¬c.IsAlone id) : s'.Awaited id where
  unread := unread
  undated j stored alone := by
    obtain ⟨i, before, alone', _, runAt⟩ := spares j stored alone
    exact runAt.symm.trans (awaited.undated i before alone')

theorem Wrote.spares {written : List Job} {records : List Pipeline}
    (wrote : Wrote s s' written records) (others : ∀ k ∈ written, ¬k.IsAlone id) :
    Store.Spares s.engine.store s'.engine.store id := by
  intro j stored alone
  rcases wrote.job_cases stored with ⟨member, _⟩ | ⟨before, _⟩
  · exact absurd alone (others j member)
  · exact ⟨j, before, alone, rfl, rfl⟩

namespace Exclusive

/-! ### What the steps keep -/

/-- With fewer flights and fewer jobs to submit, it is enough that a job that still has any is left
alone. -/
theorem of_fewer (exclusive : s.Exclusive id)
    (flights : ∃ gone, s.flights.Perm (gone ++ s'.flights))
    (scanned : ∃ gone, s.scanned.Perm (gone ++ s'.scanned))
    (called : ∃ gone, s.called.Perm (gone ++ s'.called))
    (spares : (∃ f ∈ s'.flights, f.IsAlone id) ∨ (∃ c ∈ s'.called, c.IsAlone id) →
      Store.Spares s.engine.store s'.engine.store id) : s'.Exclusive id where
  flights := sole_of_fewer flights exclusive.flights
  scanned := sole_of_fewer scanned exclusive.scanned
  called := sole_of_fewer called exclusive.called
  busy := by
    rintro ⟨f, member, alone⟩
    have busy := exclusive.busy ⟨f, mem_of_fewer flights member, alone⟩
    refine busy.of_spared (spares (Or.inl ⟨f, member, alone⟩)) fun c inside => busy.unread c ?_
    rcases List.mem_append.mp inside with inScan | inCall
    · exact List.mem_append_left _ (mem_of_fewer scanned inScan)
    · exact List.mem_append_right _ (mem_of_fewer called inCall)
  awaited := by
    rintro ⟨c, member, alone⟩
    have awaited := exclusive.awaited ⟨c, mem_of_fewer called member, alone⟩
    exact awaited.of_spared (spares (Or.inr ⟨c, member, alone⟩)) fun c' inside =>
      awaited.unread c' (mem_of_fewer scanned inside)

/-- The flights that are left have not moved, and ticks and queue had no part in it. -/
theorem of_apart (exclusive : s.Exclusive id) (flights : ∃ gone, s.flights.Perm (gone ++ s'.flights))
    (apart : Apart s s') (spares : Store.Spares s.engine.store s'.engine.store id) :
    s'.Exclusive id :=
  exclusive.of_fewer flights ⟨[], by simp [apart.scanned]⟩ ⟨[], by simp [apart.called]⟩
    fun _ => spares

/-- A job that a tick takes to submit it has no flight. -/
theorem grounded_of_taken (exclusive : s.Exclusive id) (taken : Taken s s' job)
    (alone : job.IsAlone id) : ∀ f ∈ s.flights, ¬f.IsAlone id := by
  intro f member same
  exact (exclusive.busy ⟨f, member, same⟩).unread job taken.mem alone

/-- When a tick takes a job to submit it, no other copy of it is left to submit. -/
theorem unread_of_taken (exclusive : s.Exclusive id) (taken : Taken s s' job)
    (alone : job.IsAlone id) : ∀ c ∈ s'.scanned ++ s'.called, ¬c.IsAlone id := by
  intro c member same
  rcases taken with ⟨⟨gone, scanned⟩, called⟩ | ⟨scanned, gone, called⟩
  · have here : job ∈ s.scanned := scanned.mem_iff.mpr (by simp)
    rcases List.mem_append.mp member with inScan | inCall
    · have sole := exclusive.scanned
      rw [scanned.countP_eq] at sole
      exact fresh_of_sole sole alone c (List.mem_append_right _ inScan) same
    · exact (exclusive.awaited ⟨c, called.mem_iff.mp inCall, same⟩).unread job here alone
  · have here : job ∈ s.called := called.mem_iff.mpr (by simp)
    rcases List.mem_append.mp member with inScan | inCall
    · exact (exclusive.awaited ⟨job, here, alone⟩).unread c (scanned.mem_iff.mp inScan) same
    · have sole := exclusive.called
      rw [called.countP_eq] at sole
      exact fresh_of_sole sole alone c (List.mem_append_right _ inCall) same

theorem managed (exclusive : s.Exclusive id) (sound : s.Sound)
    (change : s.engine.Changed s'.engine) (distinct : Id.Distinct s'.engine.issued)
    (ticks : s'.ticks = s.ticks) (flights : s'.flights = s.flights) : s'.Exclusive id := by
  have scanned : s'.scanned = s.scanned := by
    unfold System.scanned
    rw [ticks]
  have flown {f : Flight} (member : f ∈ s.flights) (alone : f.IsAlone id) :
      Id.IsIssued s.engine.issued id := by
    obtain ⟨first, rest, jobs⟩ := List.exists_cons_of_ne_nil (sound.flights f member).nonempty
    obtain ⟨copy, owner⟩ := (sound.flights f member).copies first (by simp [jobs])
    exact ((Flight.isAlone_iff jobs owner).mp alone).1 ▸ copy.issued
  have listed {c : Job} (member : c ∈ s.scanned ++ s.called) (alone : c.IsAlone id) :
      Id.IsIssued s.engine.issued id :=
    alone.1 ▸ (sound.copies c member).issued
  rcases change.queue_alone distinct with same | ⟨j, longer, new⟩
  · refine exclusive.of_fewer ⟨[], by simp [flights]⟩ ⟨[], by simp [scanned]⟩ ⟨[], ?_⟩ fun has => ?_
    · simp [System.called, ticks, same]
    · refine change.spares distinct ?_
      rcases has with ⟨f, member, alone⟩ | ⟨c, member, alone⟩
      · exact flown (flights ▸ member) alone
      · refine listed (c := c) (List.mem_append_right _ ?_) alone
        simpa [System.called, ticks, same] using member
  · have called : s'.called.Perm (j :: s.called) := by
      unfold System.called
      rw [ticks, longer, List.append_assoc]
      exact List.perm_middle
    have split {c : Job} (member : c ∈ s'.scanned ++ s'.called) :
        c = j ∨ c ∈ s.scanned ++ s.called := by
      simp only [List.mem_append, called.mem_iff, scanned, List.mem_cons] at member ⊢
      tauto
    refine ⟨flights ▸ exclusive.flights, scanned ▸ exclusive.scanned, ?_, ?_, ?_⟩
    · rw [called.countP_eq]
      refine sole_cons exclusive.called fun alone c member same => (new alone.2).1 ?_
      exact alone.1 ▸ listed (List.mem_append_right _ member) same
    · rintro ⟨f, member, alone⟩
      rw [flights] at member
      have busy := exclusive.busy ⟨f, member, alone⟩
      refine busy.of_spared (change.spares distinct (flown member alone)) fun c inside same => ?_
      rcases split inside with rfl | old
      · exact (new same.2).1 (same.1 ▸ flown member alone)
      · exact busy.unread c old same
    · rintro ⟨c, member, alone⟩
      rcases List.mem_cons.mp (called.mem_iff.mp member) with rfl | old
      · obtain ⟨fresh, stored, undated⟩ := new alone.2
        refine ⟨fun c' inside same => fresh ?_, fun i stored' _ => ?_⟩
        · exact alone.1 ▸ listed (List.mem_append_left _ (scanned ▸ inside)) same
        · rw [alone.1, stored'] at stored
          cases stored
          exact undated
      · have awaited := exclusive.awaited ⟨c, old, alone⟩
        refine awaited.of_spared (change.spares distinct ?_) (scanned ▸ awaited.unread)
        exact listed (List.mem_append_right _ old) alone

theorem scan (exclusive : s.Exclusive id) (sound : s.Sound) {due : List Job}
    (nothing : s.scanned = []) (read : s.engine.store.getDueJobs s.engine.now = .ok due)
    (engine : s'.engine = s.engine) (scanned : s'.scanned = s.scanned ++ due)
    (called : s'.called = s.called) (flights : s'.flights = s.flights) : s'.Exclusive id := by
  rw [nothing, List.nil_append] at scanned
  have spares : Store.Spares s.engine.store s'.engine.store id := .of_eq (by rw [engine]) id
  -- What the scan has read of the job is what is stored.
  have found {c : Job} (inside : c ∈ due) (alone : c.IsAlone id) :
      ∃ j, s.engine.store.jobs.get? id = some j ∧ j.IsAlone id ∧ j.status = .pending ∧
        j.runAt ≠ none := by
    obtain ⟨j, stored, rereads, isDue⟩ := sound.consistent.stored_due read inside
    have origin := Job.origin_reread rereads
    refine ⟨j, alone.1 ▸ stored, (Job.isAlone_of_origin origin).mp alone, ?_, fun undated => ?_⟩
    · exact (Job.status_reread rereads).symm.trans (Job.pending_of_isDue isDue)
    · simp [Job.isDue, Job.runAt_reread rereads, undated] at isDue
  refine ⟨flights ▸ exclusive.flights, ?_, called ▸ exclusive.called, ?_, ?_⟩
  · have once := List.nodup_iff_count_le_one.mp (sound.consistent.nodup_due read) id
    rw [List.count, List.countP_map] at once
    rw [scanned]
    refine Nat.le_trans (List.countP_mono_left fun c _ alone => ?_) once
    simpa using (of_decide_eq_true alone).1
  · rw [flights]
    rintro flown
    have busy := exclusive.busy flown
    refine busy.of_spared spares fun c inside alone => ?_
    rcases List.mem_append.mp inside with inScan | inCall
    · obtain ⟨j, stored, alone', pending, _⟩ := found (scanned ▸ inScan) alone
      have active := busy.active j stored alone'
      rw [pending] at active
      cases active
    · exact busy.unread c (List.mem_append_right _ (called ▸ inCall)) alone
  · rw [called]
    rintro waits
    have awaited := exclusive.awaited waits
    refine awaited.of_spared spares fun c inside alone => ?_
    obtain ⟨j, stored, alone', _, dated⟩ := found (scanned ▸ inside) alone
    exact dated (awaited.undated j stored alone')

theorem look (exclusive : s.Exclusive id) (sound : s.Sound) {queued : Job}
    (read : s.engine.store.getJob queued.id = .ok job) (store : s'.engine.store = s.engine.store)
    (scanned : s'.scanned = s.scanned)
    (called : ∃ rest, s.called.Perm (queued :: rest) ∧ s'.called.Perm (job :: rest))
    (flights : s'.flights = s.flights) : s'.Exclusive id := by
  obtain ⟨rest, before, after⟩ := called
  have spares : Store.Spares s.engine.store s'.engine.store id := .of_eq (by rw [store]) id
  have same : job.IsAlone id ↔ queued.IsAlone id := by
    have member : queued ∈ s.called := before.mem_iff.mpr List.mem_cons_self
    obtain ⟨copy, key⟩ := sound.consistent.isCopy_getJob read
    obtain ⟨j, stored, _⟩ := Store.getJob_ok read
    have owner := copy.same_owner (sound.copies queued (List.mem_append_right _ member)) key
      (key ▸ stored)
    rw [Job.IsAlone, Job.IsAlone, key, owner]
  have origin {c : Job} (member : c ∈ s'.called) (alone : c.IsAlone id) :
      ∃ c' ∈ s.called, c'.IsAlone id := by
    rcases List.mem_cons.mp (after.mem_iff.mp member) with rfl | old
    · exact ⟨queued, before.mem_iff.mpr List.mem_cons_self, same.mp alone⟩
    · exact ⟨c, before.mem_iff.mpr (List.mem_cons_of_mem _ old), alone⟩
  refine ⟨flights ▸ exclusive.flights, scanned ▸ exclusive.scanned, ?_, fun flown => ?_, ?_⟩
  · have sole := exclusive.called
    rw [before.countP_eq, List.countP_cons] at sole
    rw [after.countP_eq, List.countP_cons]
    simpa only [same] using sole
  · have busy := exclusive.busy (flights ▸ flown)
    refine busy.of_spared spares fun c inside alone => ?_
    rcases List.mem_append.mp inside with inScan | inCall
    · exact busy.unread c (List.mem_append_left _ (scanned ▸ inScan)) alone
    · obtain ⟨c', inside', alone'⟩ := origin inCall alone
      exact busy.unread c' (List.mem_append_right _ inside') alone'
  · rintro ⟨c, member, alone⟩
    exact (exclusive.awaited (origin member alone)).of_spared spares
      (scanned ▸ (exclusive.awaited (origin member alone)).unread)

theorem send (exclusive : s.Exclusive id) {rest : List Job} (taken : Taken s s' job)
    (wrote : Wrote s s' [job.markScheduled s.engine.now] [])
    (jobs : f.jobs = job.markScheduled s.engine.now :: rest) (owner : f.pipelineId = job.pipelineId)
    (flights : s'.flights.Perm (f :: s.flights)) : s'.Exclusive id := by
  have head : f.IsAlone id ↔ job.IsAlone id :=
    (Flight.isAlone_iff jobs owner.symm).trans (Job.isAlone_of_origin (Job.origin_markScheduled job _))
  obtain ⟨scanned, called⟩ := taken.gone
  by_cases alone : job.IsAlone id
  · have unread := exclusive.unread_of_taken taken alone
    refine ⟨?_, sole_of_fewer scanned exclusive.scanned, sole_of_fewer called exclusive.called,
      fun _ => ⟨unread, fun j stored _ => ?_⟩, ?_⟩
    · rw [flights.countP_eq]
      exact sole_cons exclusive.flights fun _ => exclusive.grounded_of_taken taken alone
    · rcases wrote.job_cases stored with ⟨member, _⟩ | ⟨_, others⟩
      · cases List.mem_singleton.mp member
        rfl
      · exact absurd alone.1 (others (job.markScheduled s.engine.now) (List.mem_singleton_self _))
    · rintro ⟨c, member, same⟩
      exact absurd same (unread c (List.mem_append_right _ member))
  · have spares : Store.Spares s.engine.store s'.engine.store id :=
      wrote.spares fun k member => by
        rw [List.mem_singleton.mp member]
        exact alone
    -- Without the new flight, the system has only fewer jobs to submit.
    have old (flown : ∃ g ∈ s'.flights, g.IsAlone id) : ∃ g ∈ s.flights, g.IsAlone id := by
      obtain ⟨g, member, same⟩ := flown
      rcases List.mem_cons.mp (flights.mem_iff.mp member) with rfl | before
      · exact absurd (head.mp same) alone
      · exact ⟨g, before, same⟩
    refine ⟨?_, sole_of_fewer scanned exclusive.scanned, sole_of_fewer called exclusive.called,
      fun flown => ?_, ?_⟩
    · rw [flights.countP_eq]
      exact sole_cons exclusive.flights fun same => absurd (head.mp same) alone
    · have busy := exclusive.busy (old flown)
      exact busy.of_spared spares fun c member => busy.unread c (taken.subset member)
    · rintro ⟨c, member, same⟩
      have awaited := exclusive.awaited ⟨c, mem_of_fewer called member, same⟩
      exact awaited.of_spared spares fun c' inside => awaited.unread c' (mem_of_fewer scanned inside)

/-- A worker starts the job that it holds: the flight stays where it was. -/
theorem started {f' : Flight} {others : List Flight} {waiting : List Job} {records : List Pipeline}
    (exclusive : s.Exclusive id) (before : s.flights.Perm (f :: others))
    (after : s'.flights.Perm (f' :: others)) (apart : Apart s s') (jobs : f.jobs = job :: waiting)
    (jobs' : f'.jobs = job.markStarted s.engine.now :: waiting)
    (owned : job.pipelineId = f.pipelineId) (owner : f'.pipelineId = f.pipelineId)
    (wrote : Wrote s s' [job.markStarted s.engine.now] records) : s'.Exclusive id := by
  have head : f.IsAlone id ↔ job.IsAlone id := Flight.isAlone_iff jobs owned
  have head' : f'.IsAlone id ↔ (job.markStarted s.engine.now).IsAlone id :=
    Flight.isAlone_iff jobs' (owned.trans owner.symm)
  have same : f'.IsAlone id ↔ f.IsAlone id :=
    (head'.trans (Job.isAlone_of_origin (Job.origin_markStarted job _))).trans head.symm
  have unread (flown : s.Busy id) : ∀ c ∈ s'.scanned ++ s'.called, ¬c.IsAlone id := by
    rw [apart.scanned, apart.called]
    exact flown.unread
  have count : s'.flights.countP (·.IsAlone id) = s.flights.countP (·.IsAlone id) := by
    rw [after.countP_eq, before.countP_eq, List.countP_cons, List.countP_cons]
    simp only [same]
  have back (flown : ∃ g ∈ s'.flights, g.IsAlone id) : ∃ g ∈ s.flights, g.IsAlone id := by
    obtain ⟨g, member, alone⟩ := flown
    rcases List.mem_cons.mp (after.mem_iff.mp member) with rfl | old
    · exact ⟨f, before.mem_iff.mpr List.mem_cons_self, same.mp alone⟩
    · exact ⟨g, before.mem_iff.mpr (List.mem_cons_of_mem _ old), alone⟩
  by_cases alone : job.IsAlone id
  · have busy := exclusive.busy ⟨f, before.mem_iff.mpr List.mem_cons_self, head.mpr alone⟩
    refine ⟨count ▸ exclusive.flights, apart.scanned ▸ exclusive.scanned,
      apart.called ▸ exclusive.called, fun _ => ⟨unread busy, fun j stored _ => ?_⟩, ?_⟩
    · rcases wrote.job_cases stored with ⟨member, _⟩ | ⟨_, others'⟩
      · cases List.mem_singleton.mp member
        rfl
      · exact absurd alone.1 (others' (job.markStarted s.engine.now) (List.mem_singleton_self _))
    · rintro ⟨c, member, same'⟩
      exact absurd same' (unread busy c (List.mem_append_right _ member))
  · have spares : Store.Spares s.engine.store s'.engine.store id :=
      wrote.spares fun k member => by
        rw [List.mem_singleton.mp member]
        exact alone
    refine ⟨count ▸ exclusive.flights, apart.scanned ▸ exclusive.scanned,
      apart.called ▸ exclusive.called, fun flown => ?_, fun waits => ?_⟩
    · exact (exclusive.busy (back flown)).of_spared spares (unread (exclusive.busy (back flown)))
    · have awaited := exclusive.awaited (apart.called ▸ waits)
      exact awaited.of_spared spares (apart.scanned ▸ awaited.unread)

end Exclusive

/-! ### Runs -/

theorem Step.exclusive (step : Step s a s') (sound : s.Sound) (exclusive : s.Exclusive id)
    (distinct : Id.Distinct s'.engine.issued) (alone : s.ScansAlone a) : s'.Exclusive id := by
  have same {l l' : List Flight} (flights : l' = l) : ∃ gone, l.Perm (gone ++ l') :=
    ⟨[], flights ▸ .refl _⟩
  have carried {f : Flight} {others : List Flight} (before : s.flights.Perm (f :: others)) :
      s.engine.Carries f := sound.flights f (before.mem_iff.mpr List.mem_cons_self)
  cases step with
  | quiet jobs _ _ _ scanned called flights =>
    exact exclusive.of_fewer ⟨[], flights.symm⟩ scanned called fun _ => .of_eq jobs id
  | managed change ticks held =>
    refine exclusive.managed sound change.change distinct ticks ?_
    unfold System.flights
    rw [change.pool, held]
  | scanned due asked read engine scanned called flights =>
    subst asked
    exact exclusive.scan sound (alone rfl) read engine scanned called flights
  | looked queued job read store _ scanned called flights =>
    exact exclusive.look sound read store scanned called flights
  | rearmed job own p written records taken _ _ _ wrote pendingJobs _ _ flights =>
    obtain ⟨scanned, called⟩ := taken.gone
    refine exclusive.of_fewer (same flights) scanned called fun _ =>
      wrote.spares fun k member alone => ?_
    cases alone.2.symm.trans (pendingJobs k member).2
  | refused job written taken wrote own _ _ flights =>
    obtain ⟨scanned, called⟩ := taken.gone
    refine exclusive.of_fewer (same flights) scanned called fun has =>
      wrote.spares fun k member alone => ?_
    rw [Job.isAlone_of_origin (own k member)] at alone
    rcases has with ⟨f, inside, flown⟩ | ⟨c, inside, waits⟩
    · exact exclusive.grounded_of_taken taken alone f (flights ▸ inside) flown
    · exact exclusive.unread_of_taken taken alone c (List.mem_append_right _ inside) waits
  | sent job f rest taken wrote _ jobs _ owner _ _ flights =>
    exact exclusive.send taken wrote jobs owner flights
  | started f f' others job waiting records before after apart jobs jobs' _ owner _ _ wrote =>
    have owned := ((carried before).copies job (by simp [jobs])).2
    exact exclusive.started before after apart jobs jobs' owned owner wrote
  | paused f f' others job k waiting before after apart _ _ jobs _ _ _ owner wrote origin _ whole =>
    -- Only the work of a pipeline has more jobs, so the flight is none of a standalone job.
    obtain ⟨p, record⟩ := Option.isSome_iff_exists.mp whole
    have inPipeline : f.pipelineId = some p.id := ((carried before).begun p record).1
    have owned := ((carried before).copies job (by simp [jobs])).2
    have spares : Store.Spares s.engine.store s'.engine.store id := by
      refine wrote.spares fun k' member alone => ?_
      rw [List.mem_singleton.mp member, Job.isAlone_of_origin origin] at alone
      cases alone.2.symm.trans (owned.trans inPipeline)
    have other (g : Flight) (owner : g.pipelineId = some p.id) : ¬g.IsAlone id := fun alone => by
      cases alone.1.symm.trans owner
    have count : s'.flights.countP (·.IsAlone id) = s.flights.countP (·.IsAlone id) := by
      rw [after.countP_eq, before.countP_eq, List.countP_cons_of_neg, List.countP_cons_of_neg]
      · simpa using other f inPipeline
      · simpa using other f' (owner.trans inPipeline)
    refine ⟨count ▸ exclusive.flights, apart.scanned ▸ exclusive.scanned,
      apart.called ▸ exclusive.called, ?_, fun waits => ?_⟩
    · rintro ⟨g, member, alone⟩
      rcases List.mem_cons.mp (after.mem_iff.mp member) with rfl | old
      · exact absurd alone (other g (owner.trans inPipeline))
      · have busy := exclusive.busy ⟨g, before.mem_iff.mpr (List.mem_cons_of_mem _ old), alone⟩
        refine busy.of_spared spares ?_
        rw [apart.scanned, apart.called]
        exact busy.unread
    · have awaited := exclusive.awaited (apart.called ▸ waits)
      exact awaited.of_spared spares (apart.scanned ▸ awaited.unread)
  | ended f others job waiting written records before after apart jobs wrote own =>
    have owned := ((carried before).copies job (by simp [jobs])).2
    have head : f.IsAlone id ↔ job.IsAlone id := Flight.isAlone_iff jobs owned
    have fewer : ∃ gone, s.flights.Perm (gone ++ s'.flights) :=
      ⟨[f], before.trans (after.symm.cons f)⟩
    by_cases alone : job.IsAlone id
    · -- It was the only flight of the job, and no tick has a copy of it.
      have busy := exclusive.busy ⟨f, before.mem_iff.mpr List.mem_cons_self, head.mpr alone⟩
      have sole := exclusive.flights
      rw [before.countP_eq] at sole
      have gone := fresh_of_sole sole (head.mpr alone)
      refine exclusive.of_fewer fewer ⟨[], by simp [apart.scanned]⟩ ⟨[], by simp [apart.called]⟩ ?_
      rintro (⟨g, member, same⟩ | ⟨c, member, same⟩)
      · exact absurd same (gone g (after.mem_iff.mp member))
      · exact absurd same (busy.unread c (List.mem_append_right _ (apart.called ▸ member)))
    · refine exclusive.of_apart fewer apart (wrote.spares fun k member => ?_)
      rwa [Job.isAlone_of_origin (own k member)]
  | abandoned _ gone _ store _ scanned called flights =>
    exact exclusive.of_fewer ⟨gone, flights⟩ scanned called fun _ => .of_eq (by rw [store]) id

variable {now : Instant} {registry : Registry} {queueCapacity : Nat} {unit : TimeUnit}
  {workers poolCapacity : Nat} {actions : List Action}

/-- As long as scans come one after the other, a standalone job has at most one work that is handed
over, lies in the channel or is executed. -/
theorem exclusive_run (made : new? now registry queueCapacity unit workers poolCapacity = some s)
    (short : ∀ a ∈ actions, a.IsShort) (distinct : Id.Distinct (s.run actions).engine.issued)
    (alone : Along ScansAlone s actions) (id : Id) :
    (s.run actions).flights.countP (·.IsAlone id) ≤ 1 := by
  have start : s.Exclusive id := by
    obtain ⟨_, _, scanned, called, flights⟩ := new_eq made
    refine ⟨?_, ?_, ?_, ?_, ?_⟩ <;> simp [scanned, called, flights]
  exact (run_keeps (P := (Exclusive · id))
    (fun t a sound exclusive alone distinct step => step.exclusive sound exclusive distinct alone)
    (sound_new made) start alone short distinct).2.flights

/-- A recurring job runs as soon as it is admitted, and again when a scan finds it due. -/
def secondRun : List Action :=
  [.createJob ⟨"poll", none, "noop", [], 0, none, true, false, ⟨some "1 sec", false⟩⟩, .start,
    .look, .submit 0, .take, .proceed 0, .finish 0 (.success (.issued 0) none), .advance 2000,
    .scan, .submit 1]

theorem exclusive_secondRun : Along ScansAlone start secondRun ∧
    (start.run secondRun).flights.countP (·.IsAlone (.issued 0)) ≤ 1 ∧
    ((start.run secondRun).engine.store.jobs.get? (.issued 0)).map (·.status) = some .scheduled := by
  have alone : Along ScansAlone start secondRun := by decide +kernel
  refine ⟨alone, exclusive_run new_start (fun a member => ?_) ?_ alone (.issued 0), by decide +kernel⟩
  · simp only [secondRun, List.mem_cons, List.not_mem_nil, or_false] at member
    rcases member with rfl | rfl | rfl | rfl | rfl | rfl | rfl | rfl | rfl | rfl <;> trivial
  · exact Id.distinct_of_le (by decide +kernel)

end System

end Rota
