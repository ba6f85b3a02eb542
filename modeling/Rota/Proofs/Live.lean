import Rota.Proofs.Run
/-! Whatever is active is in flight.
A job is marked as scheduled when its work is sent, as in progress when it is started, and as
neither when its flight moves on or ends. So in an open store an active job heads a flight, and an
active pipeline has one, unless a tick was given up while its work waited for room. -/
namespace Rota

def Status.stage? : Status → Option Stage
  | .scheduled => some .waiting
  | .inProgress => some .running
  | _ => none

private theorem Status.isActive_of_stage {status : Status} {stage : Stage}
    (known : status.stage? = some stage) : status.isActive = true := by
  cases status <;> first | rfl | cases known

namespace System

/-- Every active job heads a flight, and every active pipeline has one that is begun. -/
structure Live (s : System) : Prop where
  jobs : ∀ id j stage, s.engine.store.jobs.get? id = some j → j.status.stage? = some stage →
    ∃ f ∈ s.flights, f.stage = stage ∧ f.headId? = some id
  pipelines : ∀ id row, s.engine.store.pipelines.get? id = some row →
    row.record.status.isActive = true → ∃ f ∈ s.flights, f.stage ≠ .waiting ∧ f.pipelineId = some id

variable {s s' : System} {a : Action}

theorem Step.isClosed (step : Step s a s') (closed : s.engine.store.isClosed = true) :
    s'.engine.store.isClosed = true := by
  cases step with
  | quiet _ _ stays => exact stays closed
  | managed change => exact change.closed.trans closed
  | scanned _ _ _ engine => rwa [engine]
  | looked _ _ _ store => rwa [store]
  | rearmed _ _ _ _ _ _ _ _ _ wrote => exact wrote.edited.closed.trans closed
  | refused _ _ _ wrote => exact wrote.edited.closed.trans closed
  | sent _ _ _ _ wrote => exact wrote.edited.closed.trans closed
  | started _ _ _ _ _ _ _ _ _ _ _ _ _ _ _ wrote => exact wrote.edited.closed.trans closed
  | paused _ _ _ _ _ _ _ _ _ _ _ _ _ _ _ _ wrote => exact wrote.edited.closed.trans closed
  | ended _ _ _ _ _ _ _ _ _ _ wrote => exact wrote.edited.closed.trans closed
  | abandoned _ _ _ store => rwa [store]

/-- A record that is active now has just been written or was so before. -/
theorem Wrote.record_cases {written : List Job} {records : List Pipeline} {id : Id}
    {row : PipelineRow} (wrote : Wrote s s' written records)
    (found : s'.engine.store.pipelines.get? id = some row) :
    (∃ r ∈ records, r.id = id ∧ r.status = row.record.status) ∨
      ∃ r, s.engine.store.pipelines.get? id = some r ∧ r.record.status = row.record.status := by
  obtain ⟨r, before, _, ⟨kept, _⟩ | ⟨p, member, same, replaced⟩⟩ := wrote.edited.record_cases found
  · exact Or.inr ⟨r, before, by rw [kept]⟩
  · exact Or.inl ⟨p, member, same, by rw [replaced]⟩

/-- Flights that stay keep alive what is not written. -/
theorem Live.of_unchanged (live : s.Live)
    (jobs : ∀ id j stage, s'.engine.store.jobs.get? id = some j → j.status.stage? = some stage →
      ∃ i, s.engine.store.jobs.get? id = some i ∧ i.status = j.status)
    (pipelines : ∀ id row, s'.engine.store.pipelines.get? id = some row →
      row.record.status.isActive = true →
        ∃ r, s.engine.store.pipelines.get? id = some r ∧ r.record.status = row.record.status)
    (flights : ∀ f ∈ s.flights, f ∈ s'.flights) : s'.Live where
  jobs id j stage stored active := by
    obtain ⟨i, before, same⟩ := jobs id j stage stored active
    obtain ⟨f, member, here⟩ := live.jobs id i stage before (same ▸ active)
    exact ⟨f, flights f member, here⟩
  pipelines id row found active := by
    obtain ⟨r, before, same⟩ := pipelines id row found active
    obtain ⟨f, member, here⟩ := live.pipelines id r before (same ▸ active)
    exact ⟨f, flights f member, here⟩

theorem Live.managed (live : s.Live) (change : s.engine.Changed s'.engine)
    (distinct : Id.Distinct s'.engine.issued) (flights : s'.flights = s.flights) : s'.Live := by
  refine live.of_unchanged (fun id j stage stored active => ?_) (fun id row found active => ?_)
    fun f member => flights ▸ member
  · rcases change.job_cases distinct stored with ⟨_, pending⟩ | ⟨i, before, _, same, _⟩
    · rw [pending] at active
      cases active
    · exact ⟨i, before, same⟩
  · rcases change.record_cases distinct found with ⟨_, pending⟩ | before
    · rw [pending] at active
      cases active
    · exact before

/-- A written job that is not active needs no flight. -/
theorem Live.of_passive {written : List Job} {records : List Pipeline} (live : s.Live)
    (wrote : Wrote s s' written records)
    (jobs : ∀ j ∈ written, s'.engine.store.jobs.get? j.id = some j → j.status.isActive = false)
    (passive : ∀ r ∈ records, r.status.isActive = false)
    (flights : ∀ f ∈ s.flights, f ∈ s'.flights) : s'.Live := by
  refine live.of_unchanged (fun id j stage stored active => ?_) (fun id row found active => ?_) flights
  · rcases wrote.job_cases stored with ⟨member, rfl⟩ | ⟨before, _⟩
    · cases (jobs j member stored).symm.trans (Status.isActive_of_stage active)
    · exact ⟨j, before, rfl⟩
  · rcases wrote.record_cases found with ⟨r, member, _, same⟩ | before
    · rw [← same, passive r member] at active
      cases active
    · exact before

/-- A flight that moves has to answer for its first job and its pipeline only. -/
theorem Live.of_moved {written : List Job} {records : List Pipeline} {f : Flight}
    {others : List Flight} {job : Job} {waiting : List Job} (live : s.Live) (left : List Flight)
    (wrote : Wrote s s' written records) (own : ∀ k ∈ written, k.id = job.id)
    (ownRecords : ∀ r ∈ records, f.pipelineId = some r.id)
    (before : s.flights.Perm (f :: others)) (after : s'.flights.Perm (left ++ others))
    (first : f.jobs = job :: waiting)
    (jobs : ∀ j stage, s'.engine.store.jobs.get? job.id = some j → j.status.stage? = some stage →
      ∃ g ∈ left, g.stage = stage ∧ g.headId? = some job.id)
    (pipelines : ∀ id row, f.pipelineId = some id →
      s'.engine.store.pipelines.get? id = some row → row.record.status.isActive = true →
        ∃ g ∈ left, g.stage ≠ .waiting ∧ g.pipelineId = some id) : s'.Live where
  jobs id j stage stored active := by
    by_cases here : id = job.id
    · subst here
      obtain ⟨g, member, place⟩ := jobs j stage stored active
      exact ⟨g, after.mem_iff.mpr (List.mem_append_left _ member), place⟩
    · rcases wrote.job_cases stored with ⟨member, rfl⟩ | ⟨unchanged, _⟩
      · exact absurd (own j member) here
      · obtain ⟨g, member, place, head⟩ := live.jobs id j stage unchanged active
        rcases List.mem_cons.mp (before.mem_iff.mp member) with rfl | other
        · rw [Flight.headId?_eq first] at head
          exact absurd (Option.some.inj head).symm here
        · exact ⟨g, after.mem_iff.mpr (List.mem_append_right _ other), place, head⟩
  pipelines id row found active := by
    by_cases here : f.pipelineId = some id
    · obtain ⟨g, member, place⟩ := pipelines id row here found active
      exact ⟨g, after.mem_iff.mpr (List.mem_append_left _ member), place⟩
    · rcases wrote.record_cases found with ⟨r, member, rfl, _⟩ | ⟨r, unchanged, same⟩
      · exact absurd (ownRecords r member) here
      · obtain ⟨g, member, begun, owner⟩ := live.pipelines id r unchanged (same ▸ active)
        rcases List.mem_cons.mp (before.mem_iff.mp member) with rfl | other
        · exact absurd owner here
        · exact ⟨g, after.mem_iff.mpr (List.mem_append_right _ other), begun, owner⟩

/-- In an open store every step keeps alive what is active, if no tick is given up. -/
theorem Step.live (step : Step s a s') (live : s.Live) (distinct : Id.Distinct s'.engine.issued)
    (open_ : s.engine.store.isClosed = false) (stays : ∀ place, a ≠ .abandon place) : s'.Live := by
  cases step with
  | quiet jobs pipelines _ _ _ _ flights =>
    exact live.of_unchanged (fun id j _ stored _ => ⟨j, jobs ▸ stored, rfl⟩)
      (fun id row found _ => ⟨row, pipelines ▸ found, rfl⟩) fun f member => flights.mem_iff.mpr member
  | managed change ticks held =>
    refine live.managed change.change distinct ?_
    unfold System.flights
    rw [change.pool, held]
  | scanned _ _ _ engine _ _ flights =>
    exact live.of_unchanged (fun id j _ stored _ => ⟨j, engine ▸ stored, rfl⟩)
      (fun id row found _ => ⟨row, engine ▸ found, rfl⟩) fun f member => flights ▸ member
  | looked _ _ _ store _ _ _ flights =>
    exact live.of_unchanged (fun id j _ stored _ => ⟨j, store ▸ stored, rfl⟩)
      (fun id row found _ => ⟨row, store ▸ found, rfl⟩) fun f member => flights ▸ member
  | rearmed job id p written records _ _ _ _ wrote pendingJobs pendingRecords _ flights =>
    refine live.of_passive wrote (fun j member _ => ?_) (fun r member => ?_)
      fun f member => flights ▸ member
    · rw [(pendingJobs j member).1]
      rfl
    · rw [(pendingRecords r member).2]
      rfl
  | refused job written _ wrote own _ undone flights =>
    refine live.of_passive wrote (fun j member stored => ?_) (by simp)
      fun f member => flights ▸ member
    rw [undone open_ j (Job.id_of_origin (own j member) ▸ stored)]
    rfl
  | sent job f rest _ wrote stage jobs record owner carried idle flights =>
    refine ⟨fun id j stage' stored active => ?_, fun id row found active => ?_⟩
    · rcases wrote.job_cases stored with ⟨member, rfl⟩ | ⟨before, _⟩
      · cases List.mem_singleton.mp member
        cases active
        exact ⟨f, flights.mem_iff.mpr List.mem_cons_self, stage, Flight.headId?_eq jobs⟩
      · obtain ⟨g, member, here⟩ := live.jobs id j stage' before active
        exact ⟨g, flights.mem_iff.mpr (List.mem_cons_of_mem _ member), here⟩
    · rcases wrote.record_cases found with ⟨_, member, _⟩ | ⟨r, before, same⟩
      · cases member
      · obtain ⟨g, member, here⟩ := live.pipelines id r before (same ▸ active)
        exact ⟨g, flights.mem_iff.mpr (List.mem_cons_of_mem _ member), here⟩
  | started f f' others job waiting records before after _ jobs jobs' stage owner known inProgress
      wrote begins =>
    refine live.of_moved [f'] wrote (fun k member => by rw [List.mem_singleton.mp member]; rfl)
      (ownRecords_of_begins owner known begins) before after jobs (fun j at_ stored active => ?_)
      fun id row here _ _ => ?_
    · have head : f'.headId? = some job.id := (Flight.headId?_eq jobs').trans rfl
      refine ⟨f', List.mem_singleton_self _, ?_, head⟩
      rcases wrote.job_cases stored with ⟨member, _⟩ | ⟨_, others'⟩
      · cases List.mem_singleton.mp member
        cases active
        exact stage
      · exact absurd rfl (others' (job.markStarted s.engine.now) (List.mem_singleton_self _))
    · exact ⟨f', List.mem_singleton_self _, by simp [stage], owner.trans here⟩
  | paused f f' others job k waiting before after _ stage stage' jobs jobs' more record owner wrote
      origin passive =>
    have key := Job.id_of_origin origin
    refine live.of_moved [f'] wrote (fun k' member => by rw [List.mem_singleton.mp member, key])
      (by simp)
      before after jobs (fun j at_ stored active => ?_) fun id row here _ _ => ?_
    · rcases wrote.job_cases stored with ⟨member, _⟩ | ⟨_, others'⟩
      · cases List.mem_singleton.mp member
        cases passive.symm.trans (Status.isActive_of_stage active)
      · exact absurd key (others' _ (List.mem_singleton_self _))
    · exact ⟨f', List.mem_singleton_self _, by simp [stage'], owner.trans here⟩
  | ended f others job waiting written records before after _ jobs wrote own ownRecords passive
      passivePipeline =>
    refine live.of_moved [] wrote (fun k member => Job.id_of_origin (own k member)) ownRecords before
      after jobs
      (fun j at_ stored active => ?_) fun id row here found active => ?_
    · cases (passive open_ j stored).symm.trans (Status.isActive_of_stage active)
    · cases (passivePipeline open_ id row here found).symm.trans active
  | abandoned place _ asked => exact absurd asked (stays place)

variable {now : Instant} {registry : Registry} {queueCapacity : Nat} {unit : TimeUnit}
  {workers poolCapacity : Nat} {actions : List Action}

/-- While the store is open and no tick is given up, whatever is active is in flight. -/
theorem live_run (made : new? now registry queueCapacity unit workers poolCapacity = some s)
    (short : ∀ a ∈ actions, a.IsShort) (distinct : Id.Distinct (s.run actions).engine.issued)
    (stays : ∀ place, .abandon place ∉ actions)
    (open_ : (s.run actions).engine.store.isClosed = false) : (s.run actions).Live := by
  have along : Along (fun _ a => ∀ place, a ≠ .abandon place) s actions := by
    refine along_of_forall (fun a member _ place same => ?_) s
    exact stays place (same ▸ member)
  have start : s.engine.store.isClosed = false → s.Live := by
    intro _
    obtain ⟨store, _⟩ := new_eq made
    exact ⟨by simp [store, Store.empty], by simp [store, Store.empty]⟩
  refine (run_keeps (P := fun t => t.engine.store.isClosed = false → t.Live)
    (fun t a _ live stays distinct step open_ => ?_) (sound_new made) start along short distinct).2 open_
  have before : t.engine.store.isClosed = false := by
    cases closed : t.engine.store.isClosed with
    | false => rfl
    | true => exact (step.isClosed closed).symm.trans open_
  exact step.live (live before) distinct before stays

theorem live_firstJob : (start.run firstJob).Live ∧
    ((start.run firstJob).engine.store.jobs.get? (.issued 2)).map (·.status) = some .inProgress ∧
    ((start.run firstJob).engine.store.pipelines.get? (.issued 0)).map (·.record.status) =
      some .inProgress :=
  ⟨live_run new_start short_firstJob distinct_firstJob (by simp [firstJob]) (by decide +kernel),
    by decide +kernel, by decide +kernel⟩

end System

end Rota
