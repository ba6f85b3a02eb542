import Rota.Proofs.Run
/-! What becomes of an update.
An update writes a whole record, and so do ticks and workers, with copies that they have read
earlier. An update lasts as long as nobody holds a copy that says something else. -/
namespace Rota

structure Rule where
  job : Id → JobDetails → Prop
  pipeline : Id → PipelineDetails → Prop

structure Flight.Obeys (f : Flight) (R : Rule) : Prop where
  jobs : ∀ c ∈ f.jobs, R.job c.id c.details
  record : ∀ p, f.record = some p → R.pipeline p.id p.details

namespace System

def due (s : System) : List Job := s.ticks.flatMap (·.due)

/-- All that is said of jobs and pipelines keeps to the rule: in the store, and in the copies that
ticks and works have. Jobs in the queue are read again before they are used. -/
structure Obeys (s : System) (R : Rule) : Prop where
  jobs : ∀ id j, s.engine.store.jobs.get? id = some j → R.job id j.details
  pipelines : ∀ id row, s.engine.store.pipelines.get? id = some row →
    R.pipeline id row.record.details
  due : ∀ c ∈ s.due, R.job c.id c.details
  flown : ∀ f ∈ s.flights, f.Obeys R

structure Admits (R : Rule) (s : System) (a : Action) : Prop where
  jobs : ∀ id (k : Job), k.validate s.engine.registry.names = .ok () →
    (Id.IsIssued s.engine.issued id → ∃ r, a = .updateJob id r) → R.job id k.details
  pipelines : ∀ id (p : Pipeline), p.validate = .ok () →
    (Id.IsIssued s.engine.issued id → ∃ r, a = .updatePipeline id r) → R.pipeline id p.details

variable {s s' : System} {a : Action} {R : Rule} {id : Id} {c : Job} {p : Pipeline}

/-! ### What ticks have read -/

theorem ticks_take (s : System) : s.take.ticks = s.ticks := by
  unfold take
  split
  next => split <;> rfl
  next => rfl

theorem ticks_proceed (s : System) (place : Nat) : (s.proceed place).ticks = s.ticks := by
  unfold proceed
  split
  next => rfl
  all_goals
    dsimp only
    split <;> rfl

theorem ticks_finish (s : System) (place : Nat) (result : JobResult) :
    (s.finish place result).ticks = s.ticks := by
  unfold finish
  split
  next => rfl
  next =>
    split
    next =>
      dsimp only
      split <;> rfl
    next => rfl

theorem ticks_save (s : System) (place : Nat) : (s.save place).ticks = s.ticks := by
  unfold save
  split
  next => rfl
  next =>
    dsimp only
    split <;> rfl

theorem due_afterSubmission {ticks : List Tick} {place : Nat} {isScan : Bool} {job : Job}
    {rest : List Job} {ticket : Option Nat} (here : ticks[place]? = some ⟨isScan, job :: rest, ticket⟩)
    {submission : Submission} {t : Tick}
    (member : t ∈ afterSubmission ticks place isScan rest submission) :
    ∃ t' ∈ ticks, ∀ c ∈ t.due, c ∈ t'.due := by
  have set (ticket' : Option Nat) (inside : t ∈ ticks.set place ⟨isScan, rest, ticket'⟩) :
      ∃ t' ∈ ticks, ∀ c ∈ t.due, c ∈ t'.due := by
    rcases List.mem_or_eq_of_mem_set inside with old | rfl
    · exact ⟨t, old, fun _ => id⟩
    · exact ⟨_, List.mem_of_getElem? here, fun c => List.mem_cons_of_mem job⟩
  unfold afterSubmission at member
  split at member
  next => exact ⟨t, List.mem_of_mem_eraseIdx member, fun _ => id⟩
  next => exact set _ member
  next => exact set _ member

/-- A tick gets its jobs from the store, as they are stored at that moment. -/
theorem due_perform (sound : s.Sound) (member : c ∈ (s.perform a).due) :
    c ∈ s.due ∨ ∃ j, s.engine.store.jobs.get? c.id = some j ∧ j.reread = .ok c := by
  have same (ticks : (s.perform a).ticks = s.ticks) : c ∈ s.due := by
    unfold due at member ⊢
    rwa [ticks] at member
  obtain ⟨t, inside, own⟩ := List.mem_flatMap.mp member
  cases a with
  | scan =>
    simp only [perform, scan] at inside
    split at inside
    next due read =>
      rcases List.mem_append.mp inside with old | new
      · exact Or.inl (List.mem_flatMap.mpr ⟨t, old, own⟩)
      · rw [List.mem_singleton.mp new] at own
        obtain ⟨j, stored, rereads, _⟩ := sound.consistent.stored_due read own
        exact Or.inr ⟨j, stored, rereads⟩
    next => exact Or.inl (List.mem_flatMap.mpr ⟨t, inside, own⟩)
  | look =>
    simp only [perform, look] at inside
    split at inside
    next => exact Or.inl (List.mem_flatMap.mpr ⟨t, inside, own⟩)
    next =>
      split at inside
      next job read =>
        rcases List.mem_append.mp inside with old | new
        · exact Or.inl (List.mem_flatMap.mpr ⟨t, old, own⟩)
        · rw [List.mem_singleton.mp new] at own
          cases List.mem_singleton.mp own
          obtain ⟨j, stored, rereads⟩ := Store.getJob_ok read
          exact Or.inr ⟨j, (sound.consistent.isCopy_getJob read).2 ▸ stored, rereads⟩
      next => exact Or.inl (List.mem_flatMap.mpr ⟨t, inside, own⟩)
  | submit place =>
    simp only [perform, submitNext] at inside
    split at inside
    next here =>
      split at inside
      next => exact Or.inl (List.mem_flatMap.mpr ⟨t, inside, own⟩)
      next =>
        obtain ⟨t', old, fewer⟩ := due_afterSubmission here inside
        exact Or.inl (List.mem_flatMap.mpr ⟨t', old, fewer c own⟩)
    next => exact Or.inl (List.mem_flatMap.mpr ⟨t, inside, own⟩)
  | abandon place =>
    simp only [perform, abandon] at inside
    split at inside
    next =>
      split at inside
      next => exact Or.inl (List.mem_flatMap.mpr ⟨t, List.mem_of_mem_eraseIdx inside, own⟩)
      next => exact Or.inl (List.mem_flatMap.mpr ⟨t, inside, own⟩)
    next => exact Or.inl (List.mem_flatMap.mpr ⟨t, inside, own⟩)
  | take => exact Or.inl (same (ticks_take s))
  | proceed place => exact Or.inl (same (ticks_proceed s place))
  | finish place result => exact Or.inl (same (ticks_finish s place result))
  | save place => exact Or.inl (same (ticks_save s place))
  | _ => exact Or.inl (same rfl)

theorem mem_due_of_next {place : Nat} (next : s.next? place = some c) : c ∈ s.due := by
  obtain ⟨t, here, first⟩ := Option.bind_eq_some_iff.mp next
  exact List.mem_flatMap.mpr ⟨t, List.mem_of_getElem? here, List.mem_of_head? first⟩

/-! ### What steps say -/

namespace Obeys

theorem reread {j : Job} (obeys : s.Obeys R) (stored : s.engine.store.jobs.get? c.id = some j)
    (read : j.reread = .ok c) : R.job c.id c.details := by
  rw [Job.details_reread read]
  exact obeys.jobs c.id j stored

theorem getJob (obeys : s.Obeys R) (sound : s.Sound) (read : s.engine.store.getJob id = .ok c) :
    R.job c.id c.details := by
  obtain ⟨j, stored, rereads⟩ := Store.getJob_ok read
  have key := (sound.consistent.isCopy_getJob read).2
  exact obeys.reread (key ▸ stored) rereads

theorem getPipeline (obeys : s.Obeys R) (sound : s.Sound)
    (read : s.engine.store.getPipeline id = .ok p) :
    R.pipeline id p.details ∧ ∀ d ∈ p.jobs, R.job d.id d.details := by
  obtain ⟨row, found, loads⟩ := Store.getPipeline_ok read
  obtain ⟨_, _, rereads⟩ := sound.consistent.loadPipeline_ok found loads
  constructor
  · obtain ⟨_, _, rfl⟩ := Store.loadPipeline_ok loads
    exact obeys.pipelines id row found
  · intro d member
    obtain ⟨jobId, _, j, stored, read⟩ := forall₂_mem_right rereads member
    have same : d.id = jobId :=
      (Job.id_of_origin (Job.origin_reread read)).trans (sound.consistent.jobKey jobId j stored)
    exact obeys.reread (same ▸ stored) read

theorem of_eq (obeys : s.Obeys R) (jobs : s'.engine.store.jobs = s.engine.store.jobs)
    (pipelines : s'.engine.store.pipelines = s.engine.store.pipelines)
    (due : ∀ c ∈ s'.due, R.job c.id c.details) (flown : ∀ f ∈ s'.flights, f.Obeys R) :
    s'.Obeys R where
  jobs := by
    rw [jobs]
    exact obeys.jobs
  pipelines := by
    rw [pipelines]
    exact obeys.pipelines
  due := due
  flown := flown

private theorem of_wrote {written : List Job} {records : List Pipeline} (obeys : s.Obeys R)
    (wrote : Wrote s s' written records) (jobs : ∀ k ∈ written, R.job k.id k.details)
    (pipelines : ∀ q ∈ records, R.pipeline q.id q.details)
    (due : ∀ c ∈ s'.due, R.job c.id c.details) (flown : ∀ f ∈ s'.flights, f.Obeys R) :
    s'.Obeys R where
  jobs id j stored := by
    rcases wrote.job_cases stored with ⟨member, rfl⟩ | ⟨before, _⟩
    · exact jobs j member
    · exact obeys.jobs id j before
  pipelines id row found := by
    obtain ⟨r, before, _, ⟨kept, _⟩ | ⟨q, member, rfl, replaced⟩⟩ := wrote.edited.record_cases found
    · rw [kept]
      exact obeys.pipelines id r before
    · rw [replaced]
      exact pipelines q member
  due := due
  flown := flown

variable {f f' : Flight} {rest : List Flight} {written : List Job} {records : List Pipeline}

private theorem flown_of_moved (obeys : s.Obeys R) (others : ∀ g ∈ rest, g ∈ s.flights)
    (after : s'.flights.Perm (f :: rest)) (moved : f.Obeys R) : ∀ g ∈ s'.flights, g.Obeys R := by
  intro g inside
  rcases List.mem_cons.mp (after.mem_iff.mp inside) with rfl | old
  · exact moved
  · exact obeys.flown g (others g old)

theorem next {job : Job} (obeys : s.Obeys R)
    (asked : ∃ place, a = .submit place ∧ s.next? place = some job) : R.job job.id job.details := by
  obtain ⟨place, _, next⟩ := asked
  exact obeys.due job (mem_due_of_next next)

/-- What a worker writes is the record that it has, or the stored one as it has read it. -/
theorem written_records (obeys : s.Obeys R) (sound : s.Sound) (inside : f ∈ s.flights)
    (own : ∀ r ∈ records, f.pipelineId = some r.id)
    (same : ∀ r ∈ records, (∃ p, f.record = some p ∧ r.details = p.details) ∨
      ∃ q, s.engine.store.getPipeline r.id = .ok q ∧ r.details = q.details) :
    ∀ r ∈ records, R.pipeline r.id r.details := by
  intro r member
  rcases same r member with ⟨p, whole, details⟩ | ⟨q, read, details⟩
  · have begun := (sound.flights f inside).begun p whole
    have key : p.id = r.id := Option.some.inj (begun.1.symm.trans (own r member))
    rw [details, ← key]
    exact (obeys.flown f inside).record p whole
  · rw [details]
    exact (obeys.getPipeline sound read).1

end Obeys

theorem Step.obeys (step : Step s a s') (sound : s.Sound) (obeys : s.Obeys R)
    (admits : s.Admits R a) (due : ∀ c ∈ s'.due, R.job c.id c.details) : s'.Obeys R := by
  have old {f : Flight} {rest : List Flight} (before : s.flights.Perm (f :: rest)) :
      ∀ g ∈ rest, g ∈ s.flights :=
    fun g inside => before.mem_iff.mpr (List.mem_cons_of_mem _ inside)
  cases step with
  | quiet jobs pipelines _ _ _ _ flights =>
    exact obeys.of_eq jobs pipelines due fun f inside => obeys.flown f (flights.mem_iff.mp inside)
  | managed change _ held told =>
    refine ⟨fun id k stored => ?_, fun id row found => ?_, due, fun f inside => ?_⟩
    · rcases told.jobs id k stored with ⟨j, before, same⟩ | ⟨valid, _, asked⟩
      · exact same ▸ obeys.jobs id j before
      · exact admits.jobs id k valid asked
    · rcases told.pipelines id row found with ⟨r, before, same⟩ | ⟨p, valid, _, same, asked⟩
      · exact same ▸ obeys.pipelines id r before
      · exact same ▸ admits.pipelines id p valid asked
    · refine obeys.flown f ?_
      unfold System.flights at inside ⊢
      rwa [change.pool, held] at inside
  | scanned _ _ _ engine _ _ flights =>
    exact obeys.of_eq (by rw [engine]) (by rw [engine]) due (flights ▸ obeys.flown)
  | looked _ _ _ store _ _ _ flights =>
    exact obeys.of_eq (by rw [store]) (by rw [store]) due (flights ▸ obeys.flown)
  | rearmed job id p written records _ _ read _ wrote _ pendingRecords _ flights same sameRecords =>
    obtain ⟨ofPipeline, ofJobs⟩ := obeys.getPipeline sound read
    refine obeys.of_wrote wrote (fun k member => ?_) (fun q member => ?_) due (flights ▸ obeys.flown)
    · obtain ⟨d, inside, origin, details⟩ := same k member
      rw [details, Job.id_of_origin origin]
      exact ofJobs d inside
    · rw [sameRecords q member, (pendingRecords q member).1]
      exact ofPipeline
  | refused job written _ wrote own _ _ flights same asked =>
    refine obeys.of_wrote wrote (fun k member => ?_) (by simp) due (flights ▸ obeys.flown)
    rw [same k member, Job.id_of_origin (own k member)]
    exact obeys.next asked
  | sent job f rest _ wrote _ jobs record _ _ _ flights read asked =>
    have head := obeys.next asked
    refine obeys.of_wrote wrote (List.forall_mem_singleton.mpr head) (by simp) due
      (obeys.flown_of_moved (fun _ => id) flights ⟨fun d member => ?_, by simp [record]⟩)
    rw [jobs] at member
    rcases List.mem_cons.mp member with rfl | behind
    · exact head
    · obtain ⟨dId, reads⟩ := read d behind
      exact obeys.getJob sound reads
  | started f f' rest job waiting records before after _ jobs jobs' _ _ _ _ wrote begins read =>
    obtain ⟨ofJobs, ofRecord⟩ := obeys.flown f (before.mem_iff.mpr List.mem_cons_self)
    rw [jobs, List.forall_mem_cons] at ofJobs
    have written : ∀ q ∈ records, R.pipeline q.id q.details := by
      intro q member
      obtain ⟨p, reads, same⟩ := read q member
      rw [same]
      exact (obeys.getPipeline sound reads).1
    have moved : f'.Obeys R := by
      refine ⟨?_, fun p whole => ?_⟩
      · rw [jobs', List.forall_mem_cons]
        exact ofJobs
      · rcases begins with ⟨_, rfl⟩ | ⟨_, _, same⟩
        · exact written p (by simp [whole])
        · exact ofRecord p (same ▸ whole)
    exact obeys.of_wrote wrote (List.forall_mem_singleton.mpr ofJobs.1) written due
      (obeys.flown_of_moved (old before) after moved)
  | paused f f' rest job k waiting before after _ _ _ jobs jobs' _ record _ wrote origin _ _ same =>
    obtain ⟨ofJobs, ofRecord⟩ := obeys.flown f (before.mem_iff.mpr List.mem_cons_self)
    rw [jobs, List.forall_mem_cons] at ofJobs
    refine obeys.of_wrote wrote ?_ (by simp) due (obeys.flown_of_moved (old before) after ⟨?_, ?_⟩)
    · rw [List.forall_mem_singleton, same, Job.id_of_origin origin]
      exact ofJobs.1
    · rw [jobs']
      exact ofJobs.2
    · rw [record]
      exact ofRecord
  | ended f rest job waiting written records before after _ jobs wrote own ownRecords _ _ same
      sameRecords =>
    have inside : f ∈ s.flights := before.mem_iff.mpr List.mem_cons_self
    refine obeys.of_wrote wrote (fun k member => ?_)
      (obeys.written_records sound inside ownRecords sameRecords) due
      fun g left => obeys.flown g (old before g (after.mem_iff.mp left))
    rw [same k member, Job.id_of_origin (own k member)]
    exact (obeys.flown f inside).jobs job (by simp [jobs])
  | abandoned _ gone _ store _ _ _ flights =>
    exact obeys.of_eq (by rw [store]) (by rw [store]) due
      fun f inside => obeys.flown f (flights.mem_iff.mpr (List.mem_append_right _ inside))

/-- What is said of records keeps to a rule through every run that says nothing against it. -/
theorem obeys_run {allowed : System → Action → Prop} {actions : List Action} {n : Nat}
    (admits : ∀ t a, n ≤ t.engine.issued → allowed t a → t.Admits R a) (sound : s.Sound)
    (obeys : s.Obeys R) (known : n ≤ s.engine.issued) (along : Along allowed s actions)
    (short : ∀ a ∈ actions, a.IsShort) (distinct : Id.Distinct (s.run actions).engine.issued) :
    (s.run actions).Obeys R := by
  refine (run_keeps (P := fun t => t.Obeys R ∧ n ≤ t.engine.issued) ?_ sound ⟨obeys, known⟩ along
    short distinct).2.1
  rintro t a sound ⟨obeys, known⟩ okay _ step
  have admitted := admits t a known okay
  refine ⟨step.obeys sound obeys admitted fun c member => ?_, ?_⟩
  · rcases due_perform sound member with old | ⟨j, stored, read⟩
    · exact obeys.due c old
    · exact obeys.reread stored read
  · exact Nat.le_trans known (issued_perform t a)

variable {now : Instant} {registry : Registry} {queueCapacity : Nat} {unit : TimeUnit}
  {workers poolCapacity : Nat}

/-- Where every job and pipeline that passes the checks keeps to a rule, every run does. -/
theorem obeys_of_validate {actions : List Action}
    (made : new? now registry queueCapacity unit workers poolCapacity = some s)
    (jobs : ∀ tasks id (k : Job), k.validate tasks = .ok () → R.job id k.details)
    (pipelines : ∀ id (p : Pipeline), p.validate = .ok () → R.pipeline id p.details)
    (short : ∀ a ∈ actions, a.IsShort) (distinct : Id.Distinct (s.run actions).engine.issued) :
    (s.run actions).Obeys R := by
  obtain ⟨store, _, _, _, flights⟩ := new_eq made
  have ticks : s.ticks = [] := by
    obtain ⟨_, _, rfl⟩ := Option.map_eq_some_iff.mp made
    rfl
  have start : s.Obeys R := by
    refine ⟨?_, ?_, ?_, ?_⟩
    · simp [store, Store.empty]
    · simp [store, Store.empty]
    · simp [due, ticks]
    · simp [flights]
  have admits (t : System) (a : Action) (_ : 0 ≤ t.engine.issued) (_ : True) : t.Admits R a :=
    ⟨fun id k valid _ => jobs _ id k valid, fun id p valid _ => pipelines id p valid⟩
  exact obeys_run admits (sound_new made) start (Nat.zero_le _)
    (along_of_forall (fun _ _ _ => trivial) s) short distinct

/-! ### After an update -/

/-- What the copies of the job `id` say that ticks and works have. -/
def jobCopies (s : System) (id : Id) : List JobDetails :=
  ((s.due ++ s.flights.flatMap (·.jobs)).filter (·.id = id)).map (·.details)

def pipelineCopies (s : System) (id : Id) : List PipelineDetails :=
  ((s.flights.filterMap (·.record)).filter (·.id = id)).map (·.details)

private theorem mem_jobCopies (inside : c ∈ s.due ∨ ∃ f ∈ s.flights, c ∈ f.jobs) :
    c.details ∈ s.jobCopies c.id := by
  have member : c ∈ s.due ++ s.flights.flatMap (·.jobs) := by
    simpa [List.mem_append, List.mem_flatMap] using inside
  exact List.mem_map_of_mem (List.mem_filter.mpr ⟨member, by simp⟩)

private theorem mem_pipelineCopies {f : Flight} (inside : f ∈ s.flights)
    (whole : f.record = some p) :
    p.details ∈ s.pipelineCopies p.id := by
  have member : p ∈ s.flights.filterMap (·.record) := List.mem_filterMap.mpr ⟨f, inside, whole⟩
  exact List.mem_map_of_mem (List.mem_filter.mpr ⟨member, by simp⟩)

def ruleOfJob (id : Id) (P : JobDetails → Prop) : Rule := ⟨fun i d => i = id → P d, fun _ _ => True⟩

def ruleOfPipeline (id : Id) (P : PipelineDetails → Prop) : Rule :=
  ⟨fun _ _ => True, fun i d => i = id → P d⟩

private theorem admits_ofJob {P : JobDetails → Prop} (issued : Id.IsIssued s.engine.issued id)
    (other : ∀ r, a ≠ .updateJob id r) : s.Admits (ruleOfJob id P) a where
  jobs i k _ asked same := by
    obtain ⟨r, rfl⟩ := asked (same ▸ issued)
    exact absurd (same ▸ rfl) (other r)
  pipelines _ _ _ _ := trivial

private theorem admits_ofPipeline {P : PipelineDetails → Prop}
    (issued : Id.IsIssued s.engine.issued id)
    (other : ∀ r, a ≠ .updatePipeline id r) : s.Admits (ruleOfPipeline id P) a where
  jobs _ _ _ _ := trivial
  pipelines i p _ asked same := by
    obtain ⟨r, rfl⟩ := asked (same ▸ issued)
    exact absurd (same ▸ rfl) (other r)

section

variable {u : UpdateJob} {v : UpdatePipeline} {j k : Job} {row : PipelineRow}
  {actions : List Action}

/-- Until the next update of it, a stored job says what its last update has returned, or what a
copy says that somebody had at that time. -/
theorem details_of_updateJob (sound : s.Sound) (answer : (s.engine.updateJob id u).2 = .ok j)
    (last : ∀ r, Action.updateJob id r ∉ actions) (short : ∀ a ∈ actions, a.IsShort)
    (distinct : Id.Distinct ((s.perform (.updateJob id u)).run actions).engine.issued)
    (stored : ((s.perform (.updateJob id u)).run actions).engine.store.jobs.get? id = some k) :
    k.details = j.details ∨ k.details ∈ s.jobCopies id := by
  obtain ⟨c, store, read, same, _, written, updated⟩ := Engine.updateJob_ok (Prod.ext rfl answer)
  obtain ⟨copy, known⟩ := sound.consistent.isCopy_getJob read
  have edited := (Store.updateJob_ok written).1
  have key : j.id = id := by
    rw [same]
    exact known
  have after : s.perform (.updateJob id u) = s.withEngine (s.engine.withStore store) :=
    congrArg s.withEngine updated
  have few := distinct.mono (issued_run _ actions)
  have sound' := (perform_step sound (.updateJob id u) trivial few).sound sound few
  rw [after] at stored distinct sound'
  have issued : Id.IsIssued s.engine.issued id := known ▸ copy.issued
  have obeys : (s.withEngine (s.engine.withStore store)).Obeys
      (ruleOfJob id fun d => d = j.details ∨ d ∈ s.jobCopies id) := by
    refine ⟨fun i k stored here => ?_, fun _ _ _ => trivial, fun c member here => ?_, fun f member => ?_⟩
    · rw [withEngine, Engine.store_withStore, edited.jobs] at stored
      rcases Store.putJobs_cases stored with ⟨member, _⟩ | ⟨_, others⟩
      · exact Or.inl (congrArg Job.details (List.mem_singleton.mp member))
      · exact absurd (key.trans here.symm) (others j (List.mem_singleton_self _))
    · exact Or.inr (here ▸ mem_jobCopies (Or.inl member))
    · exact ⟨fun c inside here => Or.inr (here ▸ mem_jobCopies (Or.inr ⟨f, member, inside⟩)),
        fun _ _ => trivial⟩
  have along : Along (fun _ a => ∀ r, a ≠ .updateJob id r)
      (s.withEngine (s.engine.withStore store)) actions := by
    refine along_of_forall (fun a member _ r here => ?_) _
    exact last r (here ▸ member)
  exact (obeys_run (fun t a known other => admits_ofJob (issued.mono known) other) sound' obeys
    (Nat.le_refl _) along short distinct).jobs id k stored rfl

/-- Until the next update of it, a stored pipeline says what its last update has returned, or what
a worker's copy of it says at that time. -/
theorem details_of_updatePipeline (sound : s.Sound)
    (answer : (s.engine.updatePipeline id v).2 = .ok p)
    (last : ∀ r, Action.updatePipeline id r ∉ actions) (short : ∀ a ∈ actions, a.IsShort)
    (distinct : Id.Distinct ((s.perform (.updatePipeline id v)).run actions).engine.issued)
    (found : ((s.perform (.updatePipeline id v)).run actions).engine.store.pipelines.get? id =
      some row) :
    row.record.details = p.details ∨ row.record.details ∈ s.pipelineCopies id := by
  obtain ⟨q, store, read, same, _, written, updated⟩ :=
    Engine.updatePipeline_ok (Prod.ext rfl answer)
  obtain ⟨before, loaded⟩ := sound.consistent.loaded read
  have edited := (Store.updatePipeline_ok written).1
  have key : p.id = id := by
    rw [same]
    exact loaded.key
  have after : s.perform (.updatePipeline id v) = s.withEngine (s.engine.withStore store) :=
    congrArg s.withEngine updated
  have few := distinct.mono (issued_run _ actions)
  have sound' := (perform_step sound (.updatePipeline id v) trivial few).sound sound few
  rw [after] at found distinct sound'
  have issued : Id.IsIssued s.engine.issued id :=
    sound.consistent.pipelineIssued id before loaded.found
  have obeys : (s.withEngine (s.engine.withStore store)).Obeys
      (ruleOfPipeline id fun d => d = p.details ∨ d ∈ s.pipelineCopies id) := by
    refine ⟨fun _ _ _ => trivial, fun i row found here => ?_, fun _ _ => trivial, fun f member => ?_⟩
    · obtain ⟨_, _, _, ⟨_, others⟩ | ⟨p', member, _, replaced⟩⟩ := edited.record_cases found
      · exact absurd (key.trans here.symm) (others p (List.mem_singleton_self _))
      · rw [replaced, List.mem_singleton.mp member]
        exact Or.inl rfl
    · exact ⟨fun _ _ => trivial, fun q whole here => Or.inr (here ▸ mem_pipelineCopies member whole)⟩
  have along : Along (fun _ a => ∀ r, a ≠ .updatePipeline id r)
      (s.withEngine (s.engine.withStore store)) actions := by
    refine along_of_forall (fun a member _ r here => ?_) _
    exact last r (here ▸ member)
  exact (obeys_run (fun t a known other => admits_ofPipeline (issued.mono known) other) sound' obeys
    (Nat.le_refl _) along short distinct).pipelines id row found rfl

end

variable {before after : List Action}

/-- In every run the update of a job or a pipeline lasts until the next update of it, if no copy of
it that a tick or a work has at that time says something else. -/
theorem update_lasts (made : new? now registry queueCapacity unit workers poolCapacity = some s)
    (short : ∀ b ∈ before ++ a :: after, b.IsShort)
    (distinct : Id.Distinct (s.run (before ++ a :: after)).engine.issued) :
    (∀ id u j k, a = .updateJob id u → ((s.run before).engine.updateJob id u).2 = .ok j →
      (∀ d ∈ (s.run before).jobCopies id, d = j.details) →
      (∀ r, Action.updateJob id r ∉ after) →
      (s.run (before ++ a :: after)).engine.store.jobs.get? id = some k → k.details = j.details) ∧
    ∀ id u p row, a = .updatePipeline id u →
      ((s.run before).engine.updatePipeline id u).2 = .ok p →
      (∀ d ∈ (s.run before).pipelineCopies id, d = p.details) →
      (∀ r, Action.updatePipeline id r ∉ after) →
      (s.run (before ++ a :: after)).engine.store.pipelines.get? id = some row →
      row.record.details = p.details := by
  rw [run_append, run_cons] at distinct ⊢
  have early : ∀ b ∈ before, b.IsShort := fun b member => short b (by simp [member])
  have late : ∀ b ∈ after, b.IsShort := fun b member => short b (by simp [member])
  have few := (distinct.mono (issued_run _ after)).mono (issued_perform _ a)
  have sound := sound_run made early few
  constructor
  · rintro id u j k rfl answer agree last stored
    rcases details_of_updateJob sound answer last late distinct stored with same | copied
    · exact same
    · exact agree _ copied
  · rintro id u p row rfl answer agree last found
    rcases details_of_updatePipeline sound answer last late distinct found with same | copied
    · exact same
    · exact agree _ copied

def admitted : List Action :=
  [.createJob ⟨"poll", none, "noop", [], 0, none, true, false, .default⟩]

def begun : List Action := [.start, .look, .submit 0, .take, .proceed 0]

def ended : List Action := [.finish 0 (.success (.issued 0) none)]

def newName : UpdateJob := ⟨some "watch", none, none, none⟩

/-- A job that waits in the queue is renamed, and its execution keeps the name. -/
theorem update_lasts_queued : ∃ j k,
    ((start.run admitted).engine.updateJob (.issued 0) newName).2 = .ok j ∧ j.name = "watch" ∧
    (start.run (admitted ++ .updateJob (.issued 0) newName :: (begun ++ ended))).engine.store.jobs.get?
      (.issued 0) = some k ∧ k.status = .completed ∧ k.details = j.details := by
  obtain ⟨j, answer, name⟩ : ∃ j, ((start.run admitted).engine.updateJob (.issued 0) newName).2 =
      .ok j ∧ j.name = "watch" := ok_of_toOption (by decide +kernel)
  obtain ⟨k, stored, status⟩ := Option.map_eq_some_iff.mp
    (show ((start.run (admitted ++ .updateJob (.issued 0) newName ::
      (begun ++ ended))).engine.store.jobs.get? (.issued 0)).map (·.status) = some .completed by
        decide +kernel)
  have none_ : (start.run admitted).jobCopies (.issued 0) = [] := by decide +kernel
  have short : ∀ b ∈ admitted ++ .updateJob (.issued 0) newName :: (begun ++ ended), b.IsShort := by
    simp [admitted, begun, ended, Action.IsShort]
  have lasts := update_lasts new_start short (Id.distinct_of_le (by decide +kernel))
  exact ⟨j, k, answer, name, stored, status, lasts.1 _ _ j k rfl answer (by simp [none_])
    (by simp [begun, ended]) stored⟩

/-- A job is renamed while it runs. When it has ended, its worker stores it with the old name. -/
theorem update_lost : ∃ j k,
    ((start.run (admitted ++ begun)).engine.store.jobs.get? (.issued 0)).map (·.status) =
      some .inProgress ∧
    ((start.run (admitted ++ begun)).engine.updateJob (.issued 0) newName).2 = .ok j ∧
    (start.run (admitted ++ begun ++ .updateJob (.issued 0) newName :: ended)).flights.length = 0 ∧
    (start.run (admitted ++ begun ++ .updateJob (.issued 0) newName ::
      ended)).engine.store.jobs.get? (.issued 0) = some k ∧ k.details ≠ j.details := by
  obtain ⟨j, answer, name⟩ : ∃ j, ((start.run (admitted ++ begun)).engine.updateJob
      (.issued 0) newName).2 = .ok j ∧ j.name = "watch" := ok_of_toOption (by decide +kernel)
  obtain ⟨k, stored, name'⟩ := Option.map_eq_some_iff.mp
    (show ((start.run (admitted ++ begun ++ .updateJob (.issued 0) newName ::
      ended)).engine.store.jobs.get? (.issued 0)).map (·.name) = some "poll" by decide +kernel)
  refine ⟨j, k, by decide +kernel, answer, by decide +kernel, stored, fun same => ?_⟩
  have names : k.name = j.name := congrArg JobDetails.name same
  simp [name, name'] at names

end System

end Rota
