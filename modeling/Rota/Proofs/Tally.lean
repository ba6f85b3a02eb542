import Rota.Proofs.Audit
import Rota.Proofs.Elapsed
import Rota.Proofs.Exclusive
import Rota.Proofs.Orphans
/-! Counters and transactions.
A standalone job counts its runs in its row, and ticks and works have copies of it that are written
over the row later. What the counters say is what the transactions of the job come to, since nobody
has another copy when a run of it ends. -/
namespace Rota

namespace System

/-- The copies of the standalone job `id` that may be written over its row: those that ticks have
still to submit, and the first jobs of works. -/
inductive Carried (s : System) (id : Id) (c : Job) : Prop
  | due (inside : c ∈ s.due) (alone : c.IsAlone id)
  | flown (f : Flight) (flies : f ∈ s.flights) (alone : f.IsAlone id) (first : f.jobs.head? = some c)

/-- The row of the standalone job `id` and all its copies tell what its transactions come to. -/
structure Tallied (s : System) (id : Id) : Prop where
  numbered : ∀ row ∈ s.engine.store.transactions.rows, Id.IsIssued s.engine.issued row.1
  stored : ∀ j, s.engine.store.jobs.get? id = some j → j.pipelineId = none →
    j.tally = s.engine.store.tally id
  carried : ∀ c, s.Carried id c → (s.engine.store.jobs.get? id).isSome = true →
    c.tally = s.engine.store.tally id

def Repeats (s : System) (id : Id) (c : Job) : Prop :=
  (∃ d, s.Carried id d ∧ c.tally = d.tally) ∨
    ∃ i, s.engine.store.jobs.get? id = some i ∧ i.pipelineId = none ∧ c.tally = i.tally

variable {s s' : System} {a : Action} {A : List Origin} {id : Id} {c j : Job} {x : Execution}
  {place : Nat} {result : JobResult}

private theorem read_of_due (inside : c ∈ s.due) : c ∈ s.scanned ++ s.called := by
  obtain ⟨t, member, own⟩ := List.mem_flatMap.mp inside
  cases kind : t.isScan with
  | true =>
    refine List.mem_append_left _ (List.mem_flatMap.mpr ⟨t, List.mem_filter.mpr ⟨member, ?_⟩, own⟩)
    simp [kind]
  | false =>
    refine List.mem_append_right _ (List.mem_append_right _ ?_)
    exact List.mem_flatMap.mpr ⟨t, List.mem_filter.mpr ⟨member, by simp [kind]⟩, own⟩

theorem Carried.copy (carried : s.Carried id c) (sound : s.Sound) :
    s.engine.store.IsCopy s.engine.issued c ∧ c.IsAlone id := by
  cases carried with
  | due inside alone => exact ⟨sound.copies c (read_of_due inside), alone⟩
  | flown f flies alone first =>
    obtain ⟨waiting, jobs⟩ := List.head?_eq_some_iff.mp first
    obtain ⟨copy, owner⟩ := (sound.flights f flies).copies c (by simp [jobs])
    exact ⟨copy, (Flight.isAlone_iff jobs owner).mp alone⟩

private theorem Tallied.repeats (tallied : s.Tallied id) (repeats : s.Repeats id c)
    (present : (s.engine.store.jobs.get? id).isSome = true) :
    c.tally = s.engine.store.tally id := by
  rcases repeats with ⟨d, carried, same⟩ | ⟨i, stored, alone, same⟩
  · exact same.trans (tallied.carried d carried present)
  · exact same.trans (tallied.stored i stored alone)

/-! ### Where counters come from -/

/-- The first job of a work is a copy that the tick or the worker had before. -/
theorem Step.flown (step : Step s a s') (sound : s.Sound) {f : Flight} (flies : f ∈ s'.flights)
    (alone : f.IsAlone id) (first : f.jobs.head? = some c) :
    ∃ d, s.Carried id d ∧ c.tally = d.tally := by
  have old (before : f ∈ s.flights) : ∃ d, s.Carried id d ∧ c.tally = d.tally :=
    ⟨c, .flown f before alone first, rfl⟩
  cases step with
  | quiet _ _ _ _ _ _ flights => exact old (flights.mem_iff.mp flies)
  | managed change _ held =>
    refine old ?_
    unfold System.flights at flies ⊢
    rwa [change.pool, held] at flies
  | scanned _ _ _ _ _ _ flights => exact old (flights ▸ flies)
  | looked _ _ _ _ _ _ _ flights => exact old (flights ▸ flies)
  | rearmed _ _ _ _ _ _ _ _ _ _ _ _ _ flights => exact old (flights ▸ flies)
  | refused _ _ _ _ _ _ _ flights => exact old (flights ▸ flies)
  | sent job g rest _ _ _ jobs _ owner _ _ flights _ asked =>
    rcases List.mem_cons.mp (flights.mem_iff.mp flies) with rfl | before
    · obtain ⟨place, _, next⟩ := asked
      rw [jobs] at first
      cases first
      have head := (Flight.isAlone_iff jobs owner.symm).mp alone
      exact ⟨job, .due (mem_due_of_next next) head, rfl⟩
    · exact old before
  | started g g' others job waiting records before after _ jobs jobs' _ owner =>
    rcases List.mem_cons.mp (after.mem_iff.mp flies) with rfl | left
    · rw [jobs'] at first
      cases first
      have owned := ((sound.flights g (before.mem_iff.mpr List.mem_cons_self)).copies job
        (by simp [jobs])).2
      have head : job.IsAlone id := (Flight.isAlone_iff jobs' (owned.trans owner.symm)).mp alone
      exact ⟨job, .flown g (before.mem_iff.mpr List.mem_cons_self)
        ((Flight.isAlone_iff jobs owned).mpr head) (by simp [jobs]), rfl⟩
    · exact old (before.mem_iff.mpr (List.mem_cons_of_mem _ left))
  | paused g g' others job k waiting before after _ _ _ jobs _ _ _ owner _ _ _ whole =>
    rcases List.mem_cons.mp (after.mem_iff.mp flies) with rfl | left
    · obtain ⟨p, record⟩ := Option.isSome_iff_exists.mp whole
      have inPipeline :=
        ((sound.flights g (before.mem_iff.mpr List.mem_cons_self)).begun p record).1
      cases (alone.1.symm.trans owner).trans inPipeline
    · exact old (before.mem_iff.mpr (List.mem_cons_of_mem _ left))
  | ended g others _ _ _ _ before after =>
    exact old (before.mem_iff.mpr (List.mem_cons_of_mem _ (after.mem_iff.mp flies)))
  | abandoned _ gone _ _ _ _ _ flights =>
    exact old (flights.mem_iff.mpr (List.mem_append_right _ flies))

/-- The row of a standalone job has the counters that its row or a copy had before, unless a run of
it has ended. -/
theorem JobSource.repeats (source : s.JobSource a id j) (sound : s.Sound)
    (alone : j.pipelineId = none) (quiet : ∀ place result, a ≠ .finish place result) :
    s.Repeats id j ∨ (j.id = id ∧ j.IsBlank ∧ j.origin ∈ a.admits s.engine) := by
  have row {i : Job} (stored : s.engine.store.jobs.get? id = some i) (origin : j.origin = i.origin)
      (same : j.tally = i.tally) : s.Repeats id j :=
    Or.inr ⟨i, stored, (Job.pipelineId_of_origin origin).symm.trans alone, same⟩
  cases source with
  | kept stored => exact Or.inl (row stored rfl rfl)
  | admitted key blank admits => exact Or.inr ⟨key, blank, admits⟩
  | updated r i c _ stored read same =>
    subst same
    have counters : (r.applyTo c).tally = i.tally := Job.tally_reread (c := c) read
    exact Or.inl (row stored ((Job.origin_applyTo r c).trans (Job.origin_reread read)) counters)
  | submitted place c _ next submitted =>
    have due := mem_due_of_next next
    left
    cases submitted with
    | kept stored => exact row stored rfl rfl
    | rearmed _ _ d _ _ read _ inside _ same =>
      -- Only the jobs of a pipeline are armed again with it.
      obtain ⟨_, loaded⟩ := sound.consistent.loaded read
      subst same
      cases alone.symm.trans (loaded.copies d inside).2
    | scheduled key same =>
      subst same
      exact Or.inl ⟨c, .due due ⟨key, alone⟩, rfl⟩
    | returned key _ same =>
      subst same
      exact Or.inl ⟨c, .due due ⟨key, alone⟩, rfl⟩
  | started place h c waiting _ here jobs key same =>
    subst same
    have flies := flies_held here
    have owner := ((sound.flights _ flies).copies c (by simp [jobs])).2
    refine Or.inl (Or.inl ⟨c, .flown h.flight flies ?_ (by simp [jobs]), rfl⟩)
    exact (Flight.isAlone_iff jobs owner).mpr ⟨key, alone⟩
  | settled place result _ asked => exact absurd asked (quiet place result)

/-- A copy that may become the row has the counters that the row or a copy had before. -/
theorem Carried.source (carried : (s.perform a).Carried id c) (step : Step s a (s.perform a))
    (sound : s.Sound) : s.Repeats id c := by
  cases carried with
  | due inside alone =>
    rcases due_perform sound inside with before | ⟨i, stored, read⟩
    · exact Or.inl ⟨c, .due before alone, rfl⟩
    · have owner := Job.pipelineId_of_origin (Job.origin_reread read)
      exact Or.inr ⟨i, alone.1 ▸ stored, owner.symm.trans alone.2, Job.tally_reread read⟩
  | flown f flies alone first => exact Or.inl (step.flown sound flies alone first)

/-! ### Steps -/

/-- A run of a standalone job takes its flight with it. -/
theorem flights_finish (here : s.engine.pool.executing[place]? = some x)
    (own : result.jobId = x.current.id) (alone : x.flight.pipelineId = none) :
    s.flights.Perm (x.flight :: (s.finish place result).flights) := by
  have noPipeline : x.pipeline = none := by
    simpa [Execution.flight, Execution.pipelineId?] using alone
  have before := (Pool.flights_eraseIdx here).append_right (s.held.map Held.flight)
  unfold finish
  rw [here]
  dsimp only
  rw [if_pos own]
  split
  next concluded =>
    obtain ⟨_, _, _, _, _, _, _, _, rfl, _, _, _, _, goes | ⟨_, same, _⟩⟩ :=
      Engine.concludeJob_spec concluded
    · obtain ⟨_, _, whole, _⟩ := goes
      cases noPipeline.symm.trans whole
    · cases same
  next e ended concluded =>
    have kept : e.pool.flights =
        { s.engine.pool with executing := s.engine.pool.executing.eraseIdx place }.flights := by
      obtain ⟨_, _, _, _, _, _, _, _, rfl, _⟩ := Engine.concludeJob_spec concluded
      rfl
    have after : (System.mk (e.endExecution x.executor ended) s.ticks s.held).flights =
        e.pool.flights ++ s.held.map Held.flight := by
      rw [System.flights, Engine.pool_endExecution]
    rw [after, kept]
    exact before

/-- A transaction is stored under an identifier that is new. -/
theorem Tallied.fresh (tallied : s.Tallied id) {n : Nat} (distinct : Id.Distinct n)
    (more : s.engine.issued < n) :
    s.engine.store.transactions.get? (.issued s.engine.issued) = none := by
  cases found : s.engine.store.transactions.get? (.issued s.engine.issued) with
  | none => rfl
  | some t =>
    obtain ⟨row, first, _⟩ := Option.map_eq_some_iff.mp found
    have key : row.1 = .issued s.engine.issued := by simpa using List.find?_some first
    have issued := tallied.numbered row (List.mem_of_find?_eq_some first)
    exact absurd (key ▸ issued) (distinct.fresh (Nat.le_refl _) more)

/-- What was stored under a known identifier is stored under it still, or nothing is. -/
theorem Carried.present (carried : s.Carried id c) (sound : s.Sound) (step : Step s a s')
    (distinct : Id.Distinct s'.engine.issued)
    (present : (s'.engine.store.jobs.get? id).isSome = true) :
    (s.engine.store.jobs.get? id).isSome = true := by
  obtain ⟨copy, key, _⟩ := carried.copy sound
  obtain ⟨j, stored⟩ := Option.isSome_iff_exists.mp present
  obtain ⟨_, older, _⟩ := step.keeps sound.consistent distinct
  obtain ⟨i, before, _⟩ := older.jobs id j (key ▸ copy.issued) stored
  simp [before]

/-- A job that has just been admitted has no transactions. -/
theorem tally_admitted (accounted : s.Accounted A)
    (distinct : Id.Distinct (s.perform a).engine.issued) (key : j.id = id)
    (admitted : j.origin ∈ a.admits s.engine) : s.engine.store.tally id = (0, 0) := by
  have none_ : s.engine.store.runsOf id = [] := by
    refine List.filter_eq_nil_iff.mpr fun t member own => ?_
    have issued := accounted.numbered.transactions t member
    obtain ⟨k, above, below, number⟩ := admits_issued admitted
    have same : t.jobId = .issued k := (of_decide_eq_true own).trans (key.symm.trans number)
    exact distinct.fresh above below (same ▸ issued)
  rw [Store.tally, none_]
  rfl

/-- Steps that end no run change neither the transactions of a job nor its counters. -/
theorem Tallied.perform_quiet (tallied : s.Tallied id) (accounted : s.Accounted A) (sound : s.Sound)
    (step : Step s a (s.perform a)) (distinct : Id.Distinct (s.perform a).engine.issued)
    (quiet : ∀ place result, a ≠ .finish place result) : (s.perform a).Tallied id := by
  have keeps := keepsRuns_perform accounted.numbered distinct quiet
  have present {d : Job} (repeats : s.Repeats id d)
      (after : ((s.perform a).engine.store.jobs.get? id).isSome = true) :
      (s.engine.store.jobs.get? id).isSome = true := by
    rcases repeats with ⟨e, carried, _⟩ | ⟨i, stored, _⟩
    · exact carried.present sound step distinct after
    · simp [stored]
  refine ⟨fun row member => ?_, fun j stored alone => ?_, fun d carried after => ?_⟩
  · exact (tallied.numbered row (keeps.subset row member)).mono (issued_perform s a)
  · have after : ((s.perform a).engine.store.jobs.get? id).isSome = true := by simp [stored]
    rw [keeps.tally after]
    rcases ((rows_perform accounted a).1 id j stored).repeats sound alone quiet with
      repeats | ⟨key, blank, admitted⟩
    · exact tallied.repeats repeats (present repeats after)
    · rw [tally_admitted accounted distinct key admitted, Job.tally, blank.runCount, blank.failCount]
  · have repeats := carried.source step sound
    rw [keeps.tally after]
    exact tallied.repeats repeats (present repeats after)

/-- If a run of the standalone job `id` ends, the job is armed again or does not recur. -/
def GoesOn (id : Id) (s : System) (a : Action) : Prop :=
  ∀ x ∈ s.ending? a, x.current.IsAlone id → x.current.goesOn s.engine.now = true

instance (id : Id) (s : System) (a : Action) : Decidable (GoesOn id s a) :=
  inferInstanceAs (Decidable (∀ x ∈ s.ending? a,
    x.current.IsAlone id → x.current.goesOn s.engine.now = true))

private theorem Tallied.finish_numbered (tallied : s.Tallied id)
    (here : s.engine.pool.executing[place]? = some x) (own : result.jobId = x.current.id)
    (distinct : Id.Distinct (s.finish place result).engine.issued) :
    ∀ row ∈ (s.finish place result).engine.store.transactions.rows,
      Id.IsIssued (s.finish place result).engine.issued row.1 := by
  obtain ⟨e, store, issued, _, _, transactions, later⟩ := store_finish here own
  rw [transactions, later]
  refine Engine.settleJob_numbered ?_ ?_ ?_
  · rw [← later, issued]
    exact issued_finish s place result
  · rw [← later, store, issued]
    exact tallied.fresh distinct
  · rw [store, issued]
    exact tallied.numbered

/-- The end of a run is a transaction of its own job only. -/
theorem Tallied.finish_runs (tallied : s.Tallied id)
    (here : s.engine.pool.executing[place]? = some x) (own : result.jobId = x.current.id)
    (distinct : Id.Distinct (s.finish place result).engine.issued) (other : x.current.id ≠ id) :
    (s.finish place result).engine.store.tally id = s.engine.store.tally id := by
  obtain ⟨e, store, issued, _, _, transactions, later⟩ := store_finish here own
  rw [Store.tally_congr transactions, Engine.settleJob_tally_other ?_ ?_, store]
  · rwa [Job.id_of_origin (Job.origin_markFinished _ _ _)]
  · rw [← later, store, issued]
    exact tallied.fresh distinct

/-- The end of a run of another job, or of a job of a pipeline, is of no concern to a standalone
job. -/
theorem Tallied.finish_other (tallied : s.Tallied id) (sound : s.Sound)
    (here : s.engine.pool.executing[place]? = some x) (own : result.jobId = x.current.id)
    (other : ¬x.current.IsAlone id) (step : Step s (.finish place result) (s.finish place result))
    (distinct : Id.Distinct (s.finish place result).engine.issued) :
    (s.finish place result).Tallied id := by
  have flies := flies_executing (List.mem_of_getElem? here)
  have copy := ((sound.flights _ flies).copies x.current List.mem_cons_self).1
  have unchanged {i : Job} (stored : s.engine.store.jobs.get? id = some i)
      (alone : i.pipelineId = none) :
      (s.finish place result).engine.store.tally id = s.engine.store.tally id := by
    refine tallied.finish_runs here own distinct fun key => other ⟨key, ?_⟩
    exact (Job.pipelineId_of_origin (copy.agrees i (key ▸ stored))).symm.trans alone
  refine ⟨tallied.finish_numbered here own distinct, fun j stored alone => ?_,
    fun c carried present => ?_⟩
  · cases (rows_finish s place result).1 id j stored with
    | kept before =>
      rw [unchanged before alone]
      exact tallied.stored j before alone
    | settled place' result' y asked here' own key settles =>
      cases asked
      cases here.symm.trans here'
      have same := settles.origin.trans (Job.origin_markFinished _ _ _)
      exact absurd ⟨key, (Job.pipelineId_of_origin same).symm.trans alone⟩ other
    | admitted _ _ admits => cases admits
    | updated _ _ _ asked => cases asked
    | submitted _ _ asked => cases asked
    | started _ _ _ _ asked => cases asked
  · rcases Carried.source (a := .finish place result) carried step sound with
      ⟨d, before, same⟩ | ⟨i, stored, alone, same⟩
    · have present := before.present sound step distinct present
      obtain ⟨i, stored⟩ := Option.isSome_iff_exists.mp present
      obtain ⟨copy, key, alone⟩ := before.copy sound
      have owner := Job.pipelineId_of_origin (copy.agrees i (key ▸ stored))
      rw [unchanged stored (owner.trans alone)]
      exact same.trans (tallied.carried d before present)
    · rw [unchanged stored alone]
      exact same.trans (tallied.stored i stored alone)

/-- When the run of a standalone job has ended, nobody has a copy of it. -/
theorem Exclusive.finish_carried (exclusive : s.Exclusive id)
    (here : s.engine.pool.executing[place]? = some x) (own : result.jobId = x.current.id)
    (alone : x.flight.IsAlone id) : ¬(s.finish place result).Carried id c := by
  have flights := flights_finish here own alone.1
  have busy := exclusive.busy ⟨x.flight, flights.mem_iff.mpr List.mem_cons_self, alone⟩
  rintro (⟨inside, same⟩ | ⟨f, flies, same, _⟩)
  · unfold due at inside
    rw [ticks_finish] at inside
    exact busy.unread c (read_of_due inside) same
  · have sole := exclusive.flights
    rw [flights.countP_eq] at sole
    exact fresh_of_sole sole alone f flies same

/-- The end of a run of the standalone job is recorded and counted, or neither. -/
theorem Tallied.finish_own (tallied : s.Tallied id) (sound : s.Sound) (exclusive : s.Exclusive id)
    (here : s.engine.pool.executing[place]? = some x) (own : result.jobId = x.current.id)
    (alone : x.current.IsAlone id) (step : Step s (.finish place result) (s.finish place result))
    (distinct : Id.Distinct (s.finish place result).engine.issued)
    (goes : x.current.goesOn s.engine.now = true) : (s.finish place result).Tallied id := by
  have flies := flies_executing (List.mem_of_getElem? here)
  obtain ⟨copy, owner⟩ := (sound.flights _ flies).copies x.current List.mem_cons_self
  have head : x.flight.IsAlone id := (Flight.isAlone_iff rfl owner).mpr alone
  have current : s.Carried id x.current := .flown x.flight flies head rfl
  refine ⟨tallied.finish_numbered here own distinct, fun j stored _ => ?_,
    fun c carried => absurd carried (exclusive.finish_carried here own head)⟩
  have present := current.present sound step distinct (by simp [stored])
  obtain ⟨i, before⟩ := Option.isSome_iff_exists.mp present
  have standalone : i.pipelineId = none :=
    (Job.pipelineId_of_origin (copy.agrees i (alone.1 ▸ before))).trans alone.2
  obtain ⟨e, store, issued, now, jobs, transactions, later⟩ := store_finish here own
  generalize ended : Engine.markFinished x.current result e.now = job at jobs transactions later
  have fresh : e.issued < (e.settleJob job).1.issued →
      e.store.transactions.get? (.issued e.issued) = none := by
    rw [← later, store, issued]
    exact tallied.fresh distinct
  have goesOn : job.goesOn (job.completedAt.getD e.now) = true := by
    subst ended
    rw [Engine.completedAt_markFinished, Option.getD_some, Job.goesOn_markFinished, now]
    exact goes
  have terminal : job.status.isTerminal = true := ended ▸ Job.isTerminal_markFinished _ _ _
  have counters : job.tally = x.current.tally := ended ▸ Job.tally_markFinished _ _ _
  have key : job.id = id :=
    (Job.id_of_origin (ended ▸ Job.origin_markFinished _ _ _)).trans alone.1
  rw [Store.tally_congr transactions]
  rw [jobs] at stored
  subst key
  refine Engine.settleJob_tally terminal goesOn fresh (store ▸ before) ?_ ?_ stored
  · rw [store]
    exact tallied.stored i before standalone
  · rw [store, counters]
    exact tallied.carried _ current present

private theorem Tallied.perform_finish (tallied : s.Tallied id) (sound : s.Sound)
    (exclusive : s.Exclusive id) (step : Step s (.finish place result) (s.finish place result))
    (distinct : Id.Distinct (s.finish place result).engine.issued)
    (goes : GoesOn id s (.finish place result)) : (s.finish place result).Tallied id := by
  cases here : s.engine.pool.executing[place]? with
  | none =>
    unfold finish
    rw [here]
    exact tallied
  | some x =>
    by_cases own : result.jobId = x.current.id
    · by_cases alone : x.current.IsAlone id
      · exact tallied.finish_own sound exclusive here own alone step distinct (goes x here alone)
      · exact tallied.finish_other sound here own alone step distinct
    · unfold finish
      rw [here]
      dsimp only
      rwa [if_neg own]

theorem Tallied.perform (tallied : s.Tallied id) (accounted : s.Accounted A) (sound : s.Sound)
    (exclusive : s.Exclusive id) (step : Step s a (s.perform a))
    (distinct : Id.Distinct (s.perform a).engine.issued) (goes : GoesOn id s a) :
    (s.perform a).Tallied id := by
  by_cases quiet : ∀ place result, a ≠ .finish place result
  · exact tallied.perform_quiet accounted sound step distinct quiet
  · simp only [ne_eq, not_forall, not_not] at quiet
    obtain ⟨place, result, rfl⟩ := quiet
    exact tallied.perform_finish sound exclusive step distinct goes

/-! ### Runs -/

variable {now : Instant} {registry : Registry} {queueCapacity : Nat} {unit : TimeUnit}
  {workers poolCapacity : Nat} {actions : List Action}

private theorem tallied_new
    (made : new? now registry queueCapacity unit workers poolCapacity = some s) :
    s.Tallied id := by
  obtain ⟨store, _⟩ := new_eq made
  exact ⟨by simp [store, Store.empty, Table.empty], by simp [store, Store.empty],
    by simp [store, Store.empty]⟩

/-- In every run from an empty store with one scan after the other, a stored standalone job counts
as many runs as there are transactions of it, and as many failed runs as there are failed ones among
these, if whenever a run of it ended its next one had a date or it did not recur then. -/
theorem tallied_run (made : new? now registry queueCapacity unit workers poolCapacity = some s)
    (short : ∀ a ∈ actions, a.IsShort) (distinct : Id.Distinct (s.run actions).engine.issued)
    (scans : Along ScansAlone s actions) (goes : Along (GoesOn id) s actions)
    (stored : (s.run actions).engine.store.jobs.get? id = some j) (alone : j.pipelineId = none)
    (few : ((s.run actions).engine.store.runsOf id).length < 4294967296) :
    j.runCount.toNat = ((s.run actions).engine.store.runsOf id).length ∧
      j.failCount.toNat =
        ((s.run actions).engine.store.runsOf id).countP (·.status = .failed) := by
  have new : s.Exclusive id := by
    obtain ⟨_, _, scanned, called, flights⟩ := new_eq made
    refine ⟨?_, ?_, ?_, ?_, ?_⟩ <;> simp [scanned, called, flights]
  have all := run_keeps
    (P := fun t => t.Exclusive id ∧ (∃ A, t.Accounted A) ∧ t.Tallied id)
    (fun t a sound ⟨exclusive, ⟨A, accounted⟩, tallied⟩ ⟨scans, goes⟩ distinct step =>
      ⟨step.exclusive sound exclusive distinct scans, ⟨_, accounted.perform distinct⟩,
        tallied.perform accounted sound exclusive step distinct goes⟩)
    (sound_new made) ⟨new, ⟨[], accounted_new made⟩, tallied_new made⟩ (scans.and goes) short distinct
  have same := all.2.2.2.stored j stored alone
  obtain ⟨runs, failures⟩ := Prod.mk.inj same
  have fewer := List.countP_le_length (p := fun t : Transaction => decide (t.status = .failed))
    (l := (s.run actions).engine.store.runsOf id)
  rw [runs, failures, UInt32.toNat_ofNat_of_lt' few,
    UInt32.toNat_ofNat_of_lt' (Nat.lt_of_le_of_lt fewer few)]
  exact ⟨rfl, rfl⟩

def failedSecond : List Action :=
  secondRun ++ [.take, .proceed 0, .finish 0 (.failure (.issued 0) "no answer")]

theorem tallied_failedSecond : Along ScansAlone start failedSecond ∧
    Along (GoesOn (.issued 0)) start failedSecond ∧
    ∃ j, (start.run failedSecond).engine.store.jobs.get? (.issued 0) = some j ∧
      j.runCount.toNat = 2 ∧ j.failCount.toNat = 1 := by
  have short : ∀ a ∈ failedSecond, a.IsShort := by
    simp [failedSecond, secondRun, Action.IsShort]
  have distinct : Id.Distinct (start.run failedSecond).engine.issued :=
    Id.distinct_of_le (by decide +kernel)
  have scans : Along ScansAlone start failedSecond := by decide +kernel
  have goes : Along (GoesOn (.issued 0)) start failedSecond := by decide +kernel
  have runs : ((start.run failedSecond).engine.store.runsOf (.issued 0)).length = 2 := by
    decide +kernel
  have failures : ((start.run failedSecond).engine.store.runsOf (.issued 0)).countP
      (·.status = .failed) = 1 := by decide +kernel
  have row : ((start.run failedSecond).engine.store.jobs.get? (.issued 0)).map (·.pipelineId) =
      some none := by decide +kernel
  obtain ⟨j, stored, alone⟩ := Option.map_eq_some_iff.mp row
  have counted := tallied_run new_start short distinct scans goes stored alone (by omega)
  rw [runs, failures] at counted
  exact ⟨scans, goes, j, stored, counted⟩

def farOff : List Action :=
  [.createJob ⟨"archive", none, "noop", [], 0, none, true, false, ⟨some "4294967295 months", false⟩⟩] ++
    begun ++ ended

/-- A run behind which the job cannot be armed again is recorded and not counted. -/
theorem untallied_farOff : Along ScansAlone start farOff ∧
    (start.run farOff).engine.store.isClosed = false ∧
    (start.run farOff).engine.pool.executing.isEmpty = true ∧
    ((start.run farOff).engine.store.runsOf (.issued 0)).map (·.status) = [.completed] ∧
    ∃ j, (start.run farOff).engine.store.jobs.get? (.issued 0) = some j ∧ j.pipelineId = none ∧
      j.status = .pending ∧ j.runAt = none ∧ j.runCount = 0 := by
  have row : ((start.run farOff).engine.store.jobs.get? (.issued 0)).map
      (fun j => (j.pipelineId, j.status, j.runAt, j.runCount)) = some (none, .pending, none, 0) := by
    decide +kernel
  obtain ⟨j, stored, fields⟩ := Option.map_eq_some_iff.mp row
  simp only [Prod.mk.injEq] at fields
  exact ⟨by decide +kernel, by decide +kernel, by decide +kernel, by decide +kernel, j, stored, fields⟩

end System

end Rota
