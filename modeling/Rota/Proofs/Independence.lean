import Rota.Proofs.Apart
import Rota.Proofs.Episode
/-! Works without a common job or pipeline do not influence each other.
What becomes of a work depends on its own rows alone, and it writes no others. So two such works
leave the same tables behind in whatever order their accesses to storage come. -/
namespace Rota

namespace Work

/-- The rows that a work writes: its own jobs and the pipeline that it executes. -/
def realm (w : Work) : Realm := ⟨w.jobs.map (·.id), w.pipelineId?.toList⟩

def BelongsTo (s : Store) (w : Work) (p : Id) : Prop :=
  w.pipelineId? = some p ∨
    ∃ row, s.pipelines.get? p = some row ∧ ∃ id ∈ row.jobIds, id ∈ w.realm.jobs

/-- The works have no job in common and belong to no common pipeline. -/
structure Independent (s : Store) (v w : Work) : Prop where
  jobs (id : Id) (own : id ∈ v.realm.jobs) : id ∉ w.realm.jobs
  pipelines (p : Id) (own : v.BelongsTo s p) : ¬w.BelongsTo s p

variable {s : Store} {v w : Work}

theorem Independent.symm (independent : Independent s v w) : Independent s w v where
  jobs id own own' := independent.jobs id own' own
  pipelines p own own' := independent.pipelines p own' own

theorem Independent.aside (independent : Independent s v w) : v.realm.Aside w.realm s where
  jobs id reads own := by
    rcases reads with mine | ⟨p, executed, row, found, listed⟩
    · exact independent.jobs id mine own
    · exact independent.pipelines p (.inl (Option.mem_toList.mp executed))
        (.inr ⟨row, found, id, listed, own⟩)
  pipelines p executed executed' :=
    independent.pipelines p (.inl (Option.mem_toList.mp executed))
      (.inl (Option.mem_toList.mp executed'))

end Work

namespace Script

variable {r : Realm} {n k : Nat} {ep : Episode} {job : Job} {isSaved : Bool}
  {next : Except StoreError Unit → Script}

theorem Inside.mono {script : Script} (inside : script.Inside r n) (le : n ≤ k) :
    script.Inside r k := by
  induction script generalizing n k with
  | finished => exact trivial
  | access a next ih =>
    obtain ⟨own, afford, rest⟩ := inside
    exact ⟨own, Nat.le_trans afford le, fun answer fits =>
      ih answer (rest answer fits) (Nat.sub_le_sub_right le _)⟩
  | send result next ih => exact ⟨inside.1, ih inside.2 le⟩

private theorem id_rearm {now : Instant} {armed : Job} (done : job.rearm now = .ok armed) :
    armed.id = job.id := by
  obtain ⟨interval, _, rest⟩ := bind_ok done
  cases interval with
  | none =>
    cases rest
    rfl
  | some i => exact Job.id_of_origin (Job.origin_recycle rest)

private theorem inside_settleJob (own : job.id ∈ r.jobs)
    (then_ : ∀ answer, (next answer).Inside r n) :
    (settleJob ep job next).Inside r (n + 1) := by
  unfold settleJob
  have parks : (access (.updateJob (job.reset none)) next).Inside r n :=
    ⟨own, Nat.zero_le _, fun answer _ => then_ answer⟩
  split
  next =>
    refine ⟨own, Nat.le_add_left _ _, fun _ _ => ?_⟩
    split
    next => exact parks
    next armed rearmed =>
      have own' : armed.id ∈ r.jobs := id_rearm rearmed ▸ own
      refine ⟨own', Nat.zero_le _, fun answer _ => ?_⟩
      cases answer with
      | error err => exact parks
      | ok _ => exact then_ _
  next =>
    exact ⟨own, Nat.zero_le _, fun answer _ => (then_ answer).mono (Nat.le_succ n)⟩

private theorem inside_settlePipeline {p : Option Pipeline} (own : ∀ q ∈ p, q.id ∈ r.pipelines)
    (then_ : ∀ answer, (next answer).Inside r n) : (settlePipeline p next).Inside r n := by
  unfold settlePipeline
  cases p with
  | none => exact then_ _
  | some q =>
    dsimp only
    split
    next => exact ⟨own q rfl, Nat.zero_le _, fun answer _ => then_ answer⟩
    next => exact then_ _

private theorem inside_sendIf {result : JobResult} {then_ : Script} (own : result.jobId ∈ r.jobs)
    (inside : then_.Inside r n) : (sendIf isSaved result then_).Inside r n := by
  unfold sendIf
  split
  next => exact ⟨own, inside⟩
  next => exact inside

private theorem inside_conclude {p : Option Pipeline} {isLast : Bool}
    {then_ : Option Pipeline → Script}
    (own : job.id ∈ r.jobs) (executed : ∀ q ∈ p, q.id ∈ r.pipelines)
    (goes : ∀ p, (∀ q ∈ p, q.id ∈ r.pipelines) → (then_ p).Inside r n) :
    (conclude isSaved ep p job isLast then_).Inside r (n + 1) := by
  have key := Job.id_of_origin (Job.origin_markFinished job (ep.result job) ep.finished)
  have executed' : ∀ q ∈ p.map fun p => Engine.pipelineAfter p (ep.result job) isLast ep.judged,
      q.id ∈ r.pipelines := by
    intro q member
    obtain ⟨p', here, rfl⟩ := Option.map_eq_some_iff.mp member
    rw [Engine.id_pipelineAfter]
    exact executed p' here
  unfold conclude
  refine inside_settleJob (key.symm ▸ own) fun settled => inside_settlePipeline executed'
    fun judged => ?_
  refine inside_sendIf own ?_
  split
  next =>
    split
    next => exact goes _ executed'
    next => exact trivial
  next => exact trivial

private theorem inside_runJobs {jobs : List Job} (own : ∀ job ∈ jobs, job.id ∈ r.jobs)
    (eps : Nat → Episode) {p : Option Pipeline} (executed : ∀ q ∈ p, q.id ∈ r.pipelines) :
    (runJobs isSaved eps p jobs).Inside r jobs.length := by
  induction jobs generalizing eps p with
  | nil => exact trivial
  | cons job waiting ih =>
    obtain ⟨first, others⟩ := List.forall_mem_cons.mp own
    refine ⟨first, Nat.zero_le _, fun answer _ => ?_⟩
    cases answer with
    | error err => exact trivial
    | ok _ => exact inside_conclude first executed fun p executed => ih others _ executed

/-- The script of a work stays within the rows of the work. -/
theorem inside_ofWork (isSaved : Bool) (eps : Nat → Episode) (w : Work) :
    (ofWork isSaved eps w).Inside w.realm w.jobs.length := by
  have own : ∀ job ∈ w.jobs, job.id ∈ w.realm.jobs := fun job => List.mem_map_of_mem
  cases w with
  | task job => exact inside_runJobs own eps (by simp)
  | pipeline id jobs =>
    have executes : id ∈ (Work.pipeline id jobs).realm.pipelines := List.mem_singleton_self id
    refine ⟨executes, Nat.zero_le _, fun answer fits => ?_⟩
    cases answer with
    | error err => exact trivial
    | ok p =>
      cases jobs with
      | nil => exact trivial
      | cons job waiting =>
        have own' : p.id ∈ (Work.pipeline id (job :: waiting)).realm.pipelines :=
          fits p rfl ▸ executes
        refine ⟨own', Nat.zero_le _, fun marked _ => ?_⟩
        cases marked with
        | error err => exact trivial
        | ok _ =>
          refine inside_runJobs own eps fun q same => ?_
          cases same
          exact own'

end Script

def Handover.strand (h : Handover) (eps : Nat → Episode) : Strand :=
  ⟨Script.ofWork h.isSaved eps h.work, []⟩

theorem Engine.saveResult_save {e e' : Engine} {result : JobResult} {rest : List JobResult}
    (first : e.pool.unsaved = result :: rest) (saved : e.saveResult? = some e') :
    e'.storage = e.storage.save result ∧ e'.pool.unsaved = rest := by
  unfold saveResult? at saved
  rw [first] at saved
  have saves : e.storage.save result = (e.storage.write (e.store.createResult result)).1 := rfl
  rw [saves]
  dsimp only at saved
  cases created : e.store.createResult result with
  | ok store =>
    rw [created] at saved
    cases saved
    exact ⟨rfl, rfl⟩
  | error err =>
    rw [created] at saved
    cases saved
    exact ⟨rfl, rfl⟩

/-- A work that an engine executes without a break, and whose results are stored behind it, leaves
what its strand leaves. -/
theorem Engine.finish_carryOut {e : Engine} (executor : Executor) {h : Handover} {turns : List Turn}
    (some_ : h.work.jobs ≠ []) (saved : e.pool.unsaved = [])
    (ended : (e.carryOut executor h turns).ended.isSome = true) : ∃ eps,
    (h.strand eps).finish e.storage =
      (e.carryOut executor h turns).engine.pool.unsaved.foldl Storage.save
        (e.carryOut executor h turns).engine.storage := by
  obtain ⟨eps, storage, unsaved⟩ := carryOut_followed executor some_ ended
  refine ⟨eps, ?_⟩
  rw [storage, unsaved, saved]
  rfl

namespace Duo

variable {s : Storage} {v w : Handover} {eps eps' : Nat → Episode}

def ofWorks (s : Storage) (v w : Handover) (eps eps' : Nat → Episode) : Duo :=
  ⟨s, v.strand eps, w.strand eps'⟩

private theorem apart_ofWorks (independent : Work.Independent s.store v.work w.work)
    (filed : v.work.realm.Filed s.store) (filed' : w.work.realm.Filed s.store)
    (roomy : s.Roomy (v.work.jobs.length + w.work.jobs.length)) :
    Apart v.work.realm w.work.realm (ofWorks s v w eps eps') where
  inside := ⟨_, _, ⟨Script.inside_ofWork v.isSaved eps v.work, by simp [ofWorks, Handover.strand]⟩,
    ⟨Script.inside_ofWork w.isSaved eps' w.work, by simp [ofWorks, Handover.strand]⟩, roomy⟩
  filed := ⟨filed, filed'⟩
  aside := ⟨independent.aside, independent.symm.aside⟩

/-- Whenever a work makes an access or a result of it is stored, this changes nothing outside the
work's own rows. When two works that are independent have ended and all their results are stored,
the tables are what they are when the works are executed one after the other, in either order, and
the rows of each work are what they are when it is executed alone. -/
theorem works_independent (independent : Work.Independent s.store v.work w.work)
    (filed : v.work.realm.Filed s.store) (filed' : w.work.realm.Filed s.store)
    (roomy : s.Roomy (v.work.jobs.length + w.work.jobs.length)) (eps eps' : Nat → Episode) :
    (∀ moves b,
      v.work.realm.Keeps ((ofWorks s v w eps eps').run moves).store
        (((ofWorks s v w eps eps').run moves).move (.first b)).store ∧
      w.work.realm.Keeps ((ofWorks s v w eps eps').run moves).store
        (((ofWorks s v w eps eps').run moves).move (.second b)).store) ∧
    ∀ moves, ((ofWorks s v w eps eps').run moves).isOver = true →
      s.store.Matches ((ofWorks s v w eps eps').run moves).store
        ((w.strand eps').finish ((v.strand eps).finish s)).store ∧
      s.store.Matches ((ofWorks s v w eps eps').run moves).store
        ((v.strand eps).finish ((w.strand eps').finish s)).store ∧
      v.work.realm.Agree ((v.strand eps).finish s).store
        ((ofWorks s v w eps eps').run moves).store ∧
      w.work.realm.Agree ((w.strand eps').finish s).store
        ((ofWorks s v w eps eps').run moves).store := by
  have apart : Apart v.work.realm w.work.realm (ofWorks s v w eps eps') :=
    apart_ofWorks independent filed filed' roomy
  refine ⟨fun moves b => (run_follows apart moves).1.keeps b, fun moves ended => ?_⟩
  obtain ⟨inTurn, inTurn'⟩ := apart.inTurn ended
  obtain ⟨alone, alone'⟩ := apart.alone ended
  exact ⟨inTurn, inTurn', alone, alone'⟩

def withBoth : Engine :=
  ((System.start.perform (.createPipeline System.exampleRequest)).perform
    (.createJob ⟨"clean", none, "noop", [], 0, none, false, false, ⟨some "1 sec", false⟩⟩)).engine

def reportAlone : Handover := ⟨.pipeline (.issued 0) (withBoth.store.jobs.values.take 2), true⟩

def cleanAlone : Handover :=
  ⟨.task ((withBoth.store.jobs.get? (.issued 3)).get (by decide +kernel)), true⟩

def failing : Episode := ⟨none, some "no answer", .epoch, .epoch, .epoch, .epoch, .epoch⟩

def succeeding : Episode := ⟨some .null, none, .epoch, .epoch, .epoch, .epoch, .epoch⟩

/-- The accesses of the two works by turns. -/
def interwoven : List Move :=
  (List.replicate 7 [.first .step, .second .step]).flatten ++ [.second .save, .first .save]

theorem works_independent_interwoven :
    ((ofWorks withBoth.storage reportAlone cleanAlone (fun _ => failing) fun _ => succeeding).run
      interwoven).store.transactions.values.map (·.status) = [.completed, .failed] ∧
    withBoth.store.Matches ((ofWorks withBoth.storage reportAlone cleanAlone (fun _ => failing)
      fun _ => succeeding).run interwoven).store
        ((cleanAlone.strand fun _ => succeeding).finish
          ((reportAlone.strand fun _ => failing).finish withBoth.storage)).store := by
  have none_ : withBoth.storage.store.transactions.rows.isEmpty = true := by decide +kernel
  have others : ∀ row ∈ withBoth.storage.store.pipelines.values,
      ∀ id ∈ row.jobIds, id ∉ cleanAlone.work.realm.jobs := by decide +kernel
  have key : (withBoth.storage.store.pipelines.get? (.issued 0)).all
      (fun row => row.record.id = .issued 0) = true := by decide +kernel
  have independent : Work.Independent withBoth.storage.store reportAlone.work cleanAlone.work := by
    refine ⟨by decide +kernel, fun p _ belongs => ?_⟩
    rcases belongs with executed | ⟨row, found, id, listed, own⟩
    · cases executed
    · exact others row (Table.mem_values_of_get? found) id listed own
  have filed : reportAlone.work.realm.Filed withBoth.storage.store := by
    intro p executed row found
    cases List.mem_singleton.mp executed
    rw [found] at key
    exact of_decide_eq_true key
  have filed' : cleanAlone.work.realm.Filed withBoth.storage.store := by
    intro p executed
    cases executed
  have roomy : withBoth.storage.Roomy
      (reportAlone.work.jobs.length + cleanAlone.work.jobs.length) := by
    refine ⟨Id.distinct_of_le (by decide +kernel), fun n _ _ => ?_⟩
    rw [Table.get?, List.isEmpty_iff.mp none_]
    rfl
  exact ⟨by decide +kernel, ((works_independent independent filed filed' roomy _ _).2 interwoven
    (by decide +kernel)).1⟩

end Duo

end Rota
