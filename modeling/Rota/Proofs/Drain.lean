import Rota.Proofs.Course
import Rota.Proofs.Crew
/-! What becomes of the works that a pool is given: they are taken in the order in which they were
sent, none is executed twice, and when the first stop of a pool returns, none is left. -/
namespace Rota

def Worker.isGone : Worker → Bool
  | gone => true
  | idle | holding _ _ | running _ _ | between _ _ => false

private theorem Worker.isGone_iff (w : Worker) : w.isGone = true ↔ w = .gone := by
  cases w <;> simp [isGone]

namespace Crew

def executing (c : Crew) : List Nat := c.workers.filterMap Worker.begun?

structure Orderly (c : Crew) (size : Nat) : Prop where
  inOrder : c.taken.Pairwise (· < ·)
  /-- No work is passed over, unless its caller has given it up. -/
  behindNone : ∀ n ∈ c.taken, ∀ m < n, m ∈ c.taken ∨ m ∈ c.dropped
  once : (c.begun.map (·.1)).Nodup
  own : ∀ w ∈ c.begun, w.1 ∈ c.taken ∧ c.sent[w.1]? = some w.2
  execute : (c.executing ++ c.ended).Perm (c.begun.map (·.1))
  few : c.executing.length ≤ max size 1

/-- Every work whose caller was told that it was accepted has been executed once, and these are all
that were sent and not given up. -/
structure Finished (c : Crew) : Prop where
  begun : (c.begun.map (·.1)).Perm c.accepted
  ended : c.ended.Perm c.accepted
  once : c.accepted.Nodup
  all : (c.accepted ++ c.dropped).Perm (List.range c.sent.length)

/-- No work is accepted or begun any more, and this is so since `returned`. -/
structure Rests (returned c : Crew) : Prop where
  finished : c.Finished
  refuses (h : Handover) : c.pool.send h = (c.pool, .refused) ∧ c.perform (.call h) = c
  sent : c.sent = returned.sent
  begun : c.begun = returned.begun

/-- Whether a stop that was called in state `called` may return in state `c`: it waits for the
workers that no stop before it has begun to wait for. -/
def stopReturns (called c : Crew) : Bool :=
  !called.pool.isUnjoined || c.workers.all Worker.isGone

variable {c c' : Crew} {e : Engine} {unit : TimeUnit} {size capacity : Nat}

/-! ### What stays -/

structure Kept (c c' : Crew) : Prop where
  terms : c.pool.SameTerms c'.pool
  size : c'.workers.length = c.workers.length

theorem Kept.rfl : c.Kept c := ⟨Pool.Alike.rfl.toSameTerms, .refl _⟩

private theorem kept_send (c : Crew) (place : Nat) : c.Kept (c.send place) := by
  unfold Crew.send
  split
  next => exact .rfl
  next h _ =>
    have terms := Pool.sameTerms_put c.pool h
    dsimp only
    split <;> next put =>
      rw [put] at terms
      exact ⟨terms, .refl _⟩

private theorem kept_take (c : Crew) (place : Nat) : c.Kept (c.take place) := by
  unfold Crew.take
  split
  next first _ => exact ⟨Pool.sameTerms_take first, List.length_set⟩
  next => exact .rfl

private theorem kept_beginWork (c : Crew) (place : Nat) : c.Kept (c.beginWork place) := by
  unfold Crew.beginWork
  split
  next n h _ =>
    have alike := Pool.Alike.of_eq (Engine.pool_beginWork c.engine .worker h)
    dsimp only
    split <;> next begun =>
      rw [begun] at alike
      exact ⟨alike.toSameTerms, List.length_set⟩
  next => exact .rfl

private theorem kept_conclude (c : Crew) (place : Nat) (result : JobResult) :
    c.Kept (c.conclude place result) := by
  unfold Crew.conclude
  split
  next n x _ =>
    have alike := pool_concludeJob c.engine x result
    split <;> next concluded =>
      rw [concluded] at alike
      exact ⟨alike.toSameTerms, List.length_set⟩
  next => exact .rfl

private theorem kept_goOn (c : Crew) (place : Nat) : c.Kept (c.goOn place) := by
  unfold Crew.goOn
  split
  next n i _ =>
    have alike := Pool.Alike.of_eq (Engine.pool_goOn c.engine i)
    split <;> next began =>
      rw [began] at alike
      exact ⟨alike.toSameTerms, List.length_set⟩
  next => exact .rfl

private theorem kept_leave (c : Crew) (place : Nat) : c.Kept (c.leave place) := by
  unfold Crew.leave
  split
  next =>
    split
    next => exact ⟨Pool.Alike.rfl.toSameTerms, List.length_set⟩
    next => exact .rfl
  next => exact .rfl

/-- All moves but those of starts and stops. -/
theorem kept_perform (c : Crew) {m : Move} (other : m ∉ [.start, .hire, .close, .join]) :
    c.Kept (c.perform m) := by
  cases m with
  | start | hire | close | join => exact absurd other (by simp)
  | call h =>
    unfold perform
    dsimp only
    split <;> exact ⟨⟨rfl, rfl, rfl, rfl⟩, rfl⟩
  | send place => exact kept_send c place
  | hangUp place => exact ⟨⟨rfl, rfl, rfl, rfl⟩, rfl⟩
  | abandon ticket => exact ⟨⟨rfl, rfl, rfl, rfl⟩, rfl⟩
  | take place => exact kept_take c place
  | beginWork place => exact kept_beginWork c place
  | conclude place result => exact kept_conclude c place result
  | goOn place => exact kept_goOn c place
  | leave place => exact kept_leave c place
  | elsewhere e => exact ⟨⟨rfl, rfl, rfl, rfl⟩, rfl⟩

private theorem size_perform (c : Crew) (m : Move) :
    (c.perform m).pool.workers = c.pool.workers := by
  by_cases other : m ∉ [.start, .hire, .close, .join]
  · exact (kept_perform c other).terms.workers
  cases m with
  | start =>
    unfold perform Crew.start
    dsimp only
    split <;> rfl
  | hire =>
    unfold perform Crew.hire
    dsimp only
    split <;> rfl
  | close | join => rfl
  | _ => exact absurd (by simp) other

/-- Workers that have come do not disappear. -/
theorem manned_perform (sound : c.Sound) (m : Move) (manned : c.workers ≠ []) :
    (c.perform m).workers ≠ [] := by
  by_cases other : m ∉ [.start, .hire, .close, .join]
  · rw [← List.length_pos_iff, (kept_perform c other).size, List.length_pos_iff]
    exact manned
  cases m with
  | start =>
    unfold perform Crew.start
    dsimp only
    split <;> exact manned
  | hire =>
    unfold perform Crew.hire
    dsimp only
    split
    next starting => exact absurd (sound.staffed.unstarted (.inl starting)) manned
    next => exact manned
  | close | join => exact manned
  | _ => exact absurd (by simp) other

/-- Until a stop begins to wait, nobody waits for the workers. -/
theorem unjoined_perform {m : Move} (first : m ≠ .join)
    (unjoined : c.workers ≠ [] → c.pool.isUnjoined = true) :
    (c.perform m).workers ≠ [] → (c.perform m).pool.isUnjoined = true := by
  by_cases other : m ∉ [.start, .hire, .close, .join]
  · have kept := kept_perform c other
    rw [← List.length_pos_iff, kept.size, kept.terms.isUnjoined, List.length_pos_iff]
    exact unjoined
  cases m with
  | start =>
    unfold perform Crew.start
    dsimp only
    split <;> exact unjoined
  | hire =>
    unfold perform Crew.hire
    dsimp only
    split
    next => exact fun _ => rfl
    next => exact unjoined
  | close => exact unjoined
  | join => exact absurd rfl first
  | _ => exact absurd (by simp) other

/-! ### Whole runs -/

private theorem new?_eq (fresh : Pool.new? unit size capacity = some e.pool) :
    e.pool = ⟨unit, max size 1, max capacity 1, true, false, false, false, [], [], 0, [], []⟩ := by
  unfold Pool.new? at fresh
  split at fresh
  next => exact (Option.some.inj fresh).symm
  next => cases fresh

theorem Sound.of_new (fresh : Pool.new? unit size capacity = some e.pool) : (of e).Sound := by
  have new := new?_eq fresh
  have channel : (of e).pool.channel = [] := congrArg Pool.channel new
  have waiting : (of e).pool.waiting = [] := congrArg Pool.waiting new
  refine ⟨⟨?_, ?_, .nil, .refl _⟩, ⟨.refl _, .refl _, ?_, ?_⟩, ⟨.inl rfl, ?_, fun _ => rfl, ?_⟩⟩
  · rw [channel]
    exact .nil
  · rw [waiting]
    exact .nil
  · exact fun n h held => by cases held
  · exact fun w begun => by cases begun
  · exact fun starting => by cases starting
  · exact fun gone => by cases gone

theorem run_append (c : Crew) (moves more : List Move) :
    c.run (moves ++ more) = (c.run moves).run more := List.foldl_append

theorem Sound.run (sound : c.Sound) (moves : List Move) : (c.run moves).Sound := by
  induction moves generalizing c with
  | nil => exact sound
  | cons m moves ih => exact ih (sound.perform m)

private theorem size_run (c : Crew) (moves : List Move) :
    (c.run moves).pool.workers = c.pool.workers := by
  induction moves generalizing c with
  | nil => rfl
  | cons m moves ih => exact (ih (c.perform m)).trans (size_perform c m)

private theorem unjoined_run {moves : List Move} (first : .join ∉ moves)
    (unjoined : c.workers ≠ [] → c.pool.isUnjoined = true) :
    (c.run moves).workers ≠ [] → (c.run moves).pool.isUnjoined = true := by
  induction moves generalizing c with
  | nil => exact unjoined
  | cons m moves ih =>
    exact ih (List.not_mem_of_not_mem_cons first)
      (unjoined_perform (List.ne_of_not_mem_cons first).symm unjoined)

private theorem manned_run (sound : c.Sound) (moves : List Move) (manned : c.workers ≠ []) :
    (c.run moves).workers ≠ [] := by
  induction moves generalizing c with
  | nil => exact manned
  | cons m moves ih => exact ih (sound.perform m) (manned_perform sound m manned)

/-! ### What a run has done -/

private theorem begun_sublist (workers : List Worker) :
    (workers.filterMap Worker.begun?).Sublist (workers.filterMap Worker.work?) := by
  induction workers with
  | nil => exact .slnil
  | cons w workers ih =>
    cases w with
    | idle | gone => exact ih
    | holding n h => exact ih.cons n
    | running n x | between n i => exact ih.cons_cons n

private theorem Sound.behindNone (sound : c.Sound) {n m : Nat} (taken : n ∈ c.taken)
    (before : m < n) :
    m ∈ c.taken ∨ m ∈ c.dropped := by
  obtain ⟨inOrder, _, acceptedFirst⟩ := List.pairwise_append.mp sound.numbered.order
  obtain ⟨_, _, takenFirst⟩ := List.pairwise_append.mp inOrder
  have all := sound.numbered.all
  have inside : n < c.sent.length :=
    List.mem_range.mp (all.subset (by simp [accepted, taken]))
  have known := all.symm.subset (List.mem_range.mpr (Nat.lt_trans before inside))
  simp only [accepted, List.mem_append] at known
  obtain ((known | queued) | lined) | dropped := known
  · exact .inl known
  · exact absurd (takenFirst n taken m queued) (by omega)
  · exact absurd (acceptedFirst n (List.mem_append_left _ taken) m lined) (by omega)
  · exact .inr dropped

private theorem Sound.orderly (sound : c.Sound) (sized : c.pool.workers = max size 1) :
    c.Orderly size := by
  obtain ⟨numbered, custody, staffed⟩ := sound
  have inOrder := (List.pairwise_append.mp (List.pairwise_append.mp numbered.order).1).1
  have inside := (begun_sublist c.workers).append_right c.ended
  refine ⟨inOrder, fun n taken m => Sound.behindNone ⟨numbered, custody, staffed⟩ taken, ?_,
    fun w begun => ⟨?_, ?_⟩, custody.begun, ?_⟩
  · rw [← custody.begun.nodup_iff]
    exact inside.nodup (custody.taken.nodup_iff.mpr (inOrder.imp Nat.ne_of_lt))
  · exact custody.taken.subset
      (inside.subset (custody.begun.symm.subset (List.mem_map_of_mem begun)))
  · exact custody.own w begun
  · refine Nat.le_trans (List.length_filterMap_le ..) ?_
    rcases staffed.size with none_ | all
    · simp [none_]
    · exact Nat.le_of_eq (all.trans sized)

/-- Nothing can come any more, and no worker is left to take it. -/
structure Over (c : Crew) : Prop where
  closed : c.isClosed = true
  isStarted : c.pool.isStarted = true
  hired : c.isStarting = false
  gone : ∀ w ∈ c.workers, w = .gone

private theorem Sound.over (sound : c.Sound) (manned : c.workers ≠ [])
    (gone : ∀ w ∈ c.workers, w = .gone) :
    c.Over ∧ c.Finished := by
  obtain ⟨numbered, custody, staffed⟩ := sound
  obtain ⟨w, member⟩ := List.exists_mem_of_ne_nil _ manned
  obtain ⟨closed, empty⟩ := staffed.closed (gone w member ▸ member)
  have waiting := ((isClosed_eq c).mp closed).2.2
  have queued := numbered.queued
  rw [empty, List.forall₂_nil_right_iff] at queued
  have lined := numbered.lined
  rw [waiting, List.forall₂_nil_right_iff] at lined
  have taken : c.accepted = c.taken := by rw [accepted, queued, List.append_nil]
  have ended := custody.taken
  have begun := custody.begun
  have all := numbered.all
  rw [List.filterMap_eq_nil_iff.mpr fun w member => by rw [gone w member]; rfl, List.nil_append]
    at ended begun
  rw [lined, List.map_nil, List.append_nil] at all
  refine ⟨⟨closed, ?_, ?_, gone⟩, begun.symm.trans (taken ▸ ended), taken ▸ ended, ?_, all⟩
  · by_contra fresh
    exact manned (staffed.unstarted (.inr (by simpa using fresh)))
  · by_contra starting
    exact manned (staffed.unstarted (.inl (by simpa using starting)))
  · exact (all.nodup_iff.mpr List.nodup_range).of_append_left

private theorem Over.of_closed (ended : c.Over) (closed : c'.isClosed = true)
    (same : (c'.pool.isStarted, c'.isStarting, c'.workers) =
      (c.pool.isStarted, c.isStarting, c.workers)) : c'.Over := by
  simp only [Prod.mk.injEq] at same
  obtain ⟨started, starting, workers⟩ := same
  exact ⟨closed, started.trans ended.isStarted, starting.trans ended.hired, workers ▸ ended.gone⟩

/-- Nobody is there who could move. -/
theorem Over.unmoved (ended : c.Over) (place : Nat) :
    c.take place = c ∧ c.beginWork place = c ∧ (∀ result, c.conclude place result = c) ∧
      c.goOn place = c ∧ c.leave place = c := by
  cases here : c.workers[place]? with
  | none => simp [Crew.take, Crew.beginWork, Crew.conclude, Crew.goOn, Crew.leave, here]
  | some w =>
    cases ended.gone w (List.mem_of_getElem? here)
    simp [Crew.take, Crew.beginWork, Crew.conclude, Crew.goOn, Crew.leave, here]

theorem Over.perform (ended : c.Over) (m : Move) : (c.perform m).Over ∧
    (c.perform m).begun = c.begun ∧ (c.perform m).sent = c.sent := by
  obtain ⟨accepting, callers, waiting⟩ := (isClosed_eq c).mp ended.closed
  cases m with
  | start => simp [Crew.perform, Crew.start, ended.isStarted, ended]
  | hire => simp [Crew.perform, Crew.hire, ended.hired, ended]
  | call h => simp [Crew.perform, accepting, ended]
  | send place => simp [Crew.perform, Crew.send, callers, ended]
  | hangUp place =>
    have none_ : c.callers.eraseIdx place = [] := by rw [callers, List.eraseIdx_nil]
    exact ⟨ended.of_closed ((isClosed_eq _).mpr ⟨accepting, none_, waiting⟩) rfl, rfl, rfl⟩
  | abandon ticket =>
    have none_ : c.pool.waiting.filter (·.1 ≠ ticket) = [] := by rw [waiting, List.filter_nil]
    exact ⟨ended.of_closed ((isClosed_eq _).mpr ⟨accepting, callers, none_⟩) rfl, rfl, rfl⟩
  | take place | beginWork place | conclude place result | goOn place | leave place =>
    obtain ⟨takes, begins, concludes, goes, leaves⟩ := ended.unmoved place
    simp [Crew.perform, takes, begins, concludes, goes, leaves, ended]
  | close => exact ⟨ended.of_closed ((isClosed_eq _).mpr ⟨rfl, callers, waiting⟩) rfl, rfl, rfl⟩
  | join => exact ⟨ended.of_closed ended.closed rfl, rfl, rfl⟩
  | elsewhere e => exact ⟨ended.of_closed ended.closed rfl, rfl, rfl⟩

theorem Over.run (ended : c.Over) (moves : List Move) : (c.run moves).Over ∧
    (c.run moves).begun = c.begun ∧ (c.run moves).sent = c.sent := by
  induction moves generalizing c with
  | nil => exact ⟨ended, rfl, rfl⟩
  | cons m moves ih =>
    obtain ⟨ended', begun, sent⟩ := ended.perform m
    obtain ⟨ended'', begun', sent'⟩ := ih ended'
    exact ⟨ended'', begun'.trans begun, sent'.trans sent⟩

theorem Over.refused (ended : c.Over) (h : Handover) :
    c.pool.send h = (c.pool, .refused) ∧ c.perform (.call h) = c := by
  have accepting := ((isClosed_eq c).mp ended.closed).1
  simp [Pool.send_eq, Crew.perform, accepting]

/-- From a new pool, whatever callers and workers do, works are taken in the order in which they
were sent, each at most once, and no more execute than there are workers. Let a pool have its
workers when a stop is called, and let this stop be the first to wait for them. When it returns, all
accepted works have been executed once, and from then on none is accepted or begun. -/
theorem drained (fresh : Pool.new? unit size capacity = some e.pool) :
    (∀ moves, ((of e).run moves).Orderly size) ∧
    ∀ before between after called waiting returned,
      (of e).run before = called → (called.perform .close).run between = waiting →
      (waiting.perform .join).run after = returned →
      called.workers ≠ [] → .join ∉ before ++ between → waiting.stopReturns returned = true →
      ∀ later, returned.Rests (returned.run later) := by
  have new := new?_eq fresh
  have sound := Sound.of_new fresh
  refine ⟨fun moves => (sound.run moves).orderly
    ((size_run _ moves).trans (congrArg Pool.workers new)), ?_⟩
  rintro before between after called waiting returned rfl closes rfl manned first returns later
  have called := sound.run before
  have waits : (of e).run (before ++ .close :: between) = waiting :=
    (run_append _ before _).trans closes
  have unwaited : waiting.workers ≠ [] → waiting.pool.isUnjoined = true := by
    rw [← waits]
    exact unjoined_run (by simpa using first) fun some_ => absurd rfl some_
  have manned : waiting.workers ≠ [] := by
    rw [← closes]
    exact manned_run (called.perform .close) between (manned_perform called .close manned)
  have joined : (waiting.perform .join).Sound := waits ▸ (sound.run _).perform .join
  have gone : ∀ w ∈ ((waiting.perform .join).run after).workers, w = .gone := fun w member =>
    (Worker.isGone_iff w).mp
      (List.all_eq_true.mp (by simpa [stopReturns, unwaited manned] using returns) w member)
  have returned := joined.run after
  have manned := manned_run joined after manned
  obtain ⟨ended, begun, sent⟩ := (returned.over manned gone).1.run later
  have finished := ((returned.run later).over (manned_run returned later manned) ended.gone).2
  exact ⟨finished, ended.refused, sent, begun⟩

def reportWork : Handover := ⟨.pipeline (.issued 0) Engine.withReport.store.jobs.values, true⟩

/-- One of three works is taken, the next one is in the channel and the last one waits. -/
def threeWorks : List Move :=
  [.start, .hire, .call reportWork, .call reportWork, .call reportWork, .send 0, .take 0,
    .beginWork 0, .send 0, .send 0]

def allFail : List Move :=
  [.conclude 0 (.failure (.issued 1) "no answer"), .take 0, .beginWork 0,
    .conclude 0 (.failure (.issued 1) "no answer"), .take 0, .beginWork 0,
    .conclude 0 (.failure (.issued 1) "no answer"), .leave 0]

/-- The stop closes the pool while a work waits for room, and all three works are executed. -/
theorem drained_threeWorks :
    ((((of Engine.withReport).run threeWorks).run [.close, .join]).run allFail).accepted =
      [0, 1, 2] ∧
    (((((of Engine.withReport).run threeWorks).perform .close).perform .join).run allFail).Rests
      ((((((of Engine.withReport).run threeWorks).perform .close).perform .join).run allFail).run
        [.call reportWork, .send 0, .take 0]) := by
  have fresh : Pool.new? .second 1 1 = some Engine.withReport.pool := rfl
  have manned : ((of Engine.withReport).run threeWorks).workers ≠ [] :=
    List.isEmpty_eq_false_iff.mp (by decide +kernel)
  exact ⟨by decide +kernel, (drained fresh).2 threeWorks [] allFail _ _ _ rfl rfl rfl manned
    (by simp [threeWorks]) (by decide +kernel) _⟩

/-- A second stop returns while works wait that were accepted. -/
theorem undrained_secondStop :
    ¬ ∀ before between after called waiting returned,
      (of Engine.withReport).run before = called → (called.perform .close).run between = waiting →
      (waiting.perform .join).run after = returned →
      called.workers ≠ [] → waiting.stopReturns returned = true → returned.Finished := by
  intro all
  have finished := all (threeWorks ++ [.close, .join]) [] [] _ _ _ rfl rfl rfl
    (List.isEmpty_eq_false_iff.mp (by decide +kernel)) (by decide +kernel)
  exact absurd finished.begun.length_eq (by decide +kernel)

end Crew

end Rota
