import Rota.Proofs.Execution
import Rota.Proofs.Flight
/-! The workers of a pool and the callers who send works to them.
A start is first noted, and then the workers come; a stop first closes the pool, and then waits for
the workers. Every caller first gets a sender, which the pool gives until it is closed, and then
sends its work with it, when the pool may have been closed already. A worker takes works one after
the other and goes when no sender is left and the channel is empty. Works are numbered in the order
in which they are sent, and it is written down what becomes of each of them. -/
namespace Rota

/-- What a worker does, and the number of the work that it does it with. -/
inductive Worker where
  | idle
  /-- It has taken the work and not begun it. -/
  | holding (n : Nat) (h : Handover)
  | running (n : Nat) (x : Execution)
  /-- Between two jobs of the work. -/
  | between (n : Nat) (i : Engine.Interlude)
  | gone

namespace Worker

def work? : Worker → Option Nat
  | idle | gone => none
  | holding n _ | running n _ | between n _ => some n

def begun? : Worker → Option Nat
  | idle | gone | holding _ _ => none
  | running n _ | between n _ => some n

end Worker

namespace Pool

def put (p : Pool) (h : Handover) : Pool × Sent :=
  if p.hasRoom then ({ p with channel := p.channel ++ [h] }, .accepted)
  else
    ({ p with waiting := p.waiting ++ [(p.nextTicket, h)], nextTicket := p.nextTicket + 1 },
      .waiting p.nextTicket)

theorem send_eq (p : Pool) (h : Handover) :
    p.send h = if p.isAccepting then p.put h else (p, .refused) := by
  unfold send put
  cases p.isAccepting <;> rfl

def close (p : Pool) : Pool := { p with isAccepting := false }

/-- Somebody begins to wait for the workers that nobody waits for. -/
def join (p : Pool) : Pool := { p with isUnjoined := false }

structure SameTerms (p q : Pool) : Prop where
  workers : q.workers = p.workers
  isAccepting : q.isAccepting = p.isAccepting
  isStarted : q.isStarted = p.isStarted
  isUnjoined : q.isUnjoined = p.isUnjoined

structure Alike (p q : Pool) : Prop extends p.SameTerms q where
  channel : q.channel = p.channel
  waiting : q.waiting = p.waiting

theorem Alike.rfl {p : Pool} : p.Alike p := ⟨⟨.refl _, .refl _, .refl _, .refl _⟩, .refl _, .refl _⟩

theorem Alike.of_eq {p q : Pool} (same : q = p) : p.Alike q := same ▸ .rfl

theorem sameTerms_put (p : Pool) (h : Handover) : p.SameTerms (p.put h).1 := by
  unfold put
  split <;> exact ⟨.refl _, .refl _, .refl _, .refl _⟩

theorem sameTerms_take {p q : Pool} {h : Handover} (first : p.take? = some (h, q)) :
    p.SameTerms q := by
  unfold Pool.take? at first
  split at first <;> cases first <;> exact ⟨.refl _, .refl _, .refl _, .refl _⟩

/-- The first work leaves the channel, and the first that waits comes behind the others. -/
theorem take?_some {p q : Pool} {h : Handover} (first : p.take? = some (h, q)) :
    ∃ rest, p.channel = h :: rest ∧
      q.channel = rest ++ (p.waiting.head?.map (·.2)).toList ∧ q.waiting = p.waiting.tail := by
  unfold Pool.take? at first
  split at first
  next => cases first
  next h' rest channel waiting =>
    cases first
    exact ⟨rest, channel, by simp [waiting], by simp [waiting]⟩
  next h' rest ticket v later channel waiting =>
    cases first
    exact ⟨rest, channel, by simp [waiting], by simp [waiting]⟩

end Pool

structure Crew where
  engine : Engine
  /-- Whether the workers of a start that was noted are still to come. -/
  isStarting : Bool
  workers : List Worker
  /-- The works of callers who have a sender and have not sent yet. -/
  callers : List Handover
  /-- Every work that was sent; its number is its position. -/
  sent : List Handover
  /-- The numbers of the works in the channel. -/
  queued : List Nat
  /-- Tickets and numbers of the works that wait for room. -/
  lined : List (Nat × Nat)
  /-- The works that were given up while they waited. -/
  dropped : List Nat
  taken : List Nat
  begun : List (Nat × Handover)
  ended : List Nat

inductive Move where
  /-- A start is noted, unless there was one before. -/
  | start
  /-- The workers of a start come. -/
  | hire
  /-- A caller gets a sender for its work. -/
  | call (h : Handover)
  /-- The caller at this place sends its work. -/
  | send (place : Nat)
  /-- The caller at this place gives up before it has sent. -/
  | hangUp (place : Nat)
  /-- A caller whose work waits for room gives it up. -/
  | abandon (ticket : Nat)
  | take (place : Nat)
  | beginWork (place : Nat)
  | conclude (place : Nat) (result : JobResult)
  | goOn (place : Nat)
  /-- The worker at this place finds that no more works can come. -/
  | leave (place : Nat)
  /-- A stop closes the pool. -/
  | close
  /-- A stop begins to wait. -/
  | join
  /-- Anything that is not done with the channel: calls of services, stored results, time. -/
  | elsewhere (e : Engine)

namespace Crew

def of (e : Engine) : Crew := ⟨e, false, [], [], [], [], [], [], [], [], []⟩

def pool (c : Crew) : Pool := c.engine.pool

def withPool (c : Crew) (p : Pool) : Crew := { c with engine := { c.engine with pool := p } }

def withWorker (c : Crew) (place : Nat) (w : Worker) : Crew :=
  { c with workers := c.workers.set place w }

def start (c : Crew) : Crew :=
  if c.pool.isStarted then c
  else { c.withPool { c.pool with isStarted := true } with isStarting := true }

def hire (c : Crew) : Crew :=
  if c.isStarting then
    { c.withPool { c.pool with isUnjoined := true } with
      isStarting := false
      workers := List.replicate c.pool.workers .idle }
  else c

def send (c : Crew) (place : Nat) : Crew :=
  match c.callers[place]? with
  | none => c
  | some h =>
    let c' := { c with callers := c.callers.eraseIdx place, sent := c.sent ++ [h] }
    match c.pool.put h with
    | (p, .waiting ticket) => { c'.withPool p with lined := c.lined ++ [(ticket, c.sent.length)] }
    | (p, _) => { c'.withPool p with queued := c.queued ++ [c.sent.length] }

def abandon (c : Crew) (ticket : Nat) : Crew :=
  { c.withPool (c.pool.abandon ticket) with
    lined := c.lined.filter fun w => w.1 ≠ ticket
    dropped := c.dropped ++ (c.lined.filter fun w => w.1 = ticket).map (·.2) }

/-- A worker takes the first work, and the first that waits gets its place in the channel. -/
def take (c : Crew) (place : Nat) : Crew :=
  match c.workers[place]?, c.pool.take?, c.queued with
  | some .idle, some (h, p), n :: queued =>
    { (c.withPool p).withWorker place (.holding n h) with
      queued := queued ++ (c.lined.head?.map (·.2)).toList
      lined := c.lined.tail
      taken := c.taken ++ [n] }
  | _, _, _ => c

def endWork (c : Crew) (place n : Nat) : Crew :=
  { c.withWorker place .idle with ended := c.ended ++ [n] }

def beginWork (c : Crew) (place : Nat) : Crew :=
  match c.workers[place]? with
  | some (.holding n h) =>
    let c' := { c with begun := c.begun ++ [(n, h)] }
    match c.engine.beginWork .worker h with
    | (e, .ok (some x)) => { c' with engine := e }.withWorker place (.running n x)
    | (e, _) => { c' with engine := e }.endWork place n
  | _ => c

def conclude (c : Crew) (place : Nat) (result : JobResult) : Crew :=
  match c.workers[place]? with
  | some (.running n x) =>
    match c.engine.concludeJob x result with
    | (e, .inl i) => { c with engine := e }.withWorker place (.between n i)
    | (e, .inr _) => { c with engine := e }.endWork place n
  | _ => c

def goOn (c : Crew) (place : Nat) : Crew :=
  match c.workers[place]? with
  | some (.between n i) =>
    match c.engine.goOn i with
    | (e, .inl x) => { c with engine := e }.withWorker place (.running n x)
    | (e, .inr _) => { c with engine := e }.endWork place n
  | _ => c

def isClosed (c : Crew) : Bool :=
  !c.pool.isAccepting && c.callers.isEmpty && c.pool.waiting.isEmpty

def leave (c : Crew) (place : Nat) : Crew :=
  match c.workers[place]? with
  | some .idle =>
    if c.isClosed && c.pool.channel.isEmpty then c.withWorker place .gone else c
  | _ => c

def perform (c : Crew) : Move → Crew
  | .start => c.start
  | .hire => c.hire
  | .call h => if c.pool.isAccepting then { c with callers := c.callers ++ [h] } else c
  | .send place => c.send place
  | .hangUp place => { c with callers := c.callers.eraseIdx place }
  | .abandon ticket => c.abandon ticket
  | .take place => c.take place
  | .beginWork place => c.beginWork place
  | .conclude place result => c.conclude place result
  | .goOn place => c.goOn place
  | .leave place => c.leave place
  | .close => c.withPool c.pool.close
  | .join => c.withPool c.pool.join
  | .elsewhere e => { c with engine := { e with pool := { c.pool with
      isCancelled := e.pool.isCancelled
      executing := e.pool.executing
      unsaved := e.pool.unsaved } } }

def run (c : Crew) (moves : List Move) : Crew := moves.foldl perform c

/-- The works whose callers have been told that they were accepted. -/
def accepted (c : Crew) : List Nat := c.taken ++ c.queued

/-- A start whose workers come at once does what starting the pool does. -/
theorem start_hire (c : Crew) (settled : c.isStarting = false) :
    ((c.perform .start).perform .hire).pool = c.pool.start := by
  cases started : c.engine.pool.isStarted <;>
    simp [perform, start, hire, Pool.start, started, settled, withPool, pool]

/-- A caller that gets a sender and sends at once does what sending to the pool does. -/
theorem send_call (c : Crew) (h : Handover) :
    ((c.perform (.call h)).perform (.send c.callers.length)).pool = (c.pool.send h).1 := by
  rw [Pool.send_eq]
  cases accepting : c.pool.isAccepting with
  | false => simp [perform, accepting, send]
  | true =>
    simp only [perform, accepting, if_true, send]
    rw [List.getElem?_append_right (Nat.le_refl _), Nat.sub_self]
    dsimp only [List.getElem?_cons_zero, pool]
    split <;> next sent => exact (congrArg Prod.fst sent).symm

/-! ### Invariants -/

/-- The numbers are those of the works, and no work gets lost on its way. -/
structure Numbered (c : Crew) : Prop where
  queued : List.Forall₂ (fun n h => c.sent[n]? = some h) c.queued c.pool.channel
  lined : List.Forall₂ (fun w v => w.1 = v.1 ∧ c.sent[w.2]? = some v.2) c.lined c.pool.waiting
  order : (c.accepted ++ c.lined.map (·.2)).Pairwise (· < ·)
  all : (c.accepted ++ c.lined.map (·.2) ++ c.dropped).Perm (List.range c.sent.length)

/-- Every work that was taken is with one worker or has ended. -/
structure Custody (c : Crew) : Prop where
  taken : (c.workers.filterMap Worker.work? ++ c.ended).Perm c.taken
  begun : (c.workers.filterMap Worker.begun? ++ c.ended).Perm (c.begun.map (·.1))
  held : ∀ n h, .holding n h ∈ c.workers → c.sent[n]? = some h
  own : ∀ w ∈ c.begun, c.sent[w.1]? = some w.2

/-- Workers come all at once, and none goes while a work can still come. -/
structure Staffed (c : Crew) : Prop where
  size : c.workers = [] ∨ c.workers.length = c.pool.workers
  noted : c.isStarting = true → c.pool.isStarted = true
  unstarted : c.isStarting = true ∨ c.pool.isStarted = false → c.workers = []
  closed : .gone ∈ c.workers → c.isClosed = true ∧ c.pool.channel = []

structure Sound (c : Crew) : Prop where
  numbered : c.Numbered
  custody : c.Custody
  staffed : c.Staffed

variable {c c' : Crew} {place n : Nat} {w w' : Worker} {h : Handover}

theorem Numbered.of_same (numbered : c.Numbered)
    (log : (c'.sent, c'.queued, c'.lined, c'.dropped, c'.taken) =
      (c.sent, c.queued, c.lined, c.dropped, c.taken))
    (channel : c'.pool.channel = c.pool.channel) (waiting : c'.pool.waiting = c.pool.waiting) :
    c'.Numbered := by
  simp only [Prod.mk.injEq] at log
  obtain ⟨sent, queued, lined, dropped, taken⟩ := log
  constructor
  · rw [queued, channel, sent]
    exact numbered.queued
  · rw [lined, waiting, sent]
    exact numbered.lined
  · rw [accepted, taken, queued, lined]
    exact numbered.order
  · rw [accepted, taken, queued, lined, dropped, sent]
    exact numbered.all

theorem getElem?_of_sent {sent later : List Handover} (more : sent <+: later)
    (here : sent[n]? = some h) : later[n]? = some h := by
  obtain ⟨more, rfl⟩ := more
  exact (List.getElem?_append_left (List.getElem?_eq_some_iff.mp here).1).trans here

private theorem Custody.of_sent (custody : c.Custody) (later : c.sent <+: c'.sent)
    (log : (c'.workers, c'.taken, c'.begun, c'.ended) = (c.workers, c.taken, c.begun, c.ended)) :
    c'.Custody := by
  simp only [Prod.mk.injEq] at log
  obtain ⟨workers, taken, begun, ended⟩ := log
  constructor
  · rw [workers, taken, ended]
    exact custody.taken
  · rw [workers, begun, ended]
    exact custody.begun
  · intro n h
    rw [workers]
    exact fun holds => getElem?_of_sent later (custody.held n h holds)
  · rw [begun]
    exact fun w member => getElem?_of_sent later (custody.own w member)

theorem isClosed_eq (c : Crew) : c.isClosed = true ↔
    c.pool.isAccepting = false ∧ c.callers = [] ∧ c.pool.waiting = [] := by
  simp [isClosed, and_assoc]

/-- What counts is how many workers there are, and that none has gone too early. -/
theorem Staffed.of_kept (staffed : c.Staffed) (workers : c'.workers.length = c.workers.length)
    (starting : c'.isStarting = c.isStarting) (same : c.pool.SameTerms c'.pool)
    (closed : .gone ∈ c'.workers → c'.isClosed = true ∧ c'.pool.channel = []) : c'.Staffed := by
  constructor
  · rw [← List.length_eq_zero_iff, workers, same.workers, List.length_eq_zero_iff]
    exact staffed.size
  · rw [starting, same.isStarted]
    exact staffed.noted
  · rw [starting, same.isStarted, ← List.length_eq_zero_iff, workers, List.length_eq_zero_iff]
    exact staffed.unstarted
  · exact closed

/-- Nothing happens to works. -/
theorem Sound.of_staffed (sound : c.Sound)
    (log : (c'.workers, c'.sent, c'.queued, c'.lined, c'.dropped, c'.taken, c'.begun, c'.ended) =
      (c.workers, c.sent, c.queued, c.lined, c.dropped, c.taken, c.begun, c.ended))
    (channel : c'.pool.channel = c.pool.channel) (waiting : c'.pool.waiting = c.pool.waiting)
    (staffed : c'.Staffed) : c'.Sound := by
  simp only [Prod.mk.injEq] at log
  obtain ⟨workers, sent, queued, lined, dropped, taken, begun, ended⟩ := log
  exact ⟨sound.numbered.of_same (by rw [sent, queued, lined, dropped, taken]) channel waiting,
    sound.custody.of_sent (sent ▸ List.prefix_refl _) (by rw [workers, taken, begun, ended]),
    staffed⟩

/-! ### Steps of workers -/

/-- What is counted over the workers changes only by the one that moves. -/
theorem perm_set {f : Worker → Option Nat} {workers : List Worker} {done more log new : List Nat}
    (here : workers[place]? = some w) (before : (workers.filterMap f ++ done).Perm log)
    (moved : ((f w').toList ++ more).Perm ((f w).toList ++ new)) :
    ((workers.set place w').filterMap f ++ (done ++ more)).Perm (log ++ new) := by
  have inside := (List.getElem?_eq_some_iff.mp here).1
  have was := (perm_eraseIdx here).filterMap f
  have now := (perm_eraseIdx (List.getElem?_set_self (a := w') inside)).filterMap f
  rw [List.eraseIdx_set_eq] at now
  have split (v : Worker) (rest : List Worker) :
      (v :: rest).filterMap f = (f v).toList ++ rest.filterMap f := by
    cases value : f v <;> simp [value]
  rw [split] at was now
  rw [List.perm_iff_count] at *
  intro k
  have := before k
  have := moved k
  have := was k
  have := now k
  simp only [List.count_append] at *
  omega

/-- A worker goes on with its work, or ends it, or goes when no more works can come. -/
theorem Sound.moved {b : List (Nat × Handover)} {d : List Nat} (sound : c.Sound)
    (alike : c.pool.Alike c'.pool)
    (log : (c'.isStarting, c'.callers, c'.sent, c'.queued, c'.lined, c'.dropped, c'.taken) =
      (c.isStarting, c.callers, c.sent, c.queued, c.lined, c.dropped, c.taken))
    (workers : c'.workers = c.workers.set place w') (begun : c'.begun = c.begun ++ b)
    (ended : c'.ended = c.ended ++ d) (here : c.workers[place]? = some w)
    (work : (w'.work?.toList ++ d).Perm w.work?.toList)
    (begins : (w'.begun?.toList ++ d).Perm (w.begun?.toList ++ b.map (·.1)))
    (holds : ∀ n h, w' ≠ .holding n h) (own : ∀ v ∈ b, c.sent[v.1]? = some v.2)
    (closed : w' = .gone → c.isClosed = true ∧ c.pool.channel = []) : c'.Sound := by
  simp only [Prod.mk.injEq] at log
  obtain ⟨starting, callers, sent, queued, lined, dropped, taken⟩ := log
  refine ⟨sound.numbered.of_same (by rw [sent, queued, lined, dropped, taken]) alike.channel
    alike.waiting, ⟨?_, ?_, ?_, ?_⟩,
    sound.staffed.of_kept (by rw [workers, List.length_set]) starting alike.toSameTerms ?_⟩
  · rw [workers, ended, taken, ← List.append_nil c.taken]
    exact perm_set here sound.custody.taken (by simpa using work)
  · rw [workers, ended, begun, List.map_append]
    exact perm_set here sound.custody.begun begins
  · intro n h member
    rw [workers] at member
    rw [sent]
    exact sound.custody.held n h
      ((List.mem_or_eq_of_mem_set member).resolve_right fun same => holds n h same.symm)
  · rw [begun, sent]
    intro v member
    rcases List.mem_append.mp member with before | new
    · exact sound.custody.own v before
    · exact own v new
  · rw [workers, isClosed_eq, callers, alike.isAccepting, alike.waiting, alike.channel,
      ← isClosed_eq]
    exact fun gone => (List.mem_or_eq_of_mem_set gone).elim sound.staffed.closed
      fun same => closed same.symm

theorem pool_concludeJob (e : Engine) (x : Execution) (result : JobResult) :
    e.pool.Alike (e.concludeJob x result).1.pool := by
  obtain ⟨_, _, _, _, _, _, _, _, _, concludes, _⟩ := Engine.concludeJob_eq e x result
  rw [concludes]
  exact ⟨⟨rfl, rfl, rfl, rfl⟩, rfl, rfl⟩

theorem Sound.beginWork (sound : c.Sound) (place : Nat) : (c.beginWork place).Sound := by
  unfold Crew.beginWork
  split
  next n h here =>
    have alike := Pool.Alike.of_eq (Engine.pool_beginWork c.engine .worker h)
    have own : ∀ v ∈ [(n, h)], c.sent[v.1]? = some v.2 := by
      rintro v (_ | ⟨_, ⟨⟩⟩)
      exact sound.custody.held n h (List.mem_of_getElem? here)
    dsimp only
    split
    next e x begun =>
      rw [begun] at alike
      exact sound.moved alike rfl rfl rfl (List.append_nil _).symm here (.refl _) (.refl _)
        (by simp) own (by simp)
    next e answer _ begun =>
      rw [begun] at alike
      exact sound.moved alike rfl rfl rfl rfl here (.refl _) (.refl _) (by simp) own (by simp)
  next => exact sound

theorem Sound.conclude (sound : c.Sound) (place : Nat) (result : JobResult) :
    (c.conclude place result).Sound := by
  unfold Crew.conclude
  split
  next n x here =>
    have alike := pool_concludeJob c.engine x result
    split
    next e i concluded =>
      rw [concluded] at alike
      exact sound.moved alike rfl rfl (List.append_nil _).symm (List.append_nil _).symm here
        (.refl _) (.refl _) (by simp) (by simp) (by simp)
    next e ended concluded =>
      rw [concluded] at alike
      exact sound.moved alike rfl rfl (List.append_nil _).symm rfl here (.refl _) (.refl _)
        (by simp) (by simp) (by simp)
  next => exact sound

theorem Sound.goOn (sound : c.Sound) (place : Nat) : (c.goOn place).Sound := by
  unfold Crew.goOn
  split
  next n i here =>
    have alike := Pool.Alike.of_eq (Engine.pool_goOn c.engine i)
    split
    next e x began =>
      rw [began] at alike
      exact sound.moved alike rfl rfl (List.append_nil _).symm (List.append_nil _).symm here
        (.refl _) (.refl _) (by simp) (by simp) (by simp)
    next e ended began =>
      rw [began] at alike
      exact sound.moved alike rfl rfl (List.append_nil _).symm rfl here (.refl _) (.refl _)
        (by simp) (by simp) (by simp)
  next => exact sound

theorem Sound.leave (sound : c.Sound) (place : Nat) : (c.leave place).Sound := by
  unfold Crew.leave
  split
  next here =>
    split
    next ended =>
      obtain ⟨closed, empty⟩ := Bool.and_eq_true_iff.mp ended
      exact sound.moved .rfl rfl rfl (List.append_nil _).symm
        (List.append_nil _).symm here (.refl _) (.refl _) (by simp) (by simp)
        fun _ => ⟨closed, List.isEmpty_iff.mp empty⟩
    next => exact sound
  next => exact sound

theorem Numbered.take {p : Pool} {queued : List Nat} (numbered : c.Numbered)
    (first : c.pool.take? = some (h, p)) (listed : c.queued = n :: queued)
    (log : (c'.pool, c'.sent, c'.dropped) = (p, c.sent, c.dropped))
    (behind : c'.queued = queued ++ (c.lined.head?.map (·.2)).toList)
    (lined : c'.lined = c.lined.tail) (taken : c'.taken = c.taken ++ [n]) :
    c.sent[n]? = some h ∧ c.pool.channel ≠ [] ∧ c'.Numbered := by
  simp only [Prod.mk.injEq] at log
  obtain ⟨pool, sent, dropped⟩ := log
  obtain ⟨rest, channel, channel', waiting⟩ := Pool.take?_some first
  have inside := numbered.queued
  rw [listed, channel] at inside
  obtain ⟨own, inside⟩ := List.forall₂_cons.mp inside
  have same : c'.accepted ++ c'.lined.map (·.2) = c.accepted ++ c.lined.map (·.2) := by
    rw [accepted, accepted, taken, behind, lined, listed]
    cases c.lined <;> simp
  have waits := numbered.lined
  generalize c.lined = line at behind lined waits
  generalize c.pool.waiting = line' at channel' waiting waits
  refine ⟨own, by simp [channel], ⟨?_, ?_, same ▸ numbered.order, ?_⟩⟩
  · rw [behind, pool, channel', sent]
    refine List.rel_append inside ?_
    cases waits with
    | nil => exact .nil
    | cons head _ => exact .cons head.2 .nil
  · rw [lined, pool, waiting, sent]
    cases waits with
    | nil => exact .nil
    | cons _ others => exact others
  · rw [same, dropped, sent]
    exact numbered.all

theorem Sound.take (sound : c.Sound) (place : Nat) : (c.take place).Sound := by
  unfold Crew.take
  split
  next h p n queued here first listed =>
    obtain ⟨numbered, custody, staffed⟩ := sound
    let c' : Crew := { (c.withPool p).withWorker place (.holding n h) with
      queued := queued ++ (c.lined.head?.map (·.2)).toList
      lined := c.lined.tail
      taken := c.taken ++ [n] }
    obtain ⟨own, some_, numbered'⟩ :=
      numbered.take first listed (show (c'.pool, c'.sent, c'.dropped) = _ from rfl) rfl rfl rfl
    have taken := perm_set here custody.taken (show ((Worker.holding n h).work?.toList ++ []).Perm
      (Worker.idle.work?.toList ++ [n]) from .refl _)
    have begun := perm_set here custody.begun (show ((Worker.holding n h).begun?.toList ++ []).Perm
      (Worker.idle.begun?.toList ++ []) from .refl _)
    rw [List.append_nil] at taken
    rw [List.append_nil, List.append_nil] at begun
    refine ⟨numbered', ⟨taken, begun, ?_, custody.own⟩, staffed.of_kept (List.length_set ..)
      rfl (Pool.sameTerms_take first) fun gone => ?_⟩
    · intro m v member
      rcases List.mem_or_eq_of_mem_set member with before | same
      · exact custody.held m v before
      · cases same
        exact own
    · rcases List.mem_or_eq_of_mem_set gone with before | same
      · exact absurd (staffed.closed before).2 some_
      · cases same
  next => exact sound

/-! ### Steps of callers -/

/-- A new work comes behind all others. -/
theorem Numbered.sent_one (numbered : c.Numbered)
    (log : (c'.sent, c'.dropped) = (c.sent ++ [h], c.dropped))
    (behind : c'.accepted ++ c'.lined.map (·.2) =
      c.accepted ++ c.lined.map (·.2) ++ [c.sent.length])
    (queued : List.Forall₂ (fun n h => c'.sent[n]? = some h) c'.queued c'.pool.channel)
    (lined : List.Forall₂ (fun w v => w.1 = v.1 ∧ c'.sent[w.2]? = some v.2) c'.lined
      c'.pool.waiting) : c'.Numbered := by
  simp only [Prod.mk.injEq] at log
  obtain ⟨sent, dropped⟩ := log
  refine ⟨queued, lined, ?_, ?_⟩
  · rw [behind, List.pairwise_append]
    refine ⟨numbered.order, List.pairwise_singleton _ _, fun n member m last => ?_⟩
    rw [List.mem_singleton.mp last]
    exact List.mem_range.mp (numbered.all.subset (List.mem_append_left _ member))
  · rw [behind, dropped, sent, List.length_append, List.length_singleton, List.range_succ]
    refine (List.Perm.append_right _ (List.perm_append_comm)).trans ?_
    rw [List.append_assoc]
    exact (List.perm_append_comm).trans (numbered.all.append_right _)

theorem Numbered.send (numbered : c.Numbered) (place : Nat) : (c.send place).Numbered := by
  unfold Crew.send
  split
  next => exact numbered
  next h here =>
    have queued := numbered.queued.imp fun _ _ =>
      getElem?_of_sent (List.prefix_append c.sent [h])
    have lined := numbered.lined.imp fun _ _ => And.imp_right
      (getElem?_of_sent (List.prefix_append c.sent [h]))
    dsimp only
    unfold Pool.put
    split
    next p ticket put =>
      split at put
      next => cases put
      next =>
        cases put
        refine numbered.sent_one rfl ?_ queued (List.rel_append lined (.cons ⟨rfl, ?_⟩ .nil))
        · simp [accepted, withPool]
        · simp
    next p answer other put =>
      split at put
      next room =>
        cases put
        have none_ : c.lined = [] := by
          have waits := numbered.lined
          have empty := List.isEmpty_iff.mp (Bool.and_eq_true_iff.mp room).1
          rw [empty] at waits
          exact List.forall₂_nil_right_iff.mp waits
        refine numbered.sent_one rfl ?_ (List.rel_append queued (.cons ?_ .nil)) lined
        · simp [accepted, withPool, none_]
        · simp
      next =>
        cases put
        exact absurd rfl (other _)

theorem Sound.send (sound : c.Sound) (place : Nat) : (c.send place).Sound := by
  refine ⟨sound.numbered.send place, ?_, ?_⟩
  all_goals
    unfold Crew.send
    split
  next => exact sound.custody
  next =>
    dsimp only
    split <;> exact sound.custody.of_sent (List.prefix_append _ _) rfl
  next => exact sound.staffed
  next h here =>
    have terms := Pool.sameTerms_put c.pool h
    have none_gone : .gone ∉ c.workers := fun gone => by
      rw [((isClosed_eq c).mp (sound.staffed.closed gone).1).2.1] at here
      cases here
    dsimp only
    split <;> next put =>
      rw [put] at terms
      exact sound.staffed.of_kept rfl rfl terms fun gone => absurd gone none_gone

theorem Numbered.abandon (numbered : c.Numbered) (ticket : Nat) :
    (c.abandon ticket).Numbered := by
  refine ⟨numbered.queued, ?_, ?_, ?_⟩
  · refine List.rel_filter (fun w v same => ?_) numbered.lined
    simp [same.1]
  · exact numbered.order.sublist (List.Sublist.append_left (List.filter_sublist.map _) _)
  · have parts := (List.filter_append_perm (fun w : Nat × Nat => w.1 ≠ ticket) c.lined).map (·.2)
    have all := numbered.all
    simp only [List.map_append, decide_not, Bool.not_not] at parts
    simp only [Crew.abandon, accepted, withPool, decide_not]
    rw [List.perm_iff_count] at *
    intro k
    have := parts k
    have := all k
    simp only [accepted, List.count_append] at *
    omega

theorem Sound.abandon (sound : c.Sound) (ticket : Nat) : (c.abandon ticket).Sound := by
  refine ⟨sound.numbered.abandon ticket, sound.custody.of_sent (List.prefix_refl _) rfl,
    sound.staffed.of_kept rfl rfl ⟨rfl, rfl, rfl, rfl⟩ fun gone => ?_⟩
  obtain ⟨closed, empty⟩ := sound.staffed.closed gone
  obtain ⟨accepting, callers, waiting⟩ := (isClosed_eq c).mp closed
  have none_ : c.engine.pool.waiting = [] := waiting
  refine ⟨(isClosed_eq _).mpr ⟨accepting, callers, ?_⟩, empty⟩
  simp [Crew.abandon, withPool, Crew.pool, Pool.abandon, none_]

theorem Sound.start (sound : c.Sound) : c.start.Sound := by
  unfold Crew.start
  split
  next => exact sound
  next fresh =>
    have none_ := sound.staffed.unstarted (.inr (by simpa using fresh))
    exact sound.of_staffed rfl rfl rfl
      ⟨sound.staffed.size, fun _ => rfl, fun _ => none_, sound.staffed.closed⟩

theorem Sound.hire (sound : c.Sound) : c.hire.Sound := by
  unfold Crew.hire
  split
  next starting =>
    obtain ⟨numbered, custody, staffed⟩ := sound
    have none_ := staffed.unstarted (.inl starting)
    have idle {f : Worker → Option Nat} (free : f .idle = none) :
        (List.replicate c.pool.workers Worker.idle).filterMap f = [] :=
      List.filterMap_replicate_of_none free
    refine ⟨numbered.of_same rfl rfl rfl, ⟨?_, ?_, ?_, custody.own⟩, ⟨?_, ?_, ?_, ?_⟩⟩
    · rw [idle rfl]
      simpa [none_, withPool] using custody.taken
    · rw [idle rfl]
      simpa [none_, withPool] using custody.begun
    · intro n h holding
      cases (List.mem_replicate.mp holding).2
    · exact .inr (List.length_replicate ..)
    · intro later
      cases later
    · rintro (later | fresh)
      · cases later
      · exact absurd ((staffed.noted starting).symm.trans fresh) (by simp)
    · intro gone
      cases (List.mem_replicate.mp gone).2
  next => exact sound

theorem Sound.perform (sound : c.Sound) (m : Move) : (c.perform m).Sound := by
  cases m with
  | start => exact sound.start
  | hire => exact sound.hire
  | call h =>
    unfold Crew.perform
    dsimp only
    split
    next accepting =>
      refine sound.of_staffed rfl rfl rfl
        (sound.staffed.of_kept rfl rfl ⟨rfl, rfl, rfl, rfl⟩ fun gone => ?_)
      rw [((isClosed_eq c).mp (sound.staffed.closed gone).1).1] at accepting
      cases accepting
    next => exact sound
  | send place => exact sound.send place
  | hangUp place =>
    refine sound.of_staffed rfl rfl rfl
      (sound.staffed.of_kept rfl rfl ⟨rfl, rfl, rfl, rfl⟩ fun gone => ?_)
    obtain ⟨closed, empty⟩ := sound.staffed.closed gone
    obtain ⟨accepting, callers, waiting⟩ := (isClosed_eq c).mp closed
    exact ⟨(isClosed_eq _).mpr ⟨accepting, by simp [Crew.perform, callers], waiting⟩, empty⟩
  | abandon ticket => exact sound.abandon ticket
  | take place => exact sound.take place
  | beginWork place => exact sound.beginWork place
  | conclude place result => exact sound.conclude place result
  | goOn place => exact sound.goOn place
  | leave place => exact sound.leave place
  | close =>
    refine sound.of_staffed rfl rfl rfl
      ⟨sound.staffed.size, sound.staffed.noted, sound.staffed.unstarted, fun gone => ?_⟩
    obtain ⟨closed, empty⟩ := sound.staffed.closed gone
    exact ⟨(isClosed_eq _).mpr ⟨rfl, ((isClosed_eq c).mp closed).2⟩, empty⟩
  | join =>
    exact sound.of_staffed rfl rfl rfl
      ⟨sound.staffed.size, sound.staffed.noted, sound.staffed.unstarted, sound.staffed.closed⟩
  | elsewhere e =>
    exact sound.of_staffed rfl rfl rfl
      (sound.staffed.of_kept rfl rfl ⟨rfl, rfl, rfl, rfl⟩ sound.staffed.closed)

end Crew

end Rota
