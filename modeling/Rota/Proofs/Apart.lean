import Rota.Proofs.Script
/-! Two works at the same time.
The accesses of two works and the storing of their results may follow each other in any order. If
neither work writes what the other reads, then what they leave behind does not depend on that order:
each of them ends as if it were alone. -/
namespace Rota

/-- A script, and the results that it has sent and that are not stored yet. -/
structure Strand where
  script : Script
  unsaved : List JobResult

inductive Beat where
  /-- The script does its next step. -/
  | step
  /-- The oldest result is stored. -/
  | save

namespace Strand

def beat (s : Storage) (t : Strand) : Beat → Storage × Strand
  | .step =>
    match t.script with
    | .finished => (s, t)
    | .access a next => ((s.access a).1, { t with script := next (s.access a).2 })
    | .send result next => (s, ⟨next, t.unsaved ++ [result]⟩)
  | .save =>
    match t.unsaved with
    | [] => (s, t)
    | result :: rest => (s.save result, { t with unsaved := rest })

def finish (s : Storage) (t : Strand) : Storage :=
  (t.unsaved ++ (t.script.runOut s).sent).foldl Storage.save (t.script.runOut s).storage

def recorded (s : Storage) (t : Strand) : List Transaction := (t.script.runOut s).recorded

def isOver : Strand → Bool
  | ⟨.finished, []⟩ => true
  | _ => false

structure Inside (r : Realm) (n : Nat) (t : Strand) : Prop where
  script : t.script.Inside r n
  unsaved (x : JobResult) (waits : x ∈ t.unsaved) : x.jobId ∈ r.jobs

variable {r q : Realm} {s s' : Storage} {t t' : Strand} {n k : Nat}

private theorem isOver_iff : t.isOver = true ↔ t = ⟨.finished, []⟩ := by
  obtain ⟨script, unsaved⟩ := t
  cases script <;> cases unsaved <;> simp [isOver]

private theorem finish_over (ended : t.isOver = true) (s : Storage) : t.finish s = s := by
  rw [isOver_iff.mp ended]
  rfl

private theorem recorded_over (ended : t.isOver = true) (s : Storage) : t.recorded s = [] := by
  rw [isOver_iff.mp ended]
  rfl

structure Moves (r : Realm) (k : Nat) (s : Storage) (t : Strand) (s' : Storage) (t' : Strand) :
    Prop where
  inside : ∃ n, t'.Inside r n ∧ s'.Roomy (n + k)
  filed : r.Filed s'.store
  keeps : r.Keeps s.store s'.store
  /-- It does what it was about to do. -/
  finish : t'.finish s' = t.finish s
  recorded : s'.store.transactions.values.map Transaction.anonymous ++ t'.recorded s' =
    s.store.transactions.values.map Transaction.anonymous ++ t.recorded s

private theorem moves_rfl (inside : t.Inside r n) (roomy : s.Roomy (n + k))
    (filed : r.Filed s.store) :
    Moves r k s t s t :=
  ⟨⟨n, inside, roomy⟩, filed, .refl _, rfl, rfl⟩

private theorem moves_step (inside : t.Inside r n) (roomy : s.Roomy (n + k))
    (filed : r.Filed s.store) :
    Moves r k s t (t.beat s .step).1 (t.beat s .step).2 := by
  obtain ⟨script, unsaved⟩ := t
  obtain ⟨within, waits⟩ := inside
  cases script with
  | finished => exact moves_rfl ⟨within, waits⟩ roomy filed
  | access a next =>
    obtain ⟨own, afford, rest⟩ := within
    have roomy : s.Roomy (a.cost + (n - a.cost + k)) := by
      have : a.cost + (n - a.cost + k) = n + k := by omega
      rwa [this]
    refine ⟨⟨n - a.cost, ⟨rest _ (Storage.access_fits own filed), waits⟩,
      Storage.access_roomy roomy⟩, Storage.access_filed filed, Storage.access_keeps own roomy,
      rfl, ?_⟩
    dsimp only [beat]
    rw [Storage.access_recorded roomy, List.append_assoc]
    rfl
  | send result next =>
    refine ⟨⟨n, ⟨within.2, fun x member => ?_⟩, roomy⟩, filed, .refl _, ?_, rfl⟩
    · rcases List.mem_append.mp member with before | last
      · exact waits x before
      · rw [List.mem_singleton.mp last]
        exact within.1
    · simp only [finish, beat, Script.runOut, List.append_assoc, List.singleton_append]

private theorem moves_save (inside : t.Inside r n) (roomy : s.Roomy (n + k))
    (filed : r.Filed s.store) :
    Moves r k s t (t.beat s .save).1 (t.beat s .save).2 := by
  obtain ⟨script, unsaved⟩ := t
  obtain ⟨within, waits⟩ := inside
  cases unsaved with
  | nil => exact moves_rfl ⟨within, waits⟩ roomy filed
  | cons result rest =>
    obtain ⟨issued, pipelines, transactions⟩ := s.save_aside result
    have after := Script.runOut_save script s result
    refine ⟨⟨n, ⟨within, fun x member => waits x (List.mem_cons_of_mem _ member)⟩, ?_, ?_⟩, ?_,
      Storage.save_keeps (waits result List.mem_cons_self), ?_, ?_⟩
    · exact issued ▸ roomy.distinct
    · dsimp only [beat]
      rw [issued, transactions]
      exact roomy.unused
    · dsimp only [beat, Realm.Filed]
      rw [pipelines]
      exact filed
    · dsimp only [beat, finish]
      rw [after]
      rfl
    · dsimp only [beat, recorded]
      rw [after, transactions]

private theorem moves_beat (inside : t.Inside r n) (roomy : s.Roomy (n + k))
    (filed : r.Filed s.store)
    (b : Beat) : Moves r k s t (t.beat s b).1 (t.beat s b).2 := by
  cases b with
  | step => exact moves_step inside roomy filed
  | save => exact moves_save inside roomy filed

/-- Whatever happens outside its realm, a strand does and leaves behind the same. -/
theorem finish_agree (inside : t.Inside r n) (filed : r.Filed s.store)
    (agree : r.Agree s.store s'.store) :
    r.Agree (t.finish s).store (t.finish s').store ∧ t.recorded s' = t.recorded s := by
  obtain ⟨final, sent, recorded⟩ := Script.runOut_agree inside.script filed agree
  refine ⟨?_, recorded⟩
  unfold finish
  rw [sent]
  generalize t.unsaved ++ (t.script.runOut s).sent = results
  generalize (t.script.runOut s).storage = left at final ⊢
  generalize (t.script.runOut s').storage = right at final ⊢
  induction results generalizing left right with
  | nil => exact final
  | cons result results ih => exact ih _ _ (Storage.save_agree final result)

end Strand

/-- The two stores have the same rows, but for the identifiers of transactions that are not in
`before`. -/
structure Store.Matches (before s s' : Store) : Prop where
  isClosed : s'.isClosed = s.isClosed
  jobs (id : Id) : s'.jobs.get? id = s.jobs.get? id
  pipelines (id : Id) : s'.pipelines.get? id = s.pipelines.get? id
  results (id : Id) : s'.results.get? id = s.results.get? id
  transactions : ∃ new new', s.transactions.rows = before.transactions.rows ++ new ∧
    s'.transactions.rows = before.transactions.rows ++ new' ∧
    (new'.map (·.2.anonymous)).Perm (new.map (·.2.anonymous))

structure Duo where
  storage : Storage
  first : Strand
  second : Strand

namespace Duo

def store (d : Duo) : Store := d.storage.store

def swap (d : Duo) : Duo := ⟨d.storage, d.second, d.first⟩

def moveFirst (d : Duo) (b : Beat) : Duo :=
  ⟨(d.first.beat d.storage b).1, (d.first.beat d.storage b).2, d.second⟩

inductive Move where
  | first (b : Beat)
  | second (b : Beat)

def move (d : Duo) : Move → Duo
  | .first b => d.moveFirst b
  | .second b => (d.swap.moveFirst b).swap

def run (d : Duo) (moves : List Move) : Duo := moves.foldl move d

def isOver (d : Duo) : Bool := d.first.isOver && d.second.isOver

def account (d : Duo) : List Transaction :=
  d.store.transactions.values.map Transaction.anonymous ++ d.first.recorded d.storage ++
    d.second.recorded d.storage

/-- Neither strand writes what the other reads. -/
structure Apart (r q : Realm) (d : Duo) : Prop where
  inside : ∃ n k, d.first.Inside r n ∧ d.second.Inside q k ∧ d.storage.Roomy (n + k)
  filed : r.Filed d.store ∧ q.Filed d.store
  aside : r.Aside q d.store ∧ q.Aside r d.store

structure Follows (r q : Realm) (d d' : Duo) : Prop where
  first : r.Agree (d.first.finish d.storage).store (d'.first.finish d'.storage).store
  second : q.Agree (d.second.finish d.storage).store (d'.second.finish d'.storage).store
  keeps : (r.join q).Keeps d.store d'.store
  account : d'.account.Perm d.account

variable {r q : Realm} {d d' d'' : Duo}

theorem Apart.swap (apart : Apart r q d) : Apart q r d.swap := by
  obtain ⟨⟨n, k, first, second, roomy⟩, filed, aside⟩ := apart
  exact ⟨⟨k, n, second, first, Nat.add_comm n k ▸ roomy⟩, filed.symm, aside.symm⟩

namespace Follows

theorem refl (d : Duo) : Follows r q d d := ⟨.refl _, .refl _, .refl _, .refl _⟩

theorem trans (before : Follows r q d d') (after : Follows r q d' d'') : Follows r q d d'' where
  first := before.first.trans after.first
  second := before.second.trans after.second
  keeps := before.keeps.trans after.keeps
  account := after.account.trans before.account

theorem swap (follows : Follows r q d d') : Follows q r d.swap d'.swap where
  first := follows.second
  second := follows.first
  keeps := follows.keeps.mono List.perm_append_comm.subset List.perm_append_comm.subset
  account := by
    have exchange (c : Duo) : c.swap.account.Perm c.account := by
      unfold Duo.account
      rw [List.append_assoc, List.append_assoc]
      exact List.perm_append_comm.append_left _
    exact (exchange d').trans (follows.account.trans (exchange d).symm)

end Follows

private theorem moveFirst_follows (apart : Apart r q d) (b : Beat) :
    Apart r q (d.moveFirst b) ∧ Follows r q d (d.moveFirst b) := by
  obtain ⟨⟨n, k, first, second, roomy⟩, ⟨filed, filed'⟩, ⟨aside, aside'⟩⟩ := apart
  have moves := Strand.moves_beat first roomy filed b
  obtain ⟨m, inside, roomy'⟩ := moves.inside
  have agree := moves.keeps.agree aside'
  obtain ⟨unmoved, records⟩ := Strand.finish_agree second filed' agree
  refine ⟨⟨⟨m, k, inside, second, roomy'⟩, ⟨moves.filed, filed'.of_agree agree⟩,
    aside.of_listed moves.keeps.listed, aside'.of_listed moves.keeps.listed⟩, ?_⟩
  refine ⟨?_, unmoved, moves.keeps.mono (List.subset_append_left _ _)
    (List.subset_append_left _ _), ?_⟩
  · rw [moveFirst, moves.finish]
    exact .refl _
  · unfold account
    dsimp only [moveFirst, store]
    rw [records, moves.recorded]

private theorem move_follows (apart : Apart r q d) (m : Move) :
    Apart r q (d.move m) ∧ Follows r q d (d.move m) := by
  cases m with
  | first b => exact moveFirst_follows apart b
  | second b =>
    obtain ⟨apart', follows⟩ := moveFirst_follows apart.swap b
    exact ⟨apart'.swap, follows.swap⟩

theorem run_follows (apart : Apart r q d) (moves : List Move) :
    Apart r q (d.run moves) ∧ Follows r q d (d.run moves) := by
  induction moves generalizing d with
  | nil => exact ⟨apart, .refl d⟩
  | cons m moves ih =>
    obtain ⟨apart', follows⟩ := move_follows apart m
    obtain ⟨apart'', later⟩ := ih apart'
    exact ⟨apart'', follows.trans later⟩

/-! ### Both strands have ended -/

private theorem forall_of_append {P : Id → Prop} {l l' : List Id} (left : ∀ id ∈ l, P id)
    (right : ∀ id ∈ l', P id) (other : ∀ id ∉ l ++ l', P id) (id : Id) : P id := by
  by_cases own : id ∈ l
  · exact left id own
  by_cases own' : id ∈ l'
  · exact right id own'
  exact other id fun either => (List.mem_append.mp either).elim own own'

/-- What has been recorded since `d`, when nothing is left to be recorded. -/
theorem Follows.account_over (follows : Follows r q d d') (ended : d'.isOver = true) :
    (d'.store.transactions.values.map Transaction.anonymous).Perm d.account := by
  obtain ⟨first, second⟩ := Bool.and_eq_true_iff.mp ended
  have account := follows.account
  unfold Duo.account at account
  rwa [Strand.recorded_over first, Strand.recorded_over second, List.append_nil,
    List.append_nil] at account

/-- However two strands get to their end, they leave the same behind. -/
theorem Follows.matches (left : Follows r q d d') (right : Follows r q d d'')
    (ended : d'.isOver = true) (ended' : d''.isOver = true) :
    d.store.Matches d'.store d''.store := by
  have account := (right.account_over ended').trans (left.account_over ended).symm
  obtain ⟨ended, other⟩ := Bool.and_eq_true_iff.mp ended
  obtain ⟨ended', other'⟩ := Bool.and_eq_true_iff.mp ended'
  have first := left.first.symm.trans right.first
  have second := left.second.symm.trans right.second
  rw [Strand.finish_over ended, Strand.finish_over ended'] at first
  rw [Strand.finish_over other, Strand.finish_over other'] at second
  obtain ⟨new, rows, _⟩ := left.keeps.transactions
  obtain ⟨new', rows', _⟩ := right.keeps.transactions
  simp only [Table.values, rows, rows', List.map_append, List.map_map,
    List.perm_append_left_iff] at account
  exact {
    isClosed := first.isClosed
    jobs := forall_of_append (fun id own => first.jobs id (.inl own))
      (fun id own => second.jobs id (.inl own))
      fun id other => (right.keeps.jobs id other).trans (left.keeps.jobs id other).symm
    pipelines := forall_of_append first.pipelines second.pipelines
      fun id other => (right.keeps.pipelines id other).trans (left.keeps.pipelines id other).symm
    results := forall_of_append first.results second.results
      fun id other => (right.keeps.results id other).trans (left.keeps.results id other).symm
    transactions := ⟨new, new', rows, rows', account⟩ }

theorem run_append (d : Duo) (moves more : List Move) :
    d.run (moves ++ more) = (d.run moves).run more := List.foldl_append

def Move.swap : Move → Move
  | .first b => .second b
  | .second b => .first b

private theorem run_swap (d : Duo) (moves : List Move) :
    d.run (moves.map Move.swap) = (d.swap.run moves).swap := by
  induction moves generalizing d with
  | nil => rfl
  | cons m moves ih =>
    rw [List.map_cons]
    cases m with
    | first b => exact ih (d.move (.second b))
    | second b => exact ih (d.move (.first b))

/-- The first strand can be brought to its end before the second one goes on. -/
theorem run_first (s : Storage) (first second : Strand) : ∃ beats : List Beat,
    (Duo.mk s first second).run (beats.map .first) =
      ⟨first.finish s, ⟨.finished, []⟩, second⟩ := by
  obtain ⟨script, unsaved⟩ := first
  induction script generalizing s unsaved with
  | finished =>
    induction unsaved generalizing s with
    | nil => exact ⟨[], rfl⟩
    | cons result rest ih =>
      obtain ⟨beats, run⟩ := ih (s.save result)
      exact ⟨.save :: beats, run⟩
  | access a next ih =>
    obtain ⟨beats, run⟩ := ih (s.access a).2 (s.access a).1 unsaved
    exact ⟨.step :: beats, run⟩
  | send result next ih =>
    obtain ⟨beats, run⟩ := ih s (unsaved ++ [result])
    refine ⟨.step :: beats, run.trans ?_⟩
    simp only [Strand.finish, Script.runOut, List.append_assoc, List.singleton_append]

private theorem run_inTurn (d : Duo) : ∃ moves,
    d.run moves =
      ⟨d.second.finish (d.first.finish d.storage), ⟨.finished, []⟩, ⟨.finished, []⟩⟩ := by
  obtain ⟨beats, first⟩ := run_first d.storage d.first d.second
  obtain ⟨beats', second⟩ := run_first (d.first.finish d.storage) d.second ⟨.finished, []⟩
  refine ⟨beats.map .first ++ (beats'.map .first).map Move.swap, ?_⟩
  rw [run_append, first, run_swap]
  exact congrArg swap second

/-- In whatever order two strands move that are apart, they leave behind what they do one after the
other. -/
theorem Apart.inTurn (apart : Apart r q d) {moves : List Move}
    (ended : (d.run moves).isOver = true) :
    d.store.Matches (d.run moves).store (d.second.finish (d.first.finish d.storage)).store ∧
      d.store.Matches (d.run moves).store (d.first.finish (d.second.finish d.storage)).store := by
  have follows := (run_follows apart moves).2
  obtain ⟨turns, inTurn⟩ := d.run_inTurn
  obtain ⟨turns', inTurn'⟩ := d.swap.run_inTurn
  have other := (run_swap d turns').trans (congrArg Duo.swap inTurn')
  have follows₁ := (run_follows apart turns).2
  have follows₂ := (run_follows apart (turns'.map Move.swap)).2
  rw [inTurn] at follows₁
  rw [other] at follows₂
  exact ⟨follows.matches follows₁ ended rfl, follows.matches follows₂ ended rfl⟩

/-- Each of two strands that are apart ends as if it were alone. -/
theorem Apart.alone (apart : Apart r q d) {moves : List Move}
    (ended : (d.run moves).isOver = true) :
    r.Agree (d.first.finish d.storage).store (d.run moves).store ∧
      q.Agree (d.second.finish d.storage).store (d.run moves).store := by
  have follows := (run_follows apart moves).2
  obtain ⟨ended, other⟩ := Bool.and_eq_true_iff.mp ended
  have alone := follows.first
  have alone' := follows.second
  rw [Strand.finish_over ended] at alone
  rw [Strand.finish_over other] at alone'
  exact ⟨alone, alone'⟩

/-- A strand that moves changes nothing outside its realm. -/
theorem Apart.keeps (apart : Apart r q d) (b : Beat) :
    r.Keeps d.store (d.move (.first b)).store ∧ q.Keeps d.store (d.move (.second b)).store := by
  obtain ⟨⟨n, k, first, second, roomy⟩, ⟨filed, filed'⟩, _⟩ := apart
  exact ⟨(Strand.moves_beat first roomy filed b).keeps,
    (Strand.moves_beat second (Nat.add_comm n k ▸ roomy) filed' b).keeps⟩

end Duo

end Rota
