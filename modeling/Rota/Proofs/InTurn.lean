import Rota.Proofs.Onward
import Rota.Proofs.Operations
import Rota.Proofs.Scan
import Rota.Proofs.Staggered
/-! The jobs of a pipeline come due in turn.
A pipeline that is armed again gives its jobs run times that ascend along the chain. So, whatever
else is stored, a scan lists a first part of the chain: nothing before the interval is over, and the
whole chain once the last job may run. -/
namespace Rota

namespace Job

variable {j k : Job} {t : Instant}

def RunsBefore (j k : Job) : Prop := ∃ t u, j.runAt = some t ∧ k.runAt = some u ∧ t < u

private theorem RunsBefore.not_le (before : j.RunsBefore k) :
    optionalLe k.runAt j.runAt = false := by
  obtain ⟨t, u, early, late, less⟩ := before
  rw [early, late]
  by_contra le
  exact less.2 (Instant.le_antisymm less.1 (Bool.not_eq_false _ ▸ le))

private theorem optionalLe_of_dueLe (le : dueLe j k = true) :
    optionalLe j.runAt k.runAt = true := by
  unfold dueLe at le
  split at le
  next same =>
    rw [same]
    exact or_self_iff.mp (optionalLe_total _ _)
  next => exact le

private theorem eq_of_ascending {jobs : List Job} (ascends : jobs.Pairwise RunsBefore)
    (first : j ∈ jobs)
    (second : k ∈ jobs) (le : optionalLe j.runAt k.runAt = true)
    (le' : optionalLe k.runAt j.runAt = true) : j = k := by
  induction ascends with
  | nil => cases first
  | @cons i rest before _ ih =>
    rcases List.mem_cons.mp first with rfl | early
    · rcases List.mem_cons.mp second with rfl | late
      · rfl
      · exact absurd le' (by simp [(before k late).not_le])
    · rcases List.mem_cons.mp second with rfl | late
      · exact absurd le (by simp [(before j early).not_le])
      · exact ih early late

private theorem isDue_iff {u : Instant} (pending : j.status = .pending) (runs : j.runAt = some u) :
    j.isDue t = true ↔ u ≤ t := by
  simp only [isDue, pending, decide_true, Bool.true_and, runs]
  rfl

end Job

/-- What is kept of a list is its beginning, if nothing that is left out has something kept behind
it. -/
theorem filter_prefix_of_pairwise {α : Type} {P : α → Bool} {xs : List α}
    (down : xs.Pairwise fun a b => P b = true → P a = true) : xs.filter P <+: xs := by
  induction down with
  | nil => exact List.nil_prefix
  | @cons a rest first _ ih =>
    cases holds : P a with
    | true =>
      rw [List.filter_cons_of_pos holds]
      exact (List.prefix_cons_inj a).mpr ih
    | false =>
      have none_ : (a :: rest).filter P = [] := by
        rw [List.filter_cons_of_neg (by simp [holds]), List.filter_eq_nil_iff]
        intro b member kept
        exact Bool.false_ne_true (holds.symm.trans (first b member kept))
      rw [none_]
      exact List.nil_prefix

namespace Store

variable {s s' s₁ : Store} {p q : Pipeline} {now t base : Instant} {due : List Job}

/-! ### Scans -/

private theorem readable_of_scan (read : s.getDueJobs t = .ok due) : s.Readable := by
  obtain ⟨jobs, all, _⟩ := bind_ok read
  refine ⟨?_, fun id j stored => ?_⟩
  · cases closed : s.isClosed with
    | false => rfl
    | true =>
      rw [readJobs_closed closed] at all
      cases all
  · obtain ⟨_, _, mapped⟩ := bind_ok all
    obtain ⟨c, _, rereads⟩ :=
      forall₂_mem_right (mapM_ok mapped).flip (Table.mem_values_of_get? stored)
    exact Job.reread_ok_iff.mp ⟨c, rereads⟩

/-- A scan gives a list exactly if everything can be read. -/
theorem Indexed.getDueJobs_ok_iff (indexed : s.Indexed) :
    (∃ due, s.getDueJobs t = .ok due) ↔ s.Readable := by
  constructor
  · rintro ⟨due, read⟩
    exact readable_of_scan read
  · intro readable
    obtain ⟨due, read, _⟩ := readable.getDueJobs indexed t
    exact ⟨due, read⟩

private theorem Indexed.mem_due_iff (indexed : s.Indexed) (read : s.getDueJobs t = .ok due)
    {j : Job}
    (stored : s.jobs.get? j.id = some j) : j.id ∈ due.map (·.id) ↔ j.isDue t = true := by
  have same {c : Job} (rereads : j.reread = .ok c) : c.isDue t = j.isDue t := by
    rw [Job.isDue, Job.isDue, Job.status_reread rereads, Job.runAt_reread rereads]
  constructor
  · intro member
    obtain ⟨c, inside, key⟩ := List.mem_map.mp member
    obtain ⟨row, found, rereads, isDue⟩ := indexed.stored_due read inside
    rw [key, stored] at found
    cases found
    exact same rereads ▸ isDue
  · intro isDue
    have readable := readable_of_scan read
    obtain ⟨_, again, _, members⟩ := readable.getDueJobs indexed t
    cases read.symm.trans again
    obtain ⟨c, rereads⟩ := readable.reread stored
    have inside := (members c).mpr ⟨j.id, j, stored, rereads, same rereads ▸ isDue⟩
    exact List.mem_map.mpr ⟨c, inside, Job.id_of_origin (Job.origin_reread rereads)⟩

def runOf (s : Store) (id : Id) : Option Instant := (s.jobs.get? id).bind (·.runAt)

private theorem Indexed.due_ascends (indexed : s.Indexed) (read : s.getDueJobs t = .ok due) :
    (due.map (·.id)).Pairwise fun a b => optionalLe (s.runOf a) (s.runOf b) = true := by
  obtain ⟨_, again, ordered, _⟩ := (readable_of_scan read).getDueJobs indexed t
  cases read.symm.trans again
  have runs (c : Job) (member : c ∈ due) : s.runOf c.id = c.runAt := by
    obtain ⟨row, found, rereads, _⟩ := indexed.stored_due read member
    rw [runOf, found, Job.runAt_reread rereads]
    rfl
  refine List.pairwise_map.mpr (ordered.imp_of_mem fun {a b} first second le => ?_)
  rw [runs a first, runs b second]
  exact Job.optionalLe_of_dueLe le

/-- Of jobs that run one after the other, a scan lists the ones that are due in this order. -/
theorem Indexed.listed_eq {jobs : List Job} (indexed : s.Indexed)
    (stored : ∀ j ∈ jobs, s.jobs.get? j.id = some j) (distinct : (jobs.map (·.id)).Nodup)
    (ascends : jobs.Pairwise Job.RunsBefore) (read : s.getDueJobs t = .ok due) :
    (due.map (·.id)).filter (fun id => decide (id ∈ jobs.map (·.id))) =
      (jobs.filter fun j => j.isDue t).map (·.id) := by
  have runs (j : Job) (member : j ∈ jobs) : s.runOf j.id = j.runAt := by
    rw [runOf, stored j member]
    rfl
  have sorted : ((jobs.filter fun j => j.isDue t).map (·.id)).Pairwise fun a b =>
      optionalLe (s.runOf a) (s.runOf b) = true := by
    refine List.pairwise_map.mpr ((ascends.filter _).imp_of_mem fun {j k} first second before => ?_)
    rw [runs j (List.mem_of_mem_filter first), runs k (List.mem_of_mem_filter second)]
    exact (optionalLe_total _ _).resolve_right (by simp [before.not_le])
  have members (id : Id) : id ∈ (due.map (·.id)).filter (fun id => decide (id ∈ jobs.map (·.id))) ↔
      id ∈ (jobs.filter fun j => j.isDue t).map (·.id) := by
    rw [List.mem_filter, decide_eq_true_eq]
    constructor
    · rintro ⟨here, own⟩
      obtain ⟨j, member, rfl⟩ := List.mem_map.mp own
      have isDue := (indexed.mem_due_iff read (stored j member)).mp here
      exact List.mem_map_of_mem (List.mem_filter.mpr ⟨member, isDue⟩)
    · intro own
      obtain ⟨j, inside, rfl⟩ := List.mem_map.mp own
      obtain ⟨member, isDue⟩ := List.mem_filter.mp inside
      exact ⟨(indexed.mem_due_iff read (stored j member)).mpr isDue, List.mem_map_of_mem member⟩
  refine List.Perm.eq_of_pairwise ?_ ((indexed.due_ascends read).filter _) sorted
    ((List.perm_ext_iff_of_nodup ((indexed.nodup_due read).filter _) ?_).mpr members)
  · -- Two jobs of the list with one run time are the same job.
    intro a b first second le le'
    obtain ⟨j, member, rfl⟩ := List.mem_map.mp (of_decide_eq_true (List.mem_filter.mp first).2)
    obtain ⟨k, inside, rfl⟩ := List.mem_map.mp second
    have member' := List.mem_of_mem_filter inside
    rw [runs j member, runs k member'] at le le'
    rw [Job.eq_of_ascending ascends member member' le le']
  · exact distinct.sublist (List.filter_sublist.map _)

/-! ### The pipeline that is armed again -/

/-- The jobs of the pipeline are stored, each with its place in the chain. -/
def Seated (s : Store) (p : Pipeline) : Prop :=
  ∀ i (j : Job), p.jobs[i]? = some j → j.sequence.toNat = i ∧
    ∃ row, s.jobs.get? j.id = some row ∧ row.sequence = j.sequence

theorem Seated.distinct (seated : s.Seated p) : (p.jobs.map (·.id)).Nodup := by
  refine List.pairwise_map.mpr
    (List.pairwise_iff_getElem.mpr fun i k inside inside' less same => ?_)
  obtain ⟨place, row, stored, sequence⟩ := seated i _ (List.getElem?_eq_getElem inside)
  obtain ⟨place', row', stored', sequence'⟩ := seated k _ (List.getElem?_eq_getElem inside')
  rw [same, stored'] at stored
  cases stored
  rw [← sequence, sequence', place'] at place
  omega

private theorem jobs_updateJobs {jobs : List Job} (updated : s.updateJobs jobs = (s', .ok ())) :
    s'.jobs = putJobs s.jobs jobs := by
  induction jobs generalizing s with
  | nil =>
    cases updated
    rfl
  | cons j rest ih =>
    rw [updateJobs] at updated
    split at updated
    next s₂ first =>
      rw [ih updated, (updateJob_ok first).2]
      rfl
    next => cases updated

/-- What is stored for the jobs of a pipeline when it has been armed again. -/
theorem stored_recyclePipeline (distinct : (p.jobs.map (·.id)).Nodup)
    (arms : s.recyclePipeline p now = (s₁, q, .ok ())) :
    p.recycle now = (q, .ok ()) ∧ ∀ j ∈ q.jobs, s₁.jobs.get? j.id = some j := by
  unfold recyclePipeline at arms
  split at arms
  next => cases arms
  next => cases arms
  next armed recycled =>
    split at arms
    next => cases arms
    next s₂ updated =>
      split at arms
      next s₃ written =>
        cases arms
        refine ⟨recycled, fun j member => ?_⟩
        rw [← Pipeline.ids_recycle recycled] at distinct
        obtain ⟨k, inside, stored, same⟩ := get?_putJobs_of_mem s.jobs member
        have only := List.inj_on_of_nodup_map distinct inside member same
        rw [← jobs_updateJobs updated, only] at stored
        exact (congrArg (·.get? j.id) (updatePipeline_ok written).1.jobs).trans stored
      next => cases arms

end Store

namespace Pipeline

variable {p q : Pipeline} {now t base : Instant}

private theorem moves_of_recycleJobs {delay : UInt64} {position : Nat} {jobs armed : List Job}
    (arms : recycleJobs base delay position jobs = (armed, .ok ())) :
    ∀ i < jobs.length, (base.addSeconds? (stagger delay (position + i))).isSome = true := by
  induction jobs generalizing position armed with
  | nil => exact fun i less => absurd less (Nat.not_lt_zero i)
  | cons j rest ih =>
    rw [recycleJobs] at arms
    dsimp only at arms
    split at arms
    next => cases arms
    next =>
      split at arms
      next => cases arms
      next t moved =>
        cases later : recycleJobs base delay (position + 1) rest with
        | mk armed' answer =>
          rw [later] at arms
          cases arms
          rintro (_ | i) less
          · rw [Nat.add_zero, moved]
            rfl
          · have behind := ih later i (Nat.lt_of_succ_lt_succ less)
            rwa [Nat.add_right_comm] at behind

/-- As long as no stagger wraps, a pipeline that could be armed again is armed exactly. -/
theorem armedFrom_of_recycle (arms : p.recycle now = (q, .ok ()))
    (small : (p.jobs.length - 1) * max p.options.delayBetweenTask.toNat 1 < 9223372036854775808) :
    ∃ base, p.base now = .ok base ∧ p.ArmedFrom q base := by
  obtain ⟨interval, base, armed, readable, moved, done, _⟩ := recycle_eq arms
  have first : p.base now = .ok base := by
    simp only [Pipeline.base, readable, bind, Except.bind, moved]
  have inReach : p.InReach now p.jobs.length := by
    intro base' first'
    cases first.symm.trans first'
    rw [← toNat_delay, Nat.mul_comm] at small
    cases count : p.jobs.length with
    | zero =>
      have inRange := base.inRange
      rw [Instant.isSome_addSeconds?_iff (Int.natCast_nonneg _)]
      omega
    | succ last =>
      have moves := moves_of_recycleJobs done last (by omega)
      rw [count, Nat.add_sub_cancel] at small
      rw [Nat.zero_add, stagger_eq p.one_le_delay small] at moves
      exact moves
  obtain ⟨q', arms', exact_⟩ := (recycle_exact_iff first).mpr inReach
  cases arms.symm.trans arms'
  exact ⟨base, first, exact_⟩

namespace ArmedFrom

private theorem getElem? (armed : p.ArmedFrom q base) {i : Nat} {j : Job}
    (here : q.jobs[i]? = some j) :
    j.status = .pending ∧ ∃ t, j.runAt = some t ∧
      base.addSeconds? (i * max p.options.delayBetweenTask.toNat 1 : Nat) = some t := by
  have inside : i < p.jobs.length := by
    rw [← armed.count]
    exact (List.getElem?_eq_some_iff.mp here).1
  obtain ⟨t, date, row⟩ := armed.job i inside
  cases here.symm.trans row
  exact ⟨rfl, t, rfl, date⟩

private theorem ascends (armed : p.ArmedFrom q base) : q.jobs.Pairwise Job.RunsBefore := by
  refine List.pairwise_iff_getElem.mpr fun i k inside inside' less => ?_
  obtain ⟨_, t, runs, date⟩ := armed.getElem? (List.getElem?_eq_getElem inside)
  obtain ⟨_, u, runs', date'⟩ := armed.getElem? (List.getElem?_eq_getElem inside')
  have positive : 0 < max p.options.delayBetweenTask.toNat 1 := Nat.le_max_right _ _
  exact ⟨t, u, runs, runs',
    Instant.addSeconds?_lt (Nat.mul_lt_mul_of_pos_right less positive) date date'⟩

private theorem isDue_iff (armed : p.ArmedFrom q base) {j : Job} (member : j ∈ q.jobs) :
    j.isDue t = true ↔ ∀ u, j.runAt = some u → u ≤ t := by
  obtain ⟨i, here⟩ := List.mem_iff_getElem?.mp member
  obtain ⟨pending, u, runs, _⟩ := armed.getElem? here
  rw [Job.isDue_iff pending runs]
  simp [runs]

private theorem base_le (armed : p.ArmedFrom q base) {j : Job} (member : j ∈ q.jobs) :
    ∃ u, j.runAt = some u ∧ base ≤ u := by
  obtain ⟨i, here⟩ := List.mem_iff_getElem?.mp member
  obtain ⟨_, u, runs, date⟩ := armed.getElem? here
  exact ⟨u, runs, Instant.le_addNanos (by omega) date⟩

/-- A job is due when one behind it is. -/
theorem down (armed : p.ArmedFrom q base) :
    q.jobs.Pairwise fun j k => k.isDue t = true → j.isDue t = true := by
  refine armed.ascends.imp_of_mem fun {j k} first second before isDue => ?_
  obtain ⟨u, v, runs, runs', less⟩ := before
  rw [armed.isDue_iff first]
  rw [armed.isDue_iff second] at isDue
  intro u' runs''
  cases runs.symm.trans runs''
  exact Instant.le_trans less.1 (isDue v runs')

private theorem due_of_last (armed : p.ArmedFrom q base)
    (late : ∀ last ∈ q.jobs.getLast?, ∀ u ∈ last.runAt, u ≤ t) {j : Job} (member : j ∈ q.jobs) :
    j.isDue t = true := by
  rcases List.eq_nil_or_concat' q.jobs with none_ | ⟨front, last, split⟩
  · rw [none_] at member
    cases member
  · have final : last.isDue t = true :=
      (armed.isDue_iff (by simp [split])).mpr (late last (by simp [split]))
    have down := armed.down (t := t)
    rw [split] at down member
    rcases List.mem_append.mp member with early | here
    · exact (List.pairwise_append.mp down).2.2 j early last (List.mem_singleton_self last) final
    · rwa [List.mem_singleton.mp here]

end ArmedFrom

def listed (p : Pipeline) (due : List Job) : List Id :=
  (due.map (·.id)).filter fun id => decide (id ∈ p.jobs.map (·.id))

/-- After a pipeline was armed again, and as long as its jobs stay as they are then stored, every
scan lists a first part of its chain in the order of the chain: nothing before the interval is over,
and the whole chain from the run time of its last job on. -/
theorem listed_in_turn {s s₁ s' : Store} (seated : s.Seated p)
    (arms : s.recyclePipeline p now = (s₁, q, .ok ()))
    (small : (p.jobs.length - 1) * max p.options.delayBetweenTask.toNat 1 < 9223372036854775808)
    (indexed : s'.Indexed) (kept : ∀ j ∈ p.jobs, s'.jobs.get? j.id = s₁.jobs.get? j.id)
    (t : Instant) :
    ∃ base, p.base now = .ok base ∧ p.ArmedFrom q base ∧
      ((∃ due, s'.getDueJobs t = .ok due) ↔ s'.Readable) ∧
      ∀ due, s'.getDueJobs t = .ok due →
        p.listed due <+: p.jobs.map (·.id) ∧
        (t < base → p.listed due = []) ∧
        ((∀ last ∈ q.jobs.getLast?, ∀ u ∈ last.runAt, u ≤ t) →
          p.listed due = p.jobs.map (·.id)) := by
  obtain ⟨recycled, stored⟩ := Store.stored_recyclePipeline seated.distinct arms
  obtain ⟨base, first, armed⟩ := armedFrom_of_recycle recycled small
  have ids := ids_recycle recycled
  have stored' (j : Job) (member : j ∈ q.jobs) : s'.jobs.get? j.id = some j := by
    have own : j.id ∈ p.jobs.map (·.id) := ids ▸ List.mem_map_of_mem member
    obtain ⟨k, inside, same⟩ := List.mem_map.mp own
    rw [← stored j member, ← same]
    exact kept k inside
  have distinct : (q.jobs.map (·.id)).Nodup := ids ▸ seated.distinct
  refine ⟨base, first, armed, indexed.getDueJobs_ok_iff, fun due read => ?_⟩
  have listed : p.listed due = (q.jobs.filter fun j => j.isDue t).map (·.id) := by
    rw [Pipeline.listed, ← ids]
    exact indexed.listed_eq stored' distinct armed.ascends read
  rw [listed, ← ids]
  refine ⟨(filter_prefix_of_pairwise armed.down).map _, fun early => ?_, fun late => ?_⟩
  · rw [List.map_eq_nil_iff, List.filter_eq_nil_iff]
    intro j member isDue
    obtain ⟨u, runs, le⟩ := armed.base_le member
    have passed := Instant.le_trans le ((armed.isDue_iff member).mp isDue u runs)
    exact early.2 (Instant.le_antisymm early.1 passed)
  · rw [List.filter_eq_self.mpr fun j member => armed.due_of_last late member]

def beside : Job :=
  { Job.new (.issued 3) "beside" "echo" [] none with runAt := Instant.epoch.addSeconds? 1 }

/-- The reports are armed for the first and the second second. In between, one of them is listed,
and another job in front of it. -/
theorem listed_in_turn_reports :
    let reports := Repository.reports
    let s := (Repository.empty.run [.createJob beside, .createPipeline reports]).store
    let armed := s.recyclePipeline reports .epoch
    let t : Instant := ⟨1, 500000000, by decide, by decide, by decide⟩
    s.Seated reports ∧ armed.2.2 = .ok () ∧ armed.1.Indexed ∧
      ∃ due, armed.1.getDueJobs t = .ok due ∧ due.map (·.id) = [.issued 3, .issued 1] ∧
        reports.listed due <+: reports.jobs.map (·.id) := by
  intro reports s armed t
  have seated : s.Seated reports := by
    rintro (_ | _ | i) j here <;> cases here
    · exact ⟨rfl, _, by rfl, rfl⟩
    · exact ⟨rfl, _, by rfl, rfl⟩
  have answer : armed.2.2 = .ok () := by decide +kernel
  have arms : s.recyclePipeline reports .epoch = (armed.1, armed.2.1, .ok ()) := by
    rw [← answer]
  have indexed : armed.1.Indexed := by
    let stored : List Operation := [.createJob beside, .createPipeline reports]
    have filed : (Repository.empty.run (stored ++ [.recyclePipeline reports .epoch])).store.Filed :=
      Repository.filed_run (by simp [stored, Operation.IsSound]) Store.filed_empty
    have last : ((Repository.empty.run stored).run [.recyclePipeline reports .epoch]).store =
        armed.1 := by
      rw [Repository.run, List.foldl_cons, List.foldl_nil, Repository.perform, arms]
    rw [Repository.run_append, last] at filed
    exact filed.toIndexed
  obtain ⟨base, _, _, reads, listed⟩ :=
    listed_in_turn seated arms (by decide) indexed (fun _ _ => rfl) t
  have found : (armed.1.getDueJobs t).toOption.map (·.map (·.id)) =
      some [.issued 3, .issued 1] := by
    decide +kernel
  cases read : armed.1.getDueJobs t with
  | error e =>
    rw [read] at found
    cases found
  | ok due =>
    rw [read] at found
    exact ⟨seated, answer, indexed, due, rfl, Option.some.inj found, (listed due read).1⟩

end Pipeline

end Rota
