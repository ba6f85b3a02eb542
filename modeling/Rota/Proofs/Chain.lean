import Rota.Pipeline
/-! Linking jobs and taking chains apart.
A chain is made in two ways: its jobs are linked from the last one on, or each job of a pipeline is
given the chain of the one behind it. What hung behind a job before makes no difference, except
behind the last job of a pipeline. -/
namespace Rota

namespace Chain

variable {cs : List Chain} {c : Chain}

private theorem toList_ofNext (job : Job) (next : Option Chain) :
    (ofNext job next).toList = job :: (next.map toList).getD [] := by
  cases next <;> rfl

theorem toList_ofList {jobs : List Job} {c : Chain} (linked : ofList? jobs = some c) :
    c.toList = jobs := by
  induction jobs generalizing c with
  | nil => cases linked
  | cons job rest ih =>
    cases linked
    rw [toList_ofNext]
    cases rest with
    | nil => rfl
    | cons next later => simp [ih rfl, ofList?]

theorem ofList_cons (job : Job) (rest : List Job) : ∃ c, ofList? (job :: rest) = some c ∧
    c.head = job ∧ c.next? = ofList? rest := by
  cases next : ofList? rest <;> simp [ofList?, next, ofNext, head, next?]

theorem toList_eq (c : Chain) : c.toList = c.head :: (c.next?.map toList).getD [] := by
  cases c <;> rfl

theorem toList_withHead (c : Chain) (job : Job) : (c.withHead job).toList = job :: c.toList.tail := by
  rw [withHead, toList_ofNext, toList_eq c, List.tail_cons]

@[simp] theorem head_withHead (c : Chain) (job : Job) : (c.withHead job).head = job := by
  unfold withHead
  cases c.next? <;> rfl

@[simp] theorem head_ofNext (job : Job) (next : Option Chain) : (ofNext job next).head = job := by
  cases next <;> rfl

@[simp] theorem ofNext_head_next (c : Chain) : ofNext c.head c.next? = c := by
  cases c <;> rfl

/-! ### From the last job on -/

private theorem relink_cons (c : Chain) (cs : List Chain) :
    relink? (c :: cs) = some (ofNext c.head (relink? cs)) := by
  simp [relink?, List.foldl_append]

/-- Only the jobs themselves count. -/
theorem relink_eq_ofList (cs : List Chain) : relink? cs = ofList? (cs.map head) := by
  induction cs with
  | nil => rfl
  | cons c rest ih => rw [relink_cons, ih, List.map_cons, ofList?]

private theorem relink_map_single (jobs : List Job) : relink? (jobs.map single) = ofList? jobs := by
  rw [relink_eq_ofList, List.map_map]
  exact congrArg ofList? (List.map_id jobs)

theorem apart_eq (c : Chain) : c.apart = c.toList.map single := by
  induction c with
  | single job => rfl
  | link job next ih => rw [apart, ih, toList, List.map_cons]

private theorem apart_of_relink (linked : relink? cs = some c) : c.apart = cs.map detach := by
  rw [relink_eq_ofList] at linked
  rw [apart_eq, toList_ofList linked, List.map_map]
  rfl

private theorem ofList_toList (c : Chain) : ofList? c.toList = some c := by
  induction c with
  | single job => rfl
  | link job next ih => rw [toList, ofList?, ih, ofNext]

private theorem relink_apart (c : Chain) : relink? c.apart = some c := by
  rw [apart_eq, relink_map_single, ofList_toList]

/-! ### Each job behind the one before -/

@[simp] theorem length_linkAll (cs : List Chain) : (linkAll cs).length = cs.length := by
  induction cs with
  | nil => rfl
  | cons c rest ih =>
    unfold linkAll
    split
    next none_ => rw [none_] at ih; simp [← ih]
    next some_ => rw [some_] at ih; simp [← ih]

private theorem linkAll_cons (c d : Chain) (rest : List Chain) : linkAll (c :: d :: rest) =
    ofNext c.head (linkAll (d :: rest)).head? :: linkAll (d :: rest) := by
  have long := length_linkAll (d :: rest)
  rw [linkAll]
  cases behind : linkAll (d :: rest) with
  | nil => rw [behind] at long; cases long
  | cons next later => rfl

@[simp] theorem map_head_linkAll (cs : List Chain) : (linkAll cs).map head = cs.map head := by
  induction cs with
  | nil => rfl
  | cons c rest ih =>
    cases rest with
    | nil => rfl
    | cons d later => rw [linkAll_cons, List.map_cons, head_ofNext, ih, ← List.map_cons]

private theorem linkAll_linkAll (cs : List Chain) : linkAll (linkAll cs) = linkAll cs := by
  induction cs with
  | nil => rfl
  | cons c rest ih =>
    cases rest with
    | nil => rfl
    | cons d later =>
      rw [linkAll_cons]
      cases behind : linkAll (d :: later) with
      | nil => rfl
      | cons next more => rw [linkAll_cons, ← behind, ih, head_ofNext]

/-- Both ways make the same chains, if nothing hangs behind the last job. -/
theorem getElem?_linkAll (ends : ∀ last, cs.getLast? = some last → last.next? = none) (i : Nat) :
    (linkAll cs)[i]? = relink? (cs.drop i) := by
  induction cs generalizing i with
  | nil => simp [linkAll, relink?]
  | cons c rest ih =>
    cases rest with
    | nil =>
      -- Only here it matters what hangs behind a job: the last one keeps it, and is linked to none.
      have single_ : ofNext c.head none = c := by rw [← ends c rfl, ofNext_head_next]
      cases i with
      | zero => simp [linkAll, relink?, single_]
      | succ i => simp [linkAll, relink?]
    | cons d later =>
      have behind := ih fun last same => ends last (by simpa using same)
      rw [linkAll_cons]
      cases i with
      | zero =>
        rw [List.getElem?_cons_zero, List.drop_zero, relink_cons, List.head?_eq_getElem?, behind 0,
          List.drop_zero]
      | succ i => rw [List.getElem?_cons_succ, List.drop_succ_cons, behind i]

end Chain

namespace LinkedPipeline
open Chain

variable {l : LinkedPipeline}

/-- It is said of each job what hangs behind it. -/
def Fits (l : LinkedPipeline) : Prop := l.behind.length = l.pipeline.jobs.length

private theorem fits_ofPipeline (p : Pipeline) : (ofPipeline p).Fits := by
  simp [Fits, ofPipeline]

private theorem heads_chains (fits : l.Fits) : l.chains.map head = l.pipeline.jobs := by
  refine List.ext_getElem ?_ fun i _ _ => by simp [chains]
  simp [chains, show l.behind.length = l.pipeline.jobs.length from fits]

private theorem chains_ofPipeline (p : Pipeline) : (ofPipeline p).chains = p.jobs.map single := by
  simp only [chains, ofPipeline, List.zipWith_map_right, List.zipWith_self]
  rfl

private theorem chains_unmerge (fits : l.Fits) : l.unmerge.chains = l.chains.map detach := by
  rw [unmerge, chains_ofPipeline, ← heads_chains fits, List.map_map]
  rfl

private theorem chains_merge (fits : l.Fits) : l.merge.chains = linkAll l.chains := by
  have jobs : l.merge.pipeline.jobs = (linkAll l.chains).map head := by
    rw [map_head_linkAll, heads_chains fits]
    rfl
  rw [chains, jobs, merge, List.zipWith_map, List.zipWith_self]
  simp

private theorem merge_merge (fits : l.Fits) : l.merge.merge = l.merge := by
  have behind : (linkAll l.merge.chains).map next? = (linkAll l.chains).map next? := by
    rw [chains_merge fits, linkAll_linkAll]
  exact congrArg (LinkedPipeline.mk l.pipeline) behind

/-- To merge a pipeline is to link its jobs from each of them on. -/
theorem getElem?_merge (p : Pipeline) (i : Nat) :
    (ofPipeline p).merge.chains[i]? = ofList? (p.jobs.drop i) := by
  have ends : ∀ last, (ofPipeline p).chains.getLast? = some last → last.next? = none := by
    intro last same
    rw [chains_ofPipeline, List.getLast?_map] at same
    obtain ⟨job, _, rfl⟩ := Option.map_eq_some_iff.mp same
    rfl
  rw [chains_merge (fits_ofPipeline p), getElem?_linkAll ends, chains_ofPipeline, ← List.map_drop,
    relink_map_single]

/-- What is linked comes apart again, and what was taken apart can be linked again. -/
theorem linked_apart :
    (∀ cs : List Chain, cs ≠ [] → ∃ c, relink? cs = some c ∧ c.apart = cs.map detach) ∧
    (∀ c : Chain, relink? c.apart = some c) ∧
    ∀ l : LinkedPipeline, l.Fits →
      (∀ last, l.chains.getLast? = some last → last.next? = none) →
      (∀ i, i < l.pipeline.jobs.length → ∃ c, l.merge.chains[i]? = some c ∧
        c.apart = (l.chains.drop i).map detach) ∧
      l.merge.merge = l.merge ∧
      l.merge.unmerge.pipeline = l.pipeline ∧ l.merge.unmerge.chains = l.chains.map detach := by
  have joins (cs : List Chain) (some_ : cs ≠ []) :
      ∃ c, relink? cs = some c ∧ c.apart = cs.map detach := by
    obtain ⟨first, rest, rfl⟩ := List.exists_cons_of_ne_nil some_
    exact ⟨_, relink_cons first rest, apart_of_relink (relink_cons first rest)⟩
  refine ⟨joins, relink_apart, fun l fits ends => ⟨fun i lt => ?_, merge_merge fits, rfl, ?_⟩⟩
  · have long : l.chains.length = l.pipeline.jobs.length := by
      rw [← heads_chains fits, List.length_map]
    rw [chains_merge fits, getElem?_linkAll ends]
    exact joins _ (by simpa [long] using lt)
  · exact chains_unmerge fits

/-- A job that an earlier run has left hanging behind the first one is dropped. -/
theorem linked_apart_stale :
    let a := Job.new (.issued 1) "a" "noop" [] none
    let b := Job.new (.issued 2) "b" "noop" [] none
    let l : LinkedPipeline := ⟨.new (.issued 0) "p" [a, b] none, [some (.single a), none]⟩
    l.chains = [.link a (.single a), .single b] ∧ l.chains ≠ [] ∧ l.Fits ∧
      (∀ last, l.chains.getLast? = some last → last.next? = none) ∧
      (∃ c, relink? l.chains = some c ∧ c.apart = [.single a, .single b]) ∧
      0 < l.pipeline.jobs.length ∧
      (∃ c, l.merge.chains[0]? = some c ∧ c.apart = [.single a, .single b]) ∧
      l.merge.unmerge.chains = [.single a, .single b] := by
  intro a b l
  have some_ : l.chains ≠ [] := List.cons_ne_nil _ _
  have ends : ∀ last, l.chains.getLast? = some last → last.next? = none := by
    rintro last ⟨⟩
    rfl
  obtain ⟨joins, _, merges⟩ := linked_apart
  obtain ⟨suffixes, _, _, unmerges⟩ := merges l rfl ends
  exact ⟨rfl, some_, rfl, ends, joins l.chains some_, by decide, suffixes 0 (by decide), unmerges⟩

end LinkedPipeline

end Rota
