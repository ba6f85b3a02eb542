import Rota.Engine.Admission
import Rota.Proofs.Answer
import Rota.Proofs.Expression
/-! What passes the checks.
A job passes when it is named, its task is registered and its interval can be read; a pipeline when
it is named, has two jobs at least that point at each other in a row, and its interval can be
read. -/
namespace Rota
open Rota.Text

variable {j : Job} {p : Pipeline} {tasks : List String}

private theorem Text.isBlankText_eq_false_iff {text : String} :
    isBlankText text = false ↔ ∃ c ∈ text.toList, isBlank c = false := by
  simp [isBlankText]

namespace Job

/-- What is asked of a job: visible names, a task among those that are registered, and an interval
or none. -/
structure Admissible (tasks : List String) (name taskName : String) (interval : Option String) :
    Prop where
  named : ∃ c ∈ name.toList, isBlank c = false
  hasTask : ∃ c ∈ taskName.toList, isBlank c = false
  registered : taskName ∈ tasks
  recurs : Interval.Accepts interval

private theorem missingFields_eq_nil_iff : j.missingFields = [] ↔
    (∃ c ∈ j.name.toList, isBlank c = false) ∧ ∃ c ∈ j.taskName.toList, isBlank c = false := by
  simp only [missingFields, ← isBlankText_eq_false_iff]
  cases isBlankText j.name <;> cases isBlankText j.taskName <;> simp

private theorem validateTask_ok_iff : j.validateTask tasks = .ok () ↔ j.taskName ∈ tasks := by
  simp [validateTask]

theorem validate_ok_iff :
    j.validate tasks = .ok () ↔ Admissible tasks j.name j.taskName j.options.runOnInterval := by
  have asked : Admissible tasks j.name j.taskName j.options.runOnInterval ↔
      j.missingFields = [] ∧ j.taskName ∈ tasks ∧ Interval.Accepts j.options.runOnInterval := by
    rw [missingFields_eq_nil_iff]
    exact ⟨fun ok => ⟨⟨ok.named, ok.hasTask⟩, ok.registered, ok.recurs⟩,
      fun ⟨⟨named, hasTask⟩, registered, recurs⟩ => ⟨named, hasTask, registered, recurs⟩⟩
  rw [asked, ← validateTask_ok_iff, ← Interval.validateInterval_ok_iff]
  unfold validate
  dsimp only
  split
  next named =>
    change (j.validateTask tasks >>= fun _ => validateInterval j.options.runOnInterval) = .ok () ↔ _
    rw [check_ok_iff]
    simp [named]
  next unnamed => exact iff_of_false (by rintro ⟨⟩) fun ok => unnamed ok.1

theorem interval_of_validate (valid : j.validate tasks = .ok ()) : ∃ i, j.interval = .ok i :=
  Interval.parseOptional_ok_iff.mpr (validate_ok_iff.mp valid).recurs

end Job

namespace Pipeline

/-- Jobs that point at each other in a row, the last at none, have no broken link. -/
theorem brokenLink?_eq_none {jobs : List Job} (position : Nat)
    (linked : ∀ i j, jobs[i]? = some j → j.nextJobId = jobs[i + 1]?.map (·.id)) :
    brokenLink? position jobs = none := by
  induction jobs generalizing position with
  | nil => rfl
  | cons a rest ih =>
    have first := linked 0 a rfl
    have behind := ih (position + 1) fun i j here => linked (i + 1) j here
    cases rest with
    | nil =>
      rw [brokenLink?, Job.hasNext, first]
      rfl
    | cons b rest =>
      rw [brokenLink?, behind]
      exact if_pos first

private theorem missingFields_eq_nil_iff : p.missingFields = [] ↔
    (∃ c ∈ p.name.toList, isBlank c = false) ∧ p.jobs ≠ [] := by
  simp only [missingFields, ← isBlankText_eq_false_iff]
  cases isBlankText p.name <;> by_cases none_ : p.jobs = [] <;> simp [none_]

theorem validate_ok_iff : p.validate = .ok () ↔ (∃ c ∈ p.name.toList, isBlank c = false) ∧
    2 ≤ p.jobs.length ∧ brokenLink? 0 p.jobs = none ∧ Interval.Accepts p.options.runOnInterval := by
  rw [← Interval.validateInterval_ok_iff]
  unfold validate
  dsimp only
  split
  next named =>
    rw [missingFields_eq_nil_iff] at named
    split
    next few => exact iff_of_false (by rintro ⟨⟩) fun ok => absurd ok.2.1 (Nat.not_le_of_lt few)
    next several =>
      split
      next broken =>
        exact iff_of_false (by rintro ⟨⟩) fun ok => by
          rw [broken] at ok
          cases ok.2.2.1
      next linked =>
        have enough := Nat.le_of_not_lt several
        change validateInterval p.options.runOnInterval = .ok () ↔ _
        simp [named.1, enough, linked]
  next unnamed =>
    refine iff_of_false (by rintro ⟨⟩) fun ok => unnamed (missingFields_eq_nil_iff.mpr ⟨ok.1, ?_⟩)
    rintro none_
    have several := ok.2.1
    rw [none_] at several
    cases several

theorem interval_of_validate (valid : p.validate = .ok ()) : ∃ i, p.interval = .ok i :=
  Interval.parseOptional_ok_iff.mpr (validate_ok_iff.mp valid).2.2.2

end Pipeline

namespace Engine

theorem validateJobs_ok_iff {jobs : List Job} :
    validateJobs tasks jobs = .ok () ↔ ∀ j ∈ jobs, j.validate tasks = .ok () := by
  induction jobs with
  | nil => simp [validateJobs]
  | cons j rest ih =>
    rw [validateJobs, check_ok_iff, ih, List.forall_mem_cons]

end Engine

end Rota
