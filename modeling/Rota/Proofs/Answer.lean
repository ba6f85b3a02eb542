import Mathlib.Data.List.Forall2
/-! Computations that answer with a value or an error, taken apart. -/
namespace Rota

variable {ε ε' α β γ : Type}

theorem bind_ok {first : Except ε α} {next : α → Except ε β} {result : β}
    (ok : (first >>= next) = .ok result) : ∃ v, first = .ok v ∧ next v = .ok result := by
  cases first with
  | error e => cases ok
  | ok v => exact ⟨v, rfl, ok⟩

theorem bind_ok_iff {first : Except ε α} {next : α → Except ε β} {result : β} :
    (first >>= next) = .ok result ↔ ∃ v, first = .ok v ∧ next v = .ok result := by
  constructor
  · exact bind_ok
  · rintro ⟨v, rfl, ok⟩
    exact ok

/-- A check in front of a computation. -/
theorem check_ok_iff {check : Except ε Unit} {next : Except ε β} {result : β} :
    (check >>= fun _ => next) = .ok result ↔ check = .ok () ∧ next = .ok result := by
  rw [bind_ok_iff]
  exact ⟨fun ⟨_, passed, ok⟩ => ⟨passed, ok⟩, fun ⟨passed, ok⟩ => ⟨(), passed, ok⟩⟩

theorem ok_of_toOption {answer : Except ε α} {f : α → β} {b : β}
    (ok : answer.toOption.map f = some b) : ∃ v, answer = .ok v ∧ f v = b := by
  cases answer with
  | error e => cases ok
  | ok v => exact ⟨v, rfl, Option.some.inj ok⟩

theorem ok_of_map {answer : Except ε α} {f : α → β} {b : β} (mapped : answer.map f = .ok b) :
    ∃ v, answer = .ok v ∧ f v = b := by
  cases answer with
  | error e => cases mapped
  | ok v => exact ⟨v, rfl, Except.ok.inj mapped⟩

theorem error_of_map {answer : Except ε α} {f : α → β} {e : ε} (failed : answer.map f = .error e) :
    answer = .error e := by
  cases answer with
  | error e' => cases failed; rfl
  | ok v => cases failed

theorem mapError_ok {f : ε → ε'} {answer : Except ε α} {v : α}
    (ok : answer.mapError f = .ok v) : answer = .ok v := by
  cases answer with
  | error e => cases ok
  | ok w => cases ok; rfl

theorem mapM_ok {f : α → Except ε β} {xs : List α} {ys : List β} (ok : xs.mapM f = .ok ys) :
    List.Forall₂ (fun x y => f x = .ok y) xs ys := by
  induction xs generalizing ys with
  | nil =>
    cases ok
    exact .nil
  | cons x xs ih =>
    rw [List.mapM_cons] at ok
    obtain ⟨y, head, rest⟩ := bind_ok ok
    obtain ⟨tail, mapped, last⟩ := bind_ok rest
    cases last
    exact .cons head (ih mapped)

theorem mapM_error {f : α → Except ε β} {xs : List α} {e : ε} (failed : xs.mapM f = .error e) :
    ∃ x ∈ xs, f x = .error e := by
  induction xs with
  | nil => cases failed
  | cons x xs ih =>
    rw [List.mapM_cons] at failed
    cases head : f x with
    | error e' =>
      rw [head] at failed
      cases failed
      exact ⟨x, by simp, head⟩
    | ok y =>
      cases mapped : xs.mapM f with
      | error e' =>
        rw [head, mapped] at failed
        cases failed
        obtain ⟨z, member, bad⟩ := ih mapped
        exact ⟨z, by simp [member], bad⟩
      | ok ys =>
        rw [head, mapped] at failed
        cases failed

theorem forall₂_mem_right {R : α → β → Prop} {xs : List α} {ys : List β}
    (related : List.Forall₂ R xs ys) {y : β} (member : y ∈ ys) : ∃ x ∈ xs, R x y := by
  induction related with
  | nil => cases member
  | cons head tail ih =>
    rcases List.mem_cons.mp member with rfl | later
    · exact ⟨_, by simp, head⟩
    · obtain ⟨x, inside, relation⟩ := ih later
      exact ⟨x, by simp [inside], relation⟩

theorem map_eq_of_forall₂ {f : α → γ} {g : β → γ} {xs : List α} {ys : List β}
    (related : List.Forall₂ (fun x y => f x = g y) xs ys) : xs.map f = ys.map g := by
  induction related with
  | nil => rfl
  | cons head tail ih => rw [List.map_cons, List.map_cons, head, ih]

theorem map_eq_of_isSome {f : α → γ} {g : β → γ} {a : Option α} {b : Option β}
    (same : a.isSome = b.isSome) (each : ∀ v, a = some v → ∃ w, b = some w ∧ f v = g w) :
    a.map f = b.map g := by
  cases a with
  | none => rw [Option.isNone_iff_eq_none.mp (Option.isSome_eq_false_iff.mp same.symm)]; rfl
  | some v =>
    obtain ⟨w, rfl, equal⟩ := each v rfl
    exact congrArg some equal

end Rota
