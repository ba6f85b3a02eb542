import Rota.Proofs.Digits
import Rota.Text.Blank
import Mathlib.Data.List.DropRight
import Mathlib.Data.List.TakeWhile
/-! Trimming.
A text is its trimmed text with blanks around it, and blanks around a text make no difference to
what trimming leaves. -/
namespace Rota.Text

variable {s rest front back : List Char} {c : Char} {f : Char → Char}

theorem isBlank_of_isDigit (digit : isDigit c = true) : isBlank c = false := by
  have := isDigit_iff.mp digit
  simp only [isBlank, Bool.or_eq_false_iff, Bool.and_eq_false_iff, decide_eq_false_iff_not,
    beq_eq_false_iff_ne]
  omega

theorem not_isDigit_of_isBlank (blank : isBlank c = true) : isDigit c = false :=
  Bool.eq_false_iff.mpr fun digit => by
    rw [isBlank_of_isDigit digit] at blank
    cases blank

theorem trimStart_cons (visible : isBlank c = false) : trimStart (c :: rest) = c :: rest := by
  simp [trimStart, visible]

private theorem trimEnd_eq (s : List Char) : trimEnd s = s.rdropWhile isBlank := rfl

private theorem trimStart_trim (s : List Char) : trimStart (trim s) = trim s := by
  have ends : trim s <+: trimStart s := List.rdropWhile_prefix isBlank (trimStart s)
  cases kept : trim s with
  | nil => rfl
  | cons c rest =>
    obtain ⟨rest', same⟩ := kept ▸ ends
    have first : isBlank c = false := by
      have again : trimStart (trimStart s) = trimStart s := List.dropWhile_idempotent isBlank s
      rw [← same, List.cons_append] at again
      simpa [trimStart] using List.dropWhile_eq_self_iff.mp again (by simp)
    simp [trimStart, first]

theorem trim_trim (s : List Char) : trim (trim s) = trim s := by
  have again : trimEnd (trimEnd (trimStart s)) = trimEnd (trimStart s) :=
    List.rdropWhile_idempotent isBlank (trimStart s)
  conv_lhs => rw [trim, trimStart_trim]
  exact again

/-- What trimming takes away are blanks at the two ends. -/
theorem exists_trim (s : List Char) : ∃ front back, s = front ++ trim s ++ back ∧
    (∀ c ∈ front, isBlank c = true) ∧ ∀ c ∈ back, isBlank c = true := by
  refine ⟨s.takeWhile isBlank, (trimStart s).rtakeWhile isBlank, ?_,
    fun c => List.mem_takeWhile_imp, fun c => List.mem_rtakeWhile_imp⟩
  rw [trim, trimEnd_eq, List.append_assoc, List.rdropWhile_append_rtakeWhile, trimStart,
    List.takeWhile_append_dropWhile]

theorem trim_eq_nil_iff : trim s = [] ↔ ∀ c ∈ s, isBlank c = true := by
  constructor
  · intro none_
    obtain ⟨front, back, split, blank, blank'⟩ := exists_trim s
    rw [none_, List.append_nil] at split
    rw [split]
    exact List.forall_mem_append.mpr ⟨blank, blank'⟩
  · intro blank
    rw [trim, trimStart, List.dropWhile_eq_nil_iff.mpr blank]
    rfl

private theorem trim_append_back (blank : ∀ c ∈ back, isBlank c = true) :
    trim (s ++ back) = trim s := by
  have ends (s : List Char) : trimEnd (s ++ back) = trimEnd s := by
    unfold trimEnd
    rw [List.reverse_append, List.dropWhile_append_of_pos (by simpa using blank)]
  unfold trim trimStart
  rw [List.dropWhile_append]
  split
  next none_ =>
    rw [List.isEmpty_iff.mp none_, List.dropWhile_eq_nil_iff.mpr blank]
  next => exact ends _

theorem trim_append_front (blank : ∀ c ∈ front, isBlank c = true) : trim (front ++ s) = trim s := by
  rw [trim, trimStart, List.dropWhile_append_of_pos blank]
  rfl

/-- Blanks around a text are trimmed away with those that it has at its ends. -/
theorem trim_append (blank : ∀ c ∈ front, isBlank c = true)
    (blank' : ∀ c ∈ back, isBlank c = true) : trim (front ++ s ++ back) = trim s := by
  rw [trim_append_back blank', trim_append_front blank]

/-- A text that begins and ends with visible characters is left as it is. -/
theorem trim_eq_self (first : ∀ c ∈ s.head?, isBlank c = false)
    (last : ∀ c ∈ s.getLast?, isBlank c = false) : trim s = s := by
  have start : trimStart s = s := List.dropWhile_eq_self_iff.mpr fun some_ => by
    rw [Bool.not_eq_true]
    exact first _ (by simp [List.head?_eq_getElem?, some_])
  rw [trim, start, trimEnd_eq, List.rdropWhile_eq_self_iff]
  intro some_
  rw [Bool.not_eq_true]
  exact last _ (by simp [List.getLast?_eq_getLast_of_ne_nil some_])

theorem trim_map (keeps : ∀ c, isBlank (f c) = isBlank c) : trim (s.map f) = (trim s).map f := by
  have same : isBlank ∘ f = isBlank := funext keeps
  simp only [trim, trimEnd, trimStart, List.dropWhile_map, ← List.map_reverse, same]

end Rota.Text
