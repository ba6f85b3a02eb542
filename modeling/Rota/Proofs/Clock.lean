import Rota.Engine
import Rota.Proofs.Calendar
/-! The clock.
Instants are ordered in time, and the clock of an engine never goes back: it stops where the
supported years end. -/
namespace Rota

namespace Instant

variable {t u : Instant}

theorem le_iff : t.le u = true ↔ t.second < u.second ∨ t.second = u.second ∧ t.nano ≤ u.nano := by
  simp [le]

@[simp] theorem le_refl (t : Instant) : t.le t = true := le_iff.mpr (Or.inr ⟨rfl, Nat.le_refl _⟩)

theorem le_total (t u : Instant) : t.le u = true ∨ u.le t = true := by
  rw [le_iff, le_iff]
  omega

theorem le_trans {t u v : Instant} (first : t.le u = true) (second : u.le v = true) :
    t.le v = true := by
  rw [le_iff] at first second ⊢
  omega

theorem le_antisymm (first : t.le u = true) (second : u.le t = true) : t = u := by
  rw [le_iff] at first second
  exact eq_of_second_of_nano (by omega) (by omega)

/-- Where moving forwards leads. -/
theorem addNanos?_forwards {n : Int} (forward : 0 ≤ n) : t.addNanos? n =
    if 1000000000 ≤ t.nano ∧ t.nano + n < 2000000000 then of? t.second (t.nano + n).toNat
    else
      let nanos := (if 1000000000 ≤ t.nano then (t.nano : Int) - 1000000000 else t.nano) + n
      of? (t.second + nanos / 1000000000) (nanos % 1000000000).toNat := by
  have small := t.nano_lt
  unfold addNanos? carry? inLeapSecond
  rw [Int.tdiv_eq_ediv_of_nonneg forward, Int.tmod_eq_emod_of_nonneg forward]
  by_cases leap : 1000000000 ≤ t.nano
  · simp only [leap, decide_true, if_true, true_and, Bool.or_eq_true, Bool.and_eq_true,
      decide_eq_true_eq]
    by_cases stays : t.nano + n < 2000000000
    · have whole : n / 1000000000 = 0 := by omega
      have rest : n % 1000000000 = n := by omega
      rw [if_neg (by omega), if_neg (by omega), if_pos stays, rest]
    · rw [if_pos (by omega), if_neg stays]
      congr 1
      · omega
      · congr 1
        omega
  · simp only [leap, decide_false, Bool.false_eq_true, if_false, false_and]
    congr 1
    · omega
    · congr 1
      omega

/-- Moving forwards does not lead back, in a leap second neither. -/
theorem le_addNanos {nanos : Int} (forward : 0 ≤ nanos) (moved : t.addNanos? nanos = some u) :
    t.le u = true := by
  rw [addNanos?_forwards forward] at moved
  rw [le_iff]
  split at moved
  next stays =>
    obtain ⟨second, nano⟩ := of?_eq_some moved
    omega
  next leaves =>
    have small := t.nano_lt
    obtain ⟨second, nano⟩ := of?_eq_some moved
    by_cases leap : 1000000000 ≤ t.nano
    · rw [if_pos leap] at second nano
      omega
    · rw [if_neg leap] at second nano
      omega

end Instant

/-- The clock never goes back. -/
theorem Engine.le_now_advance (e : Engine) (millis : Nat) : e.now.le (e.advance millis).now = true := by
  unfold Engine.advance
  cases moved : e.now.addMillis? millis with
  | none => simp
  | some u => exact Instant.le_addNanos (by omega) moved

end Rota
