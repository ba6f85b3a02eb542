import Rota.Proofs.Calendar
import Rota.Proofs.Clock
import Rota.Proofs.Expression
/-! Intervals lead onwards.
An interval has an amount of one at least. So the instant one interval after another is later, also
where it is counted in months of different lengths, and where it begins or ends in a leap second. -/
namespace Rota

namespace Calendar

/-! ### Months in a row -/

/-- The days from 0001-01-01 to the month with this number; January of the year 0 has number 0. -/
def daysBefore (index : Int) : Int :=
  daysBeforeYear (index / 12) + daysBeforeMonth (index / 12) ((index % 12).toNat + 1)

def lengthAt (index : Int) : Nat := monthLength (index / 12) ((index % 12).toNat + 1)

def monthIndex (d : Date) : Int := d.year * 12 + (d.month - 1 : Nat)

private theorem daysBeforeYear_succ (year : Int) :
    daysBeforeYear (year + 1) = daysBeforeYear year + if isLeap year then 366 else 365 := by
  unfold daysBeforeYear
  split
  next leap =>
    simp only [isLeap, Bool.and_eq_true, Bool.or_eq_true, beq_iff_eq, bne_iff_ne] at leap
    omega
  next common =>
    simp only [isLeap, Bool.and_eq_true, Bool.or_eq_true, beq_iff_eq, bne_iff_ne] at common
    omega

private theorem sum_take_succ (lengths : List Nat) (i : Nat) :
    (lengths.take (i + 1)).foldr (· + ·) 0 =
    (lengths.take i).foldr (· + ·) 0 + lengths.getD i 0 := by
  induction lengths generalizing i with
  | nil => simp
  | cons length rest ih =>
    cases i with
    | zero => simp
    | succ i =>
      simp only [List.take_succ_cons, List.foldr_cons, List.getD_cons_succ] at ih ⊢
      rw [ih i]
      omega

private theorem daysBefore_succ (index : Int) :
    daysBefore (index + 1) = daysBefore index + lengthAt index := by
  have next := sum_take_succ (monthLengths (index / 12)) (index % 12).toNat
  unfold daysBefore lengthAt daysBeforeMonth monthLength
  simp only [Nat.add_sub_cancel]
  by_cases last : index % 12 = 11
  · have year : (index + 1) / 12 = index / 12 + 1 := by omega
    have first : ((index + 1) % 12).toNat = 0 := by omega
    have whole : (monthLengths (index / 12)).take ((index % 12).toNat + 1) =
        monthLengths (index / 12) := by
      rw [show (index % 12).toNat + 1 = 12 by omega]
      rfl
    have all := sum_monthLengths (index / 12)
    rw [whole] at next
    rw [year, first, daysBeforeYear_succ, List.take_zero, List.foldr_nil]
    split at all <;> simp_all <;> omega
  · have year : (index + 1) / 12 = index / 12 := by omega
    have month : ((index + 1) % 12).toNat = (index % 12).toNat + 1 := by omega
    rw [year, month, next]
    omega

theorem daysBefore_le {i j : Int} (le : i ≤ j) : daysBefore i ≤ daysBefore j := by
  obtain ⟨n, rfl⟩ := Int.le.dest le
  clear le
  induction n with
  | zero => exact Int.le_of_eq (congrArg daysBefore (Int.add_zero i).symm)
  | succ n ih =>
    have next := daysBefore_succ (i + n)
    rw [Int.natCast_succ, ← Int.add_assoc]
    omega

/-- A month ends before any later one. -/
theorem daysBefore_add_lengthAt_le {i j : Int} (earlier : i < j) :
    daysBefore i + lengthAt i ≤ daysBefore j := by
  rw [← daysBefore_succ]
  exact daysBefore_le earlier

theorem lengthAt_pos (index : Int) : 1 ≤ lengthAt index := by
  have all : ∀ year, ∀ i < 12, 1 ≤ (monthLengths year).getD i 0 := by
    intro year
    unfold monthLengths
    split <;> decide
  exact all _ _ (by omega)

/-! ### Dates in a row -/

theorem div_mod_monthIndex (year : Int) {month : Nat} (small : month < 12) :
    (year * 12 + (month : Nat)) / 12 = year ∧ ((year * 12 + (month : Nat)) % 12).toNat = month := by
  omega

theorem dayNumber_eq {d : Date} (valid : isValid d = true) :
    dayNumber d = daysBefore (monthIndex d) + d.day - 1 - epochDay ∧
      1 ≤ d.day ∧ d.day ≤ lengthAt (monthIndex d) := by
  simp only [isValid, Bool.and_eq_true, decide_eq_true_eq] at valid
  obtain ⟨⟨⟨least, most⟩, positive⟩, fits⟩ := valid
  obtain ⟨year, month⟩ := div_mod_monthIndex d.year (show d.month - 1 < 12 by omega)
  have same : d.month - 1 + 1 = d.month := by omega
  unfold dayNumber daysBefore lengthAt monthIndex
  rw [year, month, same]
  exact ⟨rfl, positive, fits⟩

private theorem dayNumber_addMonths (d : Date) (months : Nat) :
    dayNumber (addMonths d months) = daysBefore (monthIndex d + months) +
      (min d.day (lengthAt (monthIndex d + months)) : Nat) - 1 - epochDay := rfl

/-- A date some months later is later. -/
theorem dayNumber_lt_addMonths {d : Date} {months : Nat} (valid : isValid d = true)
    (positive : 0 < months) : dayNumber d < dayNumber (addMonths d months) := by
  obtain ⟨own, first, fits⟩ := dayNumber_eq valid
  have later := daysBefore_add_lengthAt_le (show monthIndex d < monthIndex d + months by omega)
  have some_ := lengthAt_pos (monthIndex d + months)
  rw [own, dayNumber_addMonths]
  omega

end Calendar

namespace Instant

variable {t u v : Instant}

private theorem lt_iff : t < u ↔ t.second < u.second ∨ t.second = u.second ∧ t.nano < u.nano := by
  have apart : t ≠ u ↔ ¬(t.second = u.second ∧ t.nano = u.nano) := by
    cases t
    cases u
    simp
  change t.le u = true ∧ t ≠ u ↔ _
  rw [le_iff, apart]
  omega

private theorem second_addSeconds? {seconds : Int} (forward : 0 ≤ seconds)
    (moved : t.addSeconds? seconds = some u) : u.second = t.second + seconds := by
  have small := t.nano_lt
  rw [addSeconds?, addNanos?_forwards (by omega)] at moved
  split at moved
  next =>
    obtain ⟨second, _⟩ := of?_eq_some moved
    omega
  next =>
    obtain ⟨second, _⟩ := of?_eq_some moved
    split at second
    all_goals omega

private theorem lt_addSeconds? {seconds : Int} (forward : 0 < seconds)
    (moved : t.addSeconds? seconds = some u) : t < u := by
  have later := second_addSeconds? (Int.le_of_lt forward) moved
  rw [lt_iff]
  omega

theorem addSeconds?_lt {few many : Nat} (less : few < many) (moved : t.addSeconds? few = some u)
    (moved' : t.addSeconds? many = some v) : u < v := by
  have early := second_addSeconds? (Int.natCast_nonneg few) moved
  have late := second_addSeconds? (Int.natCast_nonneg many) moved'
  rw [lt_iff]
  omega

theorem addMonths?_eq {months : Nat} (positive : months ≠ 0) :
    t.addMonths? months =
      match of? (Calendar.dayNumber (Calendar.addMonths t.date months) * 86400 + t.secondOfDay)
        t.nano with
      | some u => if u.inLeapSecond && u.second == 8210266876799 then none else some u
      | none => none := if_neg positive

theorem lt_addMonths? {months : Nat} (forward : 0 < months)
    (moved : t.addMonths? months = some u) : t < u := by
  have later := Calendar.dayNumber_lt_addMonths t.isValid_date forward
  rw [dayNumber_date] at later
  rw [addMonths?_eq (by omega)] at moved
  split at moved
  next v made =>
    split at moved
    next => cases moved
    next =>
      cases moved
      obtain ⟨second, _⟩ := of?_eq_some made
      rw [lt_iff]
      unfold dayNumber secondOfDay at *
      omega
  next => cases moved

end Instant

namespace Interval

variable {i : Interval} {t u : Instant}

/-- The instant one interval after another is later. -/
theorem lt_adjust (positive : 0 < i.amount.toNat) (moved : i.adjust t = .ok u) : t < u := by
  unfold adjust at moved
  dsimp only at moved
  split at moved
  next next_ found =>
    cases moved
    split at found
    next seconds length =>
      refine Instant.lt_addSeconds? ?_ found
      have long : 0 < seconds := by
        revert length
        cases i.unit <;> rintro ⟨⟩ <;> decide
      exact Int.natCast_pos.mpr (Nat.mul_pos long positive)
    next => exact Instant.lt_addMonths? positive found
  next => cases moved

private theorem amount_of_read? {s : List Char} (read : read? s = some i) : 0 < i.amount.toNat :=
  (read?_eq_some_iff.mp read).positive

theorem amount_of_parseOptional {expression : Option String}
    (parsed : parseOptional expression = .ok (some i)) : 0 < i.amount.toNat := by
  unfold parseOptional at parsed
  split at parsed
  next => cases parsed
  next text =>
    split at parsed
    next => cases parsed
    next =>
      unfold parse at parsed
      split at parsed
      next found =>
        cases parsed
        exact amount_of_read? found
      next => cases parsed

end Interval

-- The 31st has no counterpart in February, where the interval ends on the last day instead.
example : (Interval.mk 1 .month).adjust ⟨1706702400, 0, by decide, by decide, by decide⟩ =
    .ok ⟨1709208000, 0, by decide, by decide, by decide⟩ := by
  decide +kernel

end Rota
