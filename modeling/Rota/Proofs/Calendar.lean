import Rota.Instant
import Mathlib.Tactic.Common
/-! Days and their dates.
The date of a day exists, and counting the days before it gives the day back. The cycles of 400,
100, 4 and 1 years give the year; the lengths of the months give the rest. -/
namespace Rota.Calendar

/-! ### Years -/

/-- The days in front of a year that lies `single` years behind `group` groups of four years,
`century` centuries and `cycle` cycles. -/
theorem daysBeforeYear_eq {cycle century group single : Int}
    (centuries : 0 ≤ century ∧ century ≤ 3) (groups : 0 ≤ group ∧ group ≤ 24)
    (singles : 0 ≤ single ∧ single ≤ 3) :
    daysBeforeYear (400 * cycle + 100 * century + 4 * group + single + 1) =
      146097 * cycle + 36524 * century + 1461 * group + 365 * single := by
  unfold daysBeforeYear
  omega

private theorem isLeap_eq {cycle century group single : Int}
    (centuries : 0 ≤ century ∧ century ≤ 3) (groups : 0 ≤ group ∧ group ≤ 24)
    (singles : 0 ≤ single ∧ single ≤ 3) :
    isLeap (400 * cycle + 100 * century + 4 * group + single + 1) = true ↔
      single = 3 ∧ (group = 24 → century = 3) := by
  simp only [isLeap, Bool.and_eq_true, Bool.or_eq_true, beq_iff_eq, bne_iff_ne]
  omega

/-- What `yearOf` makes of a day: cycles, centuries, groups of four years and single years. -/
theorem yearOf_cycles (n : Int) : ∃ cycle century group single : Int,
    (0 ≤ century ∧ century ≤ 3) ∧ (0 ≤ group ∧ group ≤ 24) ∧ (0 ≤ single ∧ single ≤ 3) ∧
      (yearOf n).1 = 400 * cycle + 100 * century + 4 * group + single + 1 ∧
      146097 * cycle + 36524 * century + 1461 * group + 365 * single + (yearOf n).2 =
        n + epochDay ∧
      (yearOf n).2 < 366 ∧ ((yearOf n).2 = 365 → single = 3 ∧ (group = 24 → century = 3)) := by
  unfold yearOf
  dsimp only
  generalize n + epochDay = d
  refine ⟨d / 146097, min 3 (d % 146097 / 36524), _, _, ?_, ?_, ?_, rfl, ?_, ?_, ?_⟩
  all_goals omega

private theorem daysBeforeYear_yearOf (n : Int) :
    daysBeforeYear (yearOf n).1 + (yearOf n).2 = n + epochDay := by
  obtain ⟨cycle, century, group, single, centuries, groups, singles, year, sum, _⟩ :=
    yearOf_cycles n
  rw [year, daysBeforeYear_eq centuries groups singles]
  exact sum

private theorem yearOf_lt (n : Int) : (yearOf n).2 < if isLeap (yearOf n).1 then 366 else 365 := by
  obtain ⟨cycle, century, group, single, centuries, groups, singles, year, _, small, last⟩ :=
    yearOf_cycles n
  split
  next => exact small
  next common =>
    rw [year, isLeap_eq centuries groups singles] at common
    exact Nat.lt_of_le_of_ne (Nat.le_of_lt_succ small) fun same => common (last same)

/-! ### Months -/

private theorem monthOf_spec (month : Nat) (lengths : List Nat) (before : Nat)
    (inside : before < lengths.foldr (· + ·) 0) : ∃ i day, i < lengths.length ∧
      monthOf month lengths before = (month + i, day + 1) ∧ day < lengths.getD i 0 ∧
      (lengths.take i).foldr (· + ·) 0 + day = before := by
  induction lengths generalizing month before with
  | nil => exact absurd inside (Nat.not_lt_zero _)
  | cons length rest ih =>
    unfold monthOf
    split
    next here => exact ⟨0, before, by simp, rfl, here, by simp⟩
    next behind =>
      obtain ⟨i, day, more, found, day_lt, sum⟩ := ih (month + 1) (before - length) (by
        simp only [List.foldr_cons] at inside
        omega)
      refine ⟨i + 1, day, by simpa using more, ?_, day_lt, ?_⟩
      · rw [found]
        simp [Nat.add_right_comm, Nat.add_assoc]
      · simp only [List.take_succ_cons, List.foldr_cons]
        omega

theorem sum_monthLengths (year : Int) :
    (monthLengths year).foldr (· + ·) 0 = if isLeap year then 366 else 365 := by
  unfold monthLengths
  split <;> rfl

theorem monthLength_le (year : Int) (month : Nat) : monthLength year month ≤ 31 := by
  have lengths : ∀ length ∈ monthLengths year, length ≤ 31 := by
    unfold monthLengths
    split <;> decide
  unfold monthLength
  rw [List.getD_eq_getElem?_getD]
  cases found : (monthLengths year)[month - 1]? with
  | none => exact Nat.zero_le 31
  | some length => exact lengths length (List.mem_of_getElem? found)

/-! ### Dates -/

/-- The date of a day exists, and the day is the one that is counted up to it. -/
theorem ofDayNumber_spec (n : Int) :
    isValid (ofDayNumber n) = true ∧ dayNumber (ofDayNumber n) = n ∧
      (ofDayNumber n).year = (yearOf n).1 := by
  have before := daysBeforeYear_yearOf n
  obtain ⟨i, day, more, found, day_lt, sum⟩ := monthOf_spec 1 (monthLengths (yearOf n).1)
    (yearOf n).2 (by rw [sum_monthLengths]; exact yearOf_lt n)
  have date : ofDayNumber n = ⟨(yearOf n).1, 1 + i, day + 1⟩ := by
    simp only [ofDayNumber, found]
  have twelve : i < 12 := more
  rw [date]
  refine ⟨?_, ?_, rfl⟩
  · simp only [isValid, monthLength, Nat.add_sub_cancel_left, Bool.and_eq_true, decide_eq_true_eq]
    omega
  · simp only [dayNumber, daysBeforeMonth, Nat.add_sub_cancel_left]
    omega

/-- A day of the supported time lies in a supported year. -/
theorem year_ofDayNumber {n : Int} (early : -96465292 ≤ n) (late : n < 95026237) :
    -262143 ≤ (ofDayNumber n).year ∧ (ofDayNumber n).year ≤ 262142 := by
  have before := daysBeforeYear_yearOf n
  have less : (yearOf n).2 < 366 := by
    have := yearOf_lt n
    split at this <;> omega
  rw [(ofDayNumber_spec n).2.2]
  generalize (yearOf n).1 = year at before
  unfold daysBeforeYear epochDay at before
  constructor
  · refine Int.not_lt.mp fun less => ?_
    rcases Int.lt_or_eq_of_le (Int.le_sub_one_of_lt less) with less | rfl <;> omega
  · refine Int.not_lt.mp fun more => ?_
    rcases Int.lt_or_eq_of_le (Int.add_one_le_of_lt more) with more | rfl <;> omega

end Rota.Calendar

namespace Rota.Instant

theorem of?_self (t : Instant) : of? t.second t.nano = some t :=
  dif_pos ⟨t.inRange, t.nano_lt, t.leap_end⟩

theorem eq_of_second_of_nano {t u : Instant} (second : t.second = u.second) (nano : t.nano = u.nano) :
    t = u := by
  have same := of?_self t
  rw [second, nano, of?_self u] at same
  exact (Option.some.inj same).symm

theorem of?_eq_some {second : Int} {nano : Nat} {t : Instant} (made : of? second nano = some t) :
    t.second = second ∧ t.nano = nano := by
  unfold of? at made
  split at made
  next =>
    cases made
    exact ⟨rfl, rfl⟩
  next => cases made

theorem secondOfDay_lt (t : Instant) : t.secondOfDay < 86400 := by
  unfold secondOfDay
  omega

theorem isValid_date (t : Instant) : Calendar.isValid t.date = true :=
  (Calendar.ofDayNumber_spec _).1

theorem dayNumber_date (t : Instant) : Calendar.dayNumber t.date = t.dayNumber :=
  (Calendar.ofDayNumber_spec t.dayNumber).2.1

end Rota.Instant
