import Rota.Proofs.Iterated
/-! The order of instants under intervals.
An interval of a fixed length keeps two instants in their order, and a larger amount of the same
unit leads no less far. Months keep the order of dates only: where the target month is too short for
two days, both become its last day, and the times of day alone decide which of the results is
first. -/
namespace Rota

namespace Calendar

variable {d e : Date} {months few many : Nat}

/-- Of two dates the earlier lies in an earlier month, or on an earlier day of the same month. -/
theorem dayNumber_lt_iff (valid : isValid d = true) (valid' : isValid e = true) :
    dayNumber d < dayNumber e ↔
      monthIndex d < monthIndex e ∨ monthIndex d = monthIndex e ∧ d.day < e.day := by
  obtain ⟨own, first, fits⟩ := dayNumber_eq valid
  obtain ⟨own', first', fits'⟩ := dayNumber_eq valid'
  rcases Int.lt_trichotomy (monthIndex d) (monthIndex e) with before | same | after
  · have := daysBefore_add_lengthAt_le before
    omega
  · rw [same] at own
    omega
  · have := daysBefore_add_lengthAt_le after
    omega

private theorem monthIndex_eq_iff (valid : isValid d = true) (valid' : isValid e = true) :
    monthIndex d = monthIndex e ↔ d.year = e.year ∧ d.month = e.month := by
  simp only [isValid, Bool.and_eq_true, decide_eq_true_eq] at valid valid'
  unfold monthIndex
  omega

private theorem monthIndex_addMonths (d : Date) (months : Nat) :
    monthIndex (addMonths d months) = monthIndex d + months := by
  have index : monthIndex d + months = d.year * 12 + (d.month - 1 : Nat) + months := rfl
  rw [index]
  unfold addMonths monthIndex
  dsimp only
  omega

private theorem dayNumber_addMonths_lt_iff (valid : isValid d = true) (valid' : isValid e = true) :
    dayNumber (addMonths d few) < dayNumber (addMonths e many) ↔
      monthIndex d + few < monthIndex e + many ∨ monthIndex d + few = monthIndex e + many ∧
        min d.day (lengthAt (monthIndex d + few)) < min e.day (lengthAt (monthIndex e + many)) := by
  rw [dayNumber_lt_iff (isValid_addMonths (dayNumber_eq valid).2.1)
    (isValid_addMonths (dayNumber_eq valid').2.1), monthIndex_addMonths, monthIndex_addMonths]
  rfl

/-- More months lead to a later date. -/
theorem dayNumber_addMonths_lt (valid : isValid d = true) (less : few < many) :
    dayNumber (addMonths d few) < dayNumber (addMonths d many) :=
  (dayNumber_addMonths_lt_iff valid valid).mpr (Or.inl (by omega))

/-- Two days of the same month that both lie at or behind the end of the month that is `months`
later, so that both are cut down to its last day. -/
def CutAlike (d e : Date) (months : Nat) : Prop :=
  d.year = e.year ∧ d.month = e.month ∧
    let target := addMonths d months
    let last := monthLength target.year target.month
    last ≤ d.day ∧ last ≤ e.day

instance (d e : Date) (months : Nat) : Decidable (CutAlike d e months) :=
  inferInstanceAs (Decidable (_ ∧ _))

/-- Dates stay in their order, and different ones become the same where they are cut down. -/
theorem dayNumber_addMonths_cases (valid : isValid d = true) (valid' : isValid e = true)
    (earlier : dayNumber d < dayNumber e) :
    dayNumber (addMonths d months) < dayNumber (addMonths e months) ∧ ¬CutAlike d e months ∨
      dayNumber (addMonths d months) = dayNumber (addMonths e months) ∧ CutAlike d e months := by
  have same := monthIndex_eq_iff valid valid'
  have last : monthLength (addMonths d months).year (addMonths d months).month =
      lengthAt (monthIndex d + months) := rfl
  have less := @dayNumber_addMonths_lt_iff d e months months valid valid'
  have more := @dayNumber_addMonths_lt_iff e d months months valid' valid
  rw [dayNumber_lt_iff valid valid'] at earlier
  unfold CutAlike
  dsimp only
  rw [last, ← and_assoc, ← same]
  rcases earlier with before | ⟨index, day⟩
  · exact Or.inl ⟨less.mpr (Or.inl (by omega)), by omega⟩
  · rw [← index] at less more ⊢
    omega

end Calendar

namespace Instant

variable {t u : Instant} {few many : Nat}

def nanoOfDay (t : Instant) : Nat := t.secondOfDay * 1000000000 + t.nano

/-- Outside of leap seconds the date decides, and on one date the time of day. -/
theorem le_iff_dayNumber (calm : t.inLeapSecond = false) (calm' : u.inLeapSecond = false) :
    t ≤ u ↔ t.dayNumber < u.dayNumber ∨
      t.dayNumber = u.dayNumber ∧ t.nanoOfDay ≤ u.nanoOfDay := by
  simp only [inLeapSecond, decide_eq_false_iff_not] at calm calm'
  change t.le u = true ↔ _
  rw [le_iff]
  unfold dayNumber nanoOfDay secondOfDay
  omega

theorem le_of_lt (less : t < u) : t ≤ u := less.1

private theorem addSeconds?_le (le : few ≤ many) (moved : t.addSeconds? many = some u) :
    ∃ v, t.addSeconds? few = some v ∧ v ≤ u := by
  obtain ⟨v, there⟩ := Option.isSome_iff_exists.mp
    (isSome_addSeconds?_of_le le (Option.isSome_of_eq_some moved))
  refine ⟨v, there, ?_⟩
  rcases Nat.lt_or_eq_of_le le with less | rfl
  · exact le_of_lt (addSeconds?_lt less there moved)
  · cases there.symm.trans moved
    exact le_refl u

/-- Fewer months do not lead out of the supported years where more do not. -/
theorem addMonths?_le (le : few ≤ many) (moved : t.addMonths? many = some u) :
    ∃ v, t.addMonths? few = some v ∧ v ≤ u := by
  rcases Nat.lt_or_eq_of_le le with less | rfl
  swap
  · exact ⟨u, moved, le_refl u⟩
  rcases Nat.eq_zero_or_pos few with rfl | positive
  · exact ⟨t, if_pos rfl, le_of_lt (lt_addMonths? less moved)⟩
  have start := Calendar.dayNumber_lt_addMonths t.isValid_date positive
  have later := Calendar.dayNumber_addMonths_lt t.isValid_date less
  rw [dayNumber_date] at start
  rw [addMonths?_eq (by omega)] at moved ⊢
  -- The date of fewer months lies between that of the instant and that of more months.
  generalize Calendar.dayNumber (Calendar.addMonths t.date few) = day at *
  generalize Calendar.dayNumber (Calendar.addMonths t.date many) = day' at *
  split at moved
  next w made =>
    split at moved
    next => cases moved
    next =>
      cases moved
      obtain ⟨second, _⟩ := of?_eq_some made
      have inRange := t.inRange
      have inRange' := u.inRange
      have ends := t.leap_end
      have some_ : (of? (day * 86400 + t.secondOfDay) t.nano).isSome = true := by
        refine isSome_of?_iff.mpr ⟨?_, t.nano_lt, ?_⟩
        · unfold dayNumber secondOfDay at *
          omega
        · unfold secondOfDay
          omega
      obtain ⟨v, there⟩ := Option.isSome_iff_exists.mp some_
      obtain ⟨second', _⟩ := of?_eq_some there
      have before : v.second < u.second := by omega
      refine ⟨v, ?_, le_iff.mpr (Or.inl before)⟩
      simp only [there]
      rw [if_neg]
      simp only [Bool.and_eq_true, beq_iff_eq, not_and]
      omega
  next => cases moved

end Instant

namespace Interval

variable {i : Interval} {t t' u u' : Instant}

private theorem lands_adjust (positive : 1 ≤ i.amount.toNat) (calm : t.inLeapSecond = false)
    (moved : i.adjust t = .ok u) : i.Lands t 1 u := by
  have start : i.Lands t 0 t := lands_of_second target_zero.symm rfl
  rcases start.adjust positive calm with ⟨_, v, there, lands⟩ | ⟨_, failed⟩
  · cases moved.symm.trans there
    exact lands
  · cases moved.symm.trans failed

theorem Lands.calm (lands : i.Lands t 1 u) (calm : t.inLeapSecond = false) :
    u.inLeapSecond = false := by
  rw [Instant.inLeapSecond, lands.1]
  exact calm

/-- Months bring two instants out of their order: their days are cut down to the same day, and the
earlier one has the later time of day. -/
def Swaps (i : Interval) (t u : Instant) : Prop :=
  i.unit = .month ∧ Calendar.CutAlike t.date u.date i.amount.toNat ∧ u.nanoOfDay < t.nanoOfDay

instance (i : Interval) (t u : Instant) : Decidable (i.Swaps t u) :=
  inferInstanceAs (Decidable (_ ∧ _))

private theorem seconds?_eq_none_iff {unit : IntervalUnit} :
    unit.seconds? = none ↔ unit = .month := by
  cases unit <;> decide

/-- Seconds that are added to both of two instants do not change their order. -/
theorem Lands.le_of_seconds {seconds : Nat} (length : i.unit.seconds? = some seconds) (le : t ≤ t')
    (lands : i.Lands t 1 u) (lands' : i.Lands t' 1 u') : u ≤ u' := by
  obtain ⟨nano, place⟩ := lands
  obtain ⟨nano', place'⟩ := lands'
  rw [length] at place place'
  dsimp only at place place'
  have order := Instant.le_iff.mp le
  exact Instant.le_iff.mpr (by omega)

private theorem Lands.of_months (months : i.unit.seconds? = none) (lands : i.Lands t 1 u) :
    u.dayNumber = Calendar.dayNumber (Calendar.addMonths t.date i.amount.toNat) ∧
      u.nanoOfDay = t.nanoOfDay := by
  obtain ⟨nano, place⟩ := lands
  rw [months] at place
  obtain ⟨date, clock⟩ := place
  rw [Calendar.monthsLater_succ, Calendar.monthsLater_zero t.isValid_date] at date
  refine ⟨?_, ?_⟩
  · rw [← Instant.dayNumber_date, date]
  · rw [Instant.nanoOfDay, clock, nano, Instant.nanoOfDay]

private theorem Lands.le_iff_of_months (months : i.unit.seconds? = none)
    (calm : t.inLeapSecond = false)
    (calm' : t'.inLeapSecond = false) (le : t ≤ t') (lands : i.Lands t 1 u)
    (lands' : i.Lands t' 1 u') : u ≤ u' ↔ ¬i.Swaps t t' := by
  obtain ⟨day, clock⟩ := lands.of_months months
  obtain ⟨day', clock'⟩ := lands'.of_months months
  have unit := seconds?_eq_none_iff.mp months
  rw [Instant.le_iff_dayNumber (lands.calm calm) (lands'.calm calm'), day, day', clock, clock']
  rw [Instant.le_iff_dayNumber calm calm'] at le
  rcases le with earlier | ⟨same, sooner⟩
  · rw [← Instant.dayNumber_date, ← Instant.dayNumber_date] at earlier
    rcases Calendar.dayNumber_addMonths_cases t.isValid_date t'.isValid_date earlier
      with ⟨less, apart⟩ | ⟨equal, alike⟩
    · exact iff_of_true (Or.inl less) fun swaps => apart swaps.2.1
    · simp only [Swaps, unit, alike, equal, true_and]
      omega
  · -- On one day the times of day are in order already.
    have date : t.date = t'.date := by rw [Instant.date, same, Instant.date]
    rw [date]
    exact iff_of_true (Or.inr ⟨rfl, sooner⟩) fun swaps => Nat.not_le_of_gt swaps.2.2 sooner

private theorem adjust_eq_ok_iff : i.adjust t = .ok u ↔
    (match i.unit.seconds? with
      | some seconds => t.addSeconds? (seconds * i.amount.toNat : Nat)
      | none => t.addMonths? i.amount.toNat) = some u := by
  unfold adjust
  cases i.unit.seconds? with
  | some seconds =>
    dsimp only
    cases t.addSeconds? (seconds * i.amount.toNat : Nat) <;> simp
  | none =>
    dsimp only
    cases t.addMonths? i.amount.toNat <;> simp

/-- A larger amount of the same unit leads no less far. -/
theorem adjust_le_of_le {unit : IntervalUnit} {few many : UInt32} (le : few ≤ many)
    (moved : (Interval.mk many unit).adjust t = .ok u) :
    ∃ v, (Interval.mk few unit).adjust t = .ok v ∧ v ≤ u := by
  have amounts : few.toNat ≤ many.toNat := le
  revert moved
  simp only [adjust_eq_ok_iff]
  cases unit.seconds? with
  | some seconds => exact Instant.addSeconds?_le (Nat.mul_le_mul_left seconds amounts)
  | none => exact Instant.addMonths?_le amounts

/-- Intervals lead forwards. They keep two instants in their order, except for months that cut
different days down to the same one while the times of day are the other way round. A larger amount
leads no less far, and no sooner out of the supported years. -/
theorem adjust_ordered :
    (∀ (i : Interval) (t u : Instant), 1 ≤ i.amount.toNat → i.adjust t = .ok u → t < u) ∧
    (∀ (i : Interval) (t t' u u' : Instant), 1 ≤ i.amount.toNat → t.inLeapSecond = false →
      t'.inLeapSecond = false → t ≤ t' → i.adjust t = .ok u → i.adjust t' = .ok u' →
      (u ≤ u' ↔ ¬i.Swaps t t')) ∧
    ∀ (unit : IntervalUnit) (few many : UInt32) (t u : Instant), few ≤ many →
      (Interval.mk many unit).adjust t = .ok u →
      ∃ v, (Interval.mk few unit).adjust t = .ok v ∧ v ≤ u := by
  refine ⟨fun i t u positive moved => lt_adjust positive moved, ?_, ?_⟩
  · intro i t t' u u' positive calm calm' le moved moved'
    have lands := lands_adjust positive calm moved
    have lands' := lands_adjust positive calm' moved'
    cases length : i.unit.seconds? with
    | some seconds =>
      have fixed : i.unit ≠ .month := fun month => by
        rw [seconds?_eq_none_iff.mpr month] at length
        cases length
      exact iff_of_true (lands.le_of_seconds length le lands') fun swaps => fixed swaps.1
    | none => exact lands.le_iff_of_months length calm calm' le lands'
  · intro unit few many t u le moved
    exact adjust_le_of_le le moved

def evening : Instant := (Instant.of? 1706655600 0).get (by rfl)

def night : Instant := (Instant.of? 1706662800 0).get (by rfl)

def noon : Instant := (Instant.of? 1706702400 0).get (by rfl)

/-- A month after the night and the noon of one day is the night and the noon of the leap day; two
months are no less. -/
theorem adjust_ordered_night : ∃ u u' v, (Interval.mk 1 .month).adjust night = .ok u ∧
    (Interval.mk 1 .month).adjust noon = .ok u' ∧ (Interval.mk 2 .month).adjust night = .ok v ∧
    u.date = ⟨2024, 2, 29⟩ ∧ u'.date = ⟨2024, 2, 29⟩ ∧ night < u ∧ u ≤ u' ∧ u ≤ v := by
  obtain ⟨forwards, ordered, further⟩ := adjust_ordered
  let u : Instant := ⟨1709168400, 0, by decide, by decide, by decide⟩
  let u' : Instant := ⟨1709208000, 0, by decide, by decide, by decide⟩
  let v : Instant := ⟨1711846800, 0, by decide, by decide, by decide⟩
  have fromNight : (Interval.mk 1 .month).adjust night = .ok u := by decide +kernel
  have fromNoon : (Interval.mk 1 .month).adjust noon = .ok u' := by decide +kernel
  have twice : (Interval.mk 2 .month).adjust night = .ok v := by decide +kernel
  refine ⟨u, u', v, fromNight, fromNoon, twice, by decide +kernel, by decide +kernel, ?_, ?_, ?_⟩
  · exact forwards ⟨1, .month⟩ night u (by decide) fromNight
  · exact (ordered ⟨1, .month⟩ night noon u u' (by decide) (by decide) (by decide) (by decide)
      fromNight fromNoon).mpr (by decide +kernel)
  · obtain ⟨w, there, before⟩ := further .month 1 2 night v (by decide) twice
    cases fromNight.symm.trans there
    exact before

/-- The evening of the 30th is before the night of the 31st. A month later both are on the leap day,
and there the evening is after the night. -/
theorem adjust_swapped : evening ≤ night ∧ evening.inLeapSecond = false ∧
    night.inLeapSecond = false ∧ ∃ u u', (Interval.mk 1 .month).adjust evening = .ok u ∧
      (Interval.mk 1 .month).adjust night = .ok u' ∧ ¬u ≤ u' := by
  refine ⟨by decide, by decide, by decide, ⟨1709247600, 0, by decide, by decide, by decide⟩,
    ⟨1709168400, 0, by decide, by decide, by decide⟩, ?_, ?_, by decide⟩
  all_goals decide +kernel

end Interval

end Rota
