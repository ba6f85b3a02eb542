import Rota.Proofs.Onward
import Rota.Proofs.Reach
/-! Intervals one after another.
Steps of a fixed length add up. Steps of months keep the time of day, and every month on the way
that is too short for the day cuts it down for the rest of the way. The first target beyond the
supported years is an error, and there is no way back from there. -/
namespace Rota

namespace Calendar

def monthsLater (d : Date) (months steps : Nat) : Date :=
  let index := monthIndex d + (steps * months : Nat)
  let visited :=
    (List.range steps).map fun step => lengthAt (monthIndex d + ((step + 1) * months : Nat))
  ⟨index / 12, (index % 12).toNat + 1, visited.foldl min d.day⟩

variable {d : Date} {months steps : Nat}

private theorem monthIndex_monthsLater :
    monthIndex (monthsLater d months steps) = monthIndex d + (steps * months : Nat) := by
  unfold monthsLater
  generalize monthIndex d + (steps * months : Nat) = index
  unfold monthIndex
  dsimp only
  omega

theorem monthsLater_zero (valid : isValid d = true) : monthsLater d months 0 = d := by
  simp only [isValid, Bool.and_eq_true, decide_eq_true_eq] at valid
  obtain ⟨year, month⟩ := div_mod_monthIndex d.year (show d.month - 1 < 12 by omega)
  unfold monthsLater monthIndex
  simp only [Nat.zero_mul, Int.natCast_zero, Int.add_zero, year, month, List.range_zero,
    List.map_nil, List.foldl_nil, Nat.sub_add_cancel valid.1.1.1]

/-- A further step cuts the day down to the month it leads to. -/
theorem monthsLater_succ :
    monthsLater d months (steps + 1) = addMonths (monthsLater d months steps) months := by
  have index : monthIndex d + ((steps + 1) * months : Nat) =
      monthIndex (monthsLater d months steps) + months := by
    rw [monthIndex_monthsLater, Nat.succ_mul]
    omega
  unfold monthsLater at *
  simp only [List.range_succ, List.map_append, List.map_cons, List.map_nil, List.foldl_append,
    List.foldl_cons, List.foldl_nil, index]
  rfl

theorem isValid_addMonths (positive : 1 ≤ d.day) : isValid (addMonths d months) = true := by
  have some_ : 1 ≤ monthLength _ _ := lengthAt_pos (monthIndex d + months)
  unfold monthIndex at some_
  unfold isValid addMonths
  dsimp only
  simp only [Bool.and_eq_true, decide_eq_true_eq]
  omega

private theorem isValid_monthsLater (valid : isValid d = true) (months steps : Nat) :
    isValid (monthsLater d months steps) = true := by
  induction steps with
  | zero => rwa [monthsLater_zero valid]
  | succ steps ih =>
    rw [monthsLater_succ]
    exact isValid_addMonths (dayNumber_eq ih).2.1

/-- Different dates are different days. -/
theorem ofDayNumber_dayNumber (valid : isValid d = true) : ofDayNumber (dayNumber d) = d := by
  obtain ⟨there, same, _⟩ := ofDayNumber_spec (dayNumber d)
  generalize ofDayNumber (dayNumber d) = e at there same
  obtain ⟨number, first, fits⟩ := dayNumber_eq valid
  obtain ⟨number', first', fits'⟩ := dayNumber_eq there
  have index : monthIndex e = monthIndex d := by
    rcases Int.lt_trichotomy (monthIndex e) (monthIndex d) with before | same | after
    · have := daysBefore_add_lengthAt_le before
      omega
    · exact same
    · have := daysBefore_add_lengthAt_le after
      omega
  rw [index] at number'
  have day : e.day = d.day := by omega
  simp only [isValid, Bool.and_eq_true, decide_eq_true_eq] at valid there
  unfold monthIndex at index
  have year : e.year = d.year := by omega
  have month : e.month = d.month := by omega
  cases d
  cases e
  simp_all only

end Calendar

namespace Instant

def Supported (second : Int) : Prop := -8334601228800 ≤ second ∧ second < 8210266876800

instance (second : Int) : Decidable (Supported second) :=
  inferInstanceAs (Decidable (_ ∧ _))

variable {t u : Instant}

private theorem of?_eq (calm : t.inLeapSecond = false) (second : Int) :
    (Supported second ∧ ∃ u, of? second t.nano = some u ∧ u.second = second ∧ u.nano = t.nano) ∨
      (¬Supported second ∧ of? second t.nano = none) := by
  simp only [inLeapSecond, decide_eq_false_iff_not] at calm
  by_cases supported : Supported second
  · refine Or.inl ⟨supported, ?_⟩
    obtain ⟨u, made⟩ := Option.isSome_iff_exists.mp
      (isSome_of?_iff.mpr ⟨supported, t.nano_lt, fun leap => absurd leap calm⟩)
    exact ⟨u, made, of?_eq_some made⟩
  · refine Or.inr ⟨supported, Option.not_isSome_iff_eq_none.mp fun made => supported ?_⟩
    exact (isSome_of?_iff.mp made).1

private theorem addSeconds?_calm (calm : t.inLeapSecond = false) (seconds : Nat) :
    t.addSeconds? seconds = of? (t.second + seconds) t.nano := by
  simp only [inLeapSecond, decide_eq_false_iff_not] at calm
  have second : ((t.nano : Int) + seconds * 1000000000) / 1000000000 = seconds := by omega
  have nano : (((t.nano : Int) + seconds * 1000000000) % 1000000000).toNat = t.nano := by omega
  rw [addSeconds?, addNanos?_forwards (by omega), if_neg (fun leap => calm leap.1)]
  dsimp only
  rw [if_neg calm, second, nano]

private theorem addMonths?_calm (calm : t.inLeapSecond = false) {months : Nat}
    (positive : 1 ≤ months) :
    t.addMonths? months = of?
      (Calendar.dayNumber (Calendar.addMonths t.date months) * 86400 + t.secondOfDay) t.nano := by
  rw [addMonths?_eq (by omega)]
  rcases of?_eq calm (Calendar.dayNumber (Calendar.addMonths t.date months) * 86400 + t.secondOfDay)
    with ⟨_, u, made, _, nano⟩ | ⟨_, none_⟩
  · have still : u.inLeapSecond = false := by
      rw [inLeapSecond, nano]
      exact calm
    simp only [made, still, Bool.false_and, Bool.false_eq_true, if_false]
  · simp only [none_]

private theorem second_eq (t : Instant) :
    t.second = Calendar.dayNumber t.date * 86400 + t.secondOfDay := by
  rw [dayNumber_date]
  unfold dayNumber secondOfDay
  omega

end Instant

namespace Interval

variable {i : Interval} {t u : Instant} {k m : Nat}

/-- What `k` intervals one after the other lead to. -/
def adjustTimes (i : Interval) (start : Instant) : Nat → Except ScheduleError Instant
  | 0 => .ok start
  | k + 1 => do
    let t ← i.adjustTimes start k
    i.adjust t

/-- The second that lies `k` intervals after `t`, in the supported years or not. -/
def target (i : Interval) (t : Instant) (k : Nat) : Int :=
  match i.unit.seconds? with
  | some seconds => t.second + (k * (i.amount.toNat * seconds) : Nat)
  | none =>
    Calendar.dayNumber (Calendar.monthsLater t.date i.amount.toNat k) * 86400 + t.secondOfDay

/-- `u` lies `k` intervals after `t`: so many seconds later, or on the date so many months later at
the same time of day. -/
def Lands (i : Interval) (t : Instant) (k : Nat) (u : Instant) : Prop :=
  u.nano = t.nano ∧
    match i.unit.seconds? with
    | some seconds => u.second = t.second + (k * (i.amount.toNat * seconds) : Nat)
    | none => u.date = Calendar.monthsLater t.date i.amount.toNat k ∧
        u.secondOfDay = t.secondOfDay

theorem Lands.second (lands : i.Lands t k u) : u.second = i.target t k := by
  obtain ⟨_, place⟩ := lands
  unfold target
  split at place
  next => exact place
  next => rw [u.second_eq, place.1, place.2]

/-- A calm instant is known by its second and its nanosecond. -/
theorem lands_of_second (second : u.second = i.target t k) (nano : u.nano = t.nano) :
    i.Lands t k u := by
  refine ⟨nano, ?_⟩
  unfold target at second
  split
  next seconds length =>
    rw [length] at second
    exact second
  next length =>
    rw [length] at second
    dsimp only at second
    have day := Calendar.ofDayNumber_dayNumber
      (Calendar.isValid_monthsLater t.isValid_date i.amount.toNat k)
    have small := t.secondOfDay_lt
    generalize Calendar.monthsLater t.date i.amount.toNat k = d at second day
    have number : u.dayNumber = Calendar.dayNumber d := by
      unfold Instant.dayNumber
      omega
    refine ⟨by rw [Instant.date, number, day], ?_⟩
    rw [Instant.secondOfDay, second]
    omega

theorem target_zero : i.target t 0 = t.second := by
  unfold target
  split
  next => simp
  next => rw [Calendar.monthsLater_zero t.isValid_date, ← t.second_eq]

private theorem Lands.target_one (lands : i.Lands t k u) : i.target u 1 = i.target t (k + 1) := by
  obtain ⟨_, place⟩ := lands
  unfold target
  split at place
  next seconds _ =>
    rw [place, Nat.one_mul, Nat.succ_mul]
    omega
  next =>
    rw [Calendar.monthsLater_succ, Calendar.monthsLater_succ,
      Calendar.monthsLater_zero u.isValid_date, place.1, place.2]

private theorem target_lt_succ (positive : 1 ≤ i.amount.toNat) :
    i.target t k < i.target t (k + 1) := by
  unfold target
  split
  next seconds length =>
    have long : 1 ≤ seconds := by
      revert length
      cases i.unit <;> rintro ⟨⟩ <;> decide
    have forward : 1 ≤ i.amount.toNat * seconds := Nat.mul_pos positive long
    rw [Nat.succ_mul]
    omega
  next =>
    have later := Calendar.dayNumber_lt_addMonths
      (Calendar.isValid_monthsLater t.isValid_date i.amount.toNat k) positive
    rw [Calendar.monthsLater_succ]
    omega

private theorem target_le (positive : 1 ≤ i.amount.toNat) (le : m ≤ k) :
    i.target t m ≤ i.target t k := by
  induction le with
  | refl => exact Int.le_refl _
  | step _ ih => exact Int.le_trans ih (Int.le_of_lt (target_lt_succ positive))

/-- Targets leave the supported years at their end only, so the ones before a supported one are
supported. -/
theorem supported_of_le (positive : 1 ≤ i.amount.toNat) (le : m ≤ k)
    (supported : Instant.Supported (i.target t k)) : Instant.Supported (i.target t m) := by
  have start := @target_le i t m 0 positive (Nat.zero_le m)
  have below := @target_le i t k m positive le
  rw [target_zero] at start
  have inRange := t.inRange
  unfold Instant.Supported at *
  omega

/-- One interval leads to its target, if that is supported. -/
theorem adjust_calm (positive : 1 ≤ i.amount.toNat) (calm : t.inLeapSecond = false) :
    i.adjust t = match Instant.of? (i.target t 1) t.nano with
      | some u => .ok u
      | none => .error (.outOfRange i.text) := by
  have next : (match i.unit.seconds? with
      | some seconds => t.addSeconds? (seconds * i.amount.toNat : Nat)
      | none => t.addMonths? i.amount.toNat) = Instant.of? (i.target t 1) t.nano := by
    unfold target
    cases i.unit.seconds? with
    | some seconds =>
      dsimp only
      exact (Instant.addSeconds?_calm calm _).trans (by rw [Nat.one_mul, Nat.mul_comm])
    | none =>
      dsimp only
      exact (Instant.addMonths?_calm calm positive).trans
        (by rw [Calendar.monthsLater_succ, Calendar.monthsLater_zero t.isValid_date])
  exact congrArg (fun next : Option Instant => match next with
    | some u => Except.ok u
    | none => Except.error (ScheduleError.outOfRange i.text)) next

theorem Lands.adjust (positive : 1 ≤ i.amount.toNat) (calm : t.inLeapSecond = false)
    (lands : i.Lands t k u) :
    (Instant.Supported (i.target t (k + 1)) ∧ ∃ v, i.adjust u = .ok v ∧ i.Lands t (k + 1) v) ∨
      (¬Instant.Supported (i.target t (k + 1)) ∧ i.adjust u = .error (.outOfRange i.text)) := by
  have still : u.inLeapSecond = false := by
    rw [Instant.inLeapSecond, lands.1]
    exact calm
  rw [adjust_calm positive still, lands.target_one]
  rcases Instant.of?_eq still (i.target t (k + 1)) with
    ⟨supported, v, made, second, nano⟩ | ⟨beyond, none_⟩
  · exact Or.inl ⟨supported, v, by rw [made], lands_of_second second (nano.trans lands.1)⟩
  · exact Or.inr ⟨beyond, by rw [none_]⟩

/-- `k` intervals after a calm instant: the target, or the error of the first step that leaves the
supported years. -/
theorem adjustTimes_cases (positive : 1 ≤ i.amount.toNat) (calm : t.inLeapSecond = false)
    (k : Nat) :
    (Instant.Supported (i.target t k) ∧ ∃ u, i.adjustTimes t k = .ok u ∧ i.Lands t k u) ∨
      (i.adjustTimes t k = .error (.outOfRange i.text) ∧ ∃ m < k, ∃ u,
        i.adjustTimes t m = .ok u ∧ i.adjust u = .error (.outOfRange i.text) ∧
          Instant.Supported (i.target t m) ∧ ¬Instant.Supported (i.target t (m + 1))) := by
  induction k with
  | zero =>
    refine Or.inl ⟨?_, t, rfl, lands_of_second target_zero.symm rfl⟩
    rw [target_zero]
    exact t.inRange
  | succ k ih =>
    rcases ih with ⟨supported, u, there, lands⟩ | ⟨failed, m, earlier, stopped⟩
    · rcases lands.adjust positive calm with ⟨supported', v, moved, lands'⟩ | ⟨beyond, failed⟩
      · exact Or.inl ⟨supported', v, by rw [adjustTimes, there]; exact moved, lands'⟩
      · exact Or.inr ⟨by rw [adjustTimes, there]; exact failed, k, Nat.lt_succ_self k, u, there,
          failed, supported, beyond⟩
    · exact Or.inr ⟨by rw [adjustTimes, failed]; rfl, m, Nat.lt_succ_of_lt earlier, stopped⟩

/-- Intervals one after another in closed form. They succeed exactly when their target lies in the
supported years, and lead there. Else the first step with an unsupported target fails, and its error
is the result. -/
theorem adjustTimes_closed (positive : 1 ≤ i.amount.toNat) (calm : t.inLeapSecond = false)
    (k : Nat) :
    ((∃ u, i.adjustTimes t k = .ok u) ↔ Instant.Supported (i.target t k)) ∧
      (∀ u, i.adjustTimes t k = .ok u → i.Lands t k u) ∧
      (¬Instant.Supported (i.target t k) →
        i.adjustTimes t k = .error (.outOfRange i.text) ∧ ∃ m < k, ∃ u,
          i.adjustTimes t m = .ok u ∧ i.adjust u = .error (.outOfRange i.text) ∧
            (∀ n ≤ m, Instant.Supported (i.target t n)) ∧
            ¬Instant.Supported (i.target t (m + 1))) := by
  rcases adjustTimes_cases positive calm k with
    ⟨supported, u, there, lands⟩ | ⟨failed, m, earlier, u, there, stopped, supported, beyond⟩
  · refine ⟨⟨fun _ => supported, fun _ => ⟨u, there⟩⟩, fun v other => ?_, absurd supported⟩
    cases there.symm.trans other
    exact lands
  · have never : ¬Instant.Supported (i.target t k) := fun supported =>
      beyond (supported_of_le positive earlier supported)
    refine ⟨⟨fun ⟨v, other⟩ => ?_, fun supported => absurd supported never⟩, fun v other => ?_,
      fun _ => ⟨failed, m, earlier, u, there, stopped, fun n le => ?_, beyond⟩⟩
    · cases failed.symm.trans other
    · cases failed.symm.trans other
    · exact supported_of_le positive le supported

/-- After 31 January 2024 the leap day cuts the day down, and March does not give it back. After
22 November 262142 there is one more month. -/
theorem adjustTimes_months :
    (∃ u, (Interval.mk 1 .month).adjustTimes
      ⟨1706659200, 0, by decide, by decide, by decide⟩ 2 = .ok u ∧ u.date = ⟨2024, 3, 29⟩) ∧
    (Interval.mk 1 .month).adjustTimes
      ⟨8210263420800, 0, by decide, by decide, by decide⟩ 3 = .error (.outOfRange "1 month") := by
  constructor
  · obtain ⟨succeeds, lands, _⟩ := adjustTimes_closed (i := ⟨1, .month⟩)
      (t := ⟨1706659200, 0, by decide, by decide, by decide⟩) (by decide) (by decide) 2
    obtain ⟨u, there⟩ := succeeds.mpr (by decide +kernel)
    refine ⟨u, there, (lands u there).2.1.trans ?_⟩
    decide +kernel
  · obtain ⟨_, _, fails⟩ := adjustTimes_closed (i := ⟨1, .month⟩)
      (t := ⟨8210263420800, 0, by decide, by decide, by decide⟩) (by decide) (by decide) 3
    have text : (Interval.mk 1 .month).text = "1 month" := by decide +kernel
    rw [(fails (by decide +kernel)).1, text]

end Interval

end Rota
