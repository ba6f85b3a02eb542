import Rota.Proofs.InstantText
import Rota.Proofs.Iterated
/-! Timestamps in the standard's form.
A timestamp is a date, a time of day and an offset, all of fixed width. Reading takes exactly the
texts of this form whose parts make sense, and an instant that is written with any offset is read
from the text. -/
namespace Rota.Instant
open Rota.Text

variable {n width : Nat} {s rest : List Char} {c : Char} {offset : Int} {t u : Instant}

/-! ### The form -/

structure Field (width n : Nat) (s : List Char) : Prop where
  length : s.length = width
  digits : ∀ c ∈ s, isDigit c = true
  value : ofDigits s = n

/-- A decimal point and digits, of which nine count, or nothing. -/
inductive Fraction : List Char → Nat → Prop
  | whole : Fraction [] 0
  | decimals {digits : List Char} (some_ : digits ≠ []) (all : ∀ c ∈ digits, isDigit c = true) :
      Fraction ('.' :: digits) (ofDigits (digits.take 9) * Nat.pow 10 (9 - digits.length))

inductive Zone : List Char → Int → Prop
  | utc {c : Char} (letter : c = 'Z' ∨ c = 'z') : Zone [c] 0
  | ahead {hours minutes : List Char} {h m : Nat} (hour : Field 2 h hours)
      (minute : Field 2 m minutes) (small : m < 60) :
      Zone ('+' :: hours ++ ':' :: minutes) (h * 3600 + m * 60 : Nat)
  | behind {sign : Char} {hours minutes : List Char} {h m : Nat}
      (minus : sign = '-' ∨ sign.toNat = 8722) (hour : Field 2 h hours)
      (minute : Field 2 m minutes) (small : m < 60) :
      Zone (sign :: hours ++ ':' :: minutes) (-(h * 3600 + m * 60 : Nat))

/-- The text is a timestamp with these parts, whether they make sense or not. -/
inductive Writes : List Char → Reading → Prop
  | parts {year month day hour minute second fraction zone : List Char} {separator : Char}
      {y mo d h mi sec nano : Nat} {offset : Int} (isYear : Field 4 y year)
      (isMonth : Field 2 mo month) (isDay : Field 2 d day)
      (separates : isDateTimeSeparator separator = true) (isHour : Field 2 h hour)
      (isMinute : Field 2 mi minute) (isSecond : Field 2 sec second)
      (isFraction : Fraction fraction nano) (isZone : Zone zone offset) :
      Writes (year ++ '-' :: month ++ '-' :: day ++ separator :: hour ++ ':' :: minute ++
        ':' :: second ++ fraction ++ zone) ⟨y, mo, d, h, mi, sec, nano, offset⟩

/-! ### Its parts -/

private theorem takeNumber?_eq_some_iff (positive : 0 < width) :
    takeNumber? width width s = some (n, rest) ↔
      ∃ digits, s = digits ++ rest ∧ Field width n digits := by
  constructor
  · intro taken
    unfold takeNumber? at taken
    dsimp only at taken
    split at taken
    next enough =>
      cases taken
      have short : (s.take width).takeWhile isDigit <+: s.take width := List.takeWhile_prefix _
      have fits := short.length_le
      have most := List.length_take_le width s
      have whole : (s.take width).takeWhile isDigit = s.take width := short.eq_of_length (by omega)
      have length : (s.take width).length = width := by omega
      refine ⟨_, ?_, ⟨by omega, fun c => List.mem_takeWhile_imp, rfl⟩⟩
      rw [whole, length, List.take_append_drop]
    next => cases taken
  · rintro ⟨digits, rfl, length, all, rfl⟩
    exact takeNumber?_run (List.ne_nil_of_length_pos (by omega)) all (by omega) (by omega)
      (Or.inl length)

private theorem takeChar?_eq_some_iff : takeChar? c s = some rest ↔ s = c :: rest := by
  cases s with
  | nil => simp [takeChar?]
  | cons d s =>
    unfold takeChar?
    split <;> simp_all [eq_comm]

private theorem takeSeparator?_eq_some_iff :
    takeSeparator? s = some rest ↔ ∃ c, isDateTimeSeparator c = true ∧ s = c :: rest := by
  cases s with
  | nil => simp [takeSeparator?]
  | cons d s =>
    rw [takeSeparator?]
    split
    next separates =>
      constructor
      · rintro ⟨⟩
        exact ⟨d, separates, rfl⟩
      · rintro ⟨_, _, same⟩
        cases same
        rfl
    next other =>
      constructor
      · rintro ⟨⟩
      · rintro ⟨_, separates, same⟩
        cases same
        exact absurd separates other

private theorem takeTwoDigits?_eq_some_iff :
    takeTwoDigits? s = some (n, rest) ↔ ∃ digits, s = digits ++ rest ∧ Field 2 n digits := by
  constructor
  · intro taken
    unfold takeTwoDigits? at taken
    split at taken
    next a b rest' =>
      split at taken
      next both =>
        cases taken
        refine ⟨[a, b], rfl, rfl, by simpa using both, ?_⟩
        simp [ofDigits_eq]
      next => cases taken
    next => cases taken
  · rintro ⟨digits, rfl, length, all, rfl⟩
    obtain ⟨a, b, rfl⟩ := List.length_eq_two.mp length
    simp_all [takeTwoDigits?, ofDigits_eq]

private theorem fraction_of_takeFraction? (taken : takeFraction? s = some (n, rest)) :
    ∃ fraction, s = fraction ++ rest ∧ Fraction fraction n := by
  by_cases point : ∃ behind, s = '.' :: behind
  · obtain ⟨behind, rfl⟩ := point
    rw [takeFraction?_point] at taken
    split at taken
    next => cases taken
    next some_ =>
      cases taken
      refine ⟨'.' :: behind.takeWhile isDigit, ?_, .decimals some_ fun c => List.mem_takeWhile_imp⟩
      rw [List.cons_append, List.takeWhile_append_dropWhile]
  · unfold takeFraction? at taken
    split at taken
    next behind => exact absurd ⟨behind, rfl⟩ point
    next =>
      cases taken
      exact ⟨[], rfl, .whole⟩

private theorem takeFraction?_of_fraction {fraction : List Char} (is : Fraction fraction n)
    (stops : ∀ c ∈ rest.head?, isDigit c = false ∧ c ≠ '.') :
    takeFraction? (fraction ++ rest) = some (n, rest) := by
  cases is with
  | whole =>
    rw [List.nil_append]
    unfold takeFraction?
    split
    next => exact absurd rfl (stops '.' rfl).2
    next => rfl
  | decimals some_ all =>
    have ends : ∀ c ∈ rest.head?, isDigit c = false := fun c first => (stops c first).1
    rw [List.cons_append, takeFraction?_point, takeWhile_isDigit all ends,
      dropWhile_isDigit all ends, if_neg some_]

private theorem takeSign?_eq_some_iff {sign : Int} : takeSign? s = some (sign, rest) ↔
    ∃ c, s = c :: rest ∧ (c = '+' ∧ sign = 1 ∨ (c = '-' ∨ c.toNat = 8722) ∧ sign = -1) := by
  cases s with
  | nil => simp [takeSign?]
  | cons d s =>
    rw [takeSign?]
    constructor
    · intro taken
      split at taken
      next plus =>
        cases taken
        exact ⟨d, rfl, Or.inl ⟨plus, rfl⟩⟩
      next =>
        split at taken
        next minus =>
          cases taken
          exact ⟨d, rfl, Or.inr ⟨by simpa using minus, rfl⟩⟩
        next => cases taken
    · rintro ⟨c, ⟨⟩, ⟨rfl, rfl⟩ | ⟨minus, rfl⟩⟩
      · rfl
      · rw [if_neg, if_pos (by simpa using minus)]
        rintro rfl
        exact absurd minus (by decide)

/-- Hours and minutes behind the sign. -/
theorem takeOffset?_signed (letter : ∀ c ∈ s.head?, c ≠ 'Z' ∧ c ≠ 'z') :
    takeOffset? (takeChar? ':') s = (do
      let (sign, s) ← takeSign? s
      let (hours, s) ← takeTwoDigits? s
      let s ← takeChar? ':' s
      let (minutes, s) ← takeTwoDigits? s
      if minutes < 60 then some (sign * (hours * 3600 + minutes * 60 : Nat), s) else none) := by
  unfold takeOffset?
  split
  next => exact absurd rfl (letter 'Z' rfl).1
  next => exact absurd rfl (letter 'z' rfl).2
  next => rfl

private theorem zone_of_takeOffset? (taken : takeOffset? (takeChar? ':') s = some (offset, rest)) :
    ∃ zone, s = zone ++ rest ∧ Zone zone offset := by
  by_cases letter : ∃ c behind, (c = 'Z' ∨ c = 'z') ∧ s = c :: behind
  · obtain ⟨c, behind, rfl | rfl, rfl⟩ := letter
    all_goals
      cases taken
      exact ⟨[_], rfl, .utc (by decide)⟩
  · rw [takeOffset?_signed fun c first => ?_] at taken
    swap
    · cases s with
      | nil => cases first
      | cons d behind =>
        cases first
        exact ⟨fun upper => letter ⟨_, _, Or.inl upper, rfl⟩,
          fun lower => letter ⟨_, _, Or.inr lower, rfl⟩⟩
    simp only [Option.bind_eq_bind, Option.bind_eq_some_iff, Prod.exists, takeSign?_eq_some_iff,
      takeTwoDigits?_eq_some_iff, takeChar?_eq_some_iff] at taken
    obtain ⟨sign, _, ⟨c, rfl, which⟩, h, _, ⟨hours, rfl, hour⟩, _, rfl, m, _,
      ⟨minutes, rfl, minute⟩, made⟩ := taken
    split at made
    next small =>
      cases made
      rcases which with ⟨rfl, rfl⟩ | ⟨minus, rfl⟩
      · exact ⟨'+' :: hours ++ ':' :: minutes, by simp, Int.one_mul _ ▸ .ahead hour minute small⟩
      · refine ⟨c :: hours ++ ':' :: minutes, by simp, ?_⟩
        rw [Int.neg_mul, Int.one_mul]
        exact .behind minus hour minute small
    next => cases made

private theorem takeOffset?_of_zone {zone : List Char} (is : Zone zone offset) :
    takeOffset? (takeChar? ':') (zone ++ rest) = some (offset, rest) := by
  have signed {c : Char} {sign : Int} {hours minutes : List Char} {h m : Nat}
      (letter : c ≠ 'Z' ∧ c ≠ 'z')
      (which : c = '+' ∧ sign = 1 ∨ (c = '-' ∨ c.toNat = 8722) ∧ sign = -1)
      (hour : Field 2 h hours) (minute : Field 2 m minutes) (small : m < 60) :
      takeOffset? (takeChar? ':') (c :: hours ++ ':' :: minutes ++ rest) =
        some (sign * (h * 3600 + m * 60 : Nat), rest) := by
    rw [takeOffset?_signed (by simpa using letter)]
    simp only [Option.bind_eq_bind, Option.bind_eq_some_iff, Prod.exists, takeSign?_eq_some_iff,
      takeTwoDigits?_eq_some_iff, takeChar?_eq_some_iff]
    exact ⟨sign, _, ⟨c, by simp, which⟩, h, _, ⟨hours, rfl, hour⟩, _, rfl, m, _,
      ⟨minutes, rfl, minute⟩, if_pos small⟩
  cases is with
  | utc letter => rcases letter with rfl | rfl <;> rfl
  | ahead hour minute small =>
    rw [signed (by decide) (Or.inl ⟨rfl, rfl⟩) hour minute small, Int.one_mul]
  | @behind sign _ _ _ _ minus hour minute small =>
    rw [signed ?_ (Or.inr ⟨minus, rfl⟩) hour minute small, Int.neg_mul, Int.one_mul]
    constructor
    all_goals
      rintro rfl
      exact absurd minus (by decide)

/-! ### A whole text -/

theorem Zone.stops {zone : List Char} (is : Zone zone offset) :
    ∀ c ∈ zone.head?, isDigit c = false ∧ c ≠ '.' := by
  rintro c first
  cases is with
  | utc letter =>
    cases first
    rcases letter with rfl | rfl <;> decide
  | ahead =>
    cases first
    decide
  | behind minus =>
    cases first
    rcases minus with rfl | minus
    · decide
    · constructor
      · exact Bool.eq_false_iff.mpr fun digit => by simpa [minus] using isDigit_iff.mp digit
      · rintro rfl
        exact absurd minus (by decide)

/-- Reading takes exactly the texts of the form that say an instant. -/
theorem ofStrict?_eq_some_iff :
    ofStrict? s = some t ↔ ∃ r, Writes s r ∧ ofReading? r = some t := by
  constructor
  · intro read
    unfold ofStrict? at read
    simp only [Option.bind_eq_bind, Option.bind_eq_some_iff, Prod.exists,
      takeNumber?_eq_some_iff (show 0 < 4 by decide),
      takeNumber?_eq_some_iff (show 0 < 2 by decide), takeChar?_eq_some_iff,
      takeSeparator?_eq_some_iff] at read
    obtain ⟨y, _, ⟨year, rfl, isYear⟩, _, rfl, mo, _, ⟨month, rfl, isMonth⟩, _, rfl, d, _,
      ⟨day, rfl, isDay⟩, _, ⟨separator, separates, rfl⟩, h, _, ⟨hour, rfl, isHour⟩, _, rfl, mi, _,
      ⟨minute, rfl, isMinute⟩, _, rfl, sec, _, ⟨second, rfl, isSecond⟩, nano, _, fraction?, offset,
      _, zone?, made⟩ := read
    obtain ⟨fraction, rfl, isFraction⟩ := fraction_of_takeFraction? fraction?
    obtain ⟨zone, rfl, isZone⟩ := zone_of_takeOffset? zone?
    split at made
    next none_ =>
      rw [List.isEmpty_iff.mp none_]
      refine ⟨_, ?_, made⟩
      simpa using Writes.parts isYear isMonth isDay separates isHour isMinute isSecond isFraction
        isZone
    next => cases made
  · rintro ⟨r, writes, made⟩
    cases writes with
    | @parts year month day hour minute second fraction zone separator y mo d h mi sec nano offset
      isYear isMonth isDay separates isHour isMinute isSecond isFraction isZone =>
      have atFraction : takeFraction? (fraction ++ zone) = some (nano, zone) :=
        takeFraction?_of_fraction isFraction isZone.stops
      have atZone : takeOffset? (takeChar? ':') (zone ++ []) = some (offset, []) :=
        takeOffset?_of_zone isZone
      rw [List.append_nil] at atZone
      unfold ofStrict?
      simp only [List.append_assoc, List.cons_append, Option.bind_eq_bind,
        Option.bind_eq_some_iff, Prod.exists, takeNumber?_eq_some_iff (show 0 < 4 by decide),
        takeNumber?_eq_some_iff (show 0 < 2 by decide),
        takeChar?_eq_some_iff, takeSeparator?_eq_some_iff]
      exact ⟨y, _, ⟨year, rfl, isYear⟩, _, rfl, mo, _, ⟨month, rfl, isMonth⟩, _, rfl, d, _,
        ⟨day, rfl, isDay⟩, _, ⟨separator, separates, rfl⟩, h, _, ⟨hour, rfl, isHour⟩, _, rfl, mi, _,
        ⟨minute, rfl, isMinute⟩, _, rfl, sec, _, ⟨second, rfl, isSecond⟩, nano, _, atFraction,
        offset, [], atZone, made⟩

/-! ### The instant that is named -/

def Timestamp (s : List Char) (t : Instant) : Prop :=
  ∃ r, Writes s r ∧ r.IsValid ∧ r.Names t

theorem Field.lt (is : Field width n s) : n < 10 ^ width := by
  obtain ⟨rfl, all, rfl⟩ := is
  exact ofDigits_lt all

theorem Fraction.lt (is : Fraction s n) : n < 1000000000 := by
  cases is with
  | whole => decide
  | @decimals digits some_ all =>
    have value : ofDigits (digits.take 9) < 10 ^ (digits.take 9).length :=
      ofDigits_lt fun c member => all c (List.mem_of_mem_take member)
    have width : (digits.take 9).length + (9 - digits.length) = 9 := by
      rw [List.length_take]
      omega
    calc ofDigits (digits.take 9) * 10 ^ (9 - digits.length)
        < 10 ^ (digits.take 9).length * 10 ^ (9 - digits.length) :=
          Nat.mul_lt_mul_of_pos_right value (Nat.pow_pos (by decide))
      _ = 1000000000 := by rw [← Nat.pow_add, width]

theorem Zone.minutes (is : Zone s offset) : offset % 60 = 0 := by
  cases is <;> omega

/-- Four digits are enough for the year, nine for the nanoseconds, and an offset is in minutes. -/
theorem Writes.small {r : Reading} (writes : Writes s r) :
    (0 ≤ r.year ∧ r.year ≤ 9999) ∧ r.nano < 1000000000 ∧ r.offset % 60 = 0 := by
  cases writes with
  | parts isYear _ _ _ _ _ _ isFraction isZone =>
    have year := isYear.lt
    dsimp only
    exact ⟨by omega, isFraction.lt, isZone.minutes⟩

private theorem dayNumber_bounds {d : Date} (valid : Calendar.isValid d = true)
    (year : 0 ≤ d.year ∧ d.year ≤ 9999) :
    -719528 ≤ Calendar.dayNumber d ∧ Calendar.dayNumber d ≤ 2932896 := by
  obtain ⟨day, first, fits⟩ := Calendar.dayNumber_eq valid
  simp only [Calendar.isValid, Bool.and_eq_true, decide_eq_true_eq] at valid
  have months : 0 ≤ Calendar.monthIndex d ∧ Calendar.monthIndex d < 120000 := by
    unfold Calendar.monthIndex
    omega
  have before := Calendar.daysBefore_le months.1
  have behind := Calendar.daysBefore_add_lengthAt_le months.2
  have ends : Calendar.daysBefore 0 = -366 ∧ Calendar.daysBefore 120000 = 3652059 := by decide
  unfold Calendar.epochDay at day
  omega

/-- Every timestamp that makes sense names an instant. -/
theorem exists_names {r : Reading} (writes : Writes s r) (valid : r.IsValid) :
    ∃ t, r.Names t := by
  obtain ⟨year, nano, minutes⟩ := writes.small
  obtain ⟨early, late⟩ := dayNumber_bounds valid.date year
  obtain ⟨_, hour, minute, second, offset⟩ := valid
  have inRange : (of? (Calendar.dayNumber ⟨r.year, r.month, r.day⟩ * 86400 +
      (r.hour * 3600 + r.minute * 60 + min r.second 59 : Nat) - r.offset)
      (if r.second = 60 then r.nano + 1000000000 else r.nano)).isSome = true := by
    refine isSome_of?_iff.mpr ⟨by omega, ?_, ?_⟩ <;> split <;> omega
  obtain ⟨t, made⟩ := Option.isSome_iff_exists.mp inRange
  obtain ⟨second', nano'⟩ := of?_eq_some made
  exact ⟨t, second', nano'⟩

theorem ofStrict?_eq_some_iff_timestamp : ofStrict? s = some t ↔ Timestamp s t := by
  rw [ofStrict?_eq_some_iff]
  exact exists_congr fun r => and_congr_right fun writes =>
    ofReading?_eq_some_iff (by have year := writes.small.1; omega)

/-! ### Writing in any time zone -/

def zoneText (offset : Int) : List Char :=
  (if offset < 0 then '-' else '+') :: padded 2 (offset.natAbs / 3600) ++
    ':' :: padded 2 (offset.natAbs / 60 % 60)

def Reading.dateTime (r : Reading) : List Char :=
  yearText r.year ++ '-' :: padded 2 r.month ++ '-' :: padded 2 r.day ++
    'T' :: padded 2 r.hour ++ ':' :: padded 2 r.minute ++ ':' :: padded 2 r.second ++
    fractionText r.nano

/-- The text of the instant with an offset of `minutes`. -/
def localChars (t : Instant) (minutes : Int) : List Char :=
  (t.localReading minutes).dateTime ++ zoneText (minutes * 60)

private theorem field_padded (positive : 0 < width) (small : n < 10 ^ width) :
    Field width n (padded width n) :=
  ⟨length_padded positive small, isDigit_of_mem_padded width n, ofDigits_padded width n⟩

private theorem fraction_fractionText (small : n < 1000000000) : Fraction (fractionText n) n := by
  obtain ⟨fraction, split, is⟩ := fraction_of_takeFraction? (takeFraction?_text small)
  rwa [List.append_cancel_right split]

theorem zone_zoneText (whole : offset % 60 = 0) (within : -86400 < offset ∧ offset < 86400) :
    Zone (zoneText offset) offset := by
  have hour : Field 2 (offset.natAbs / 3600) (padded 2 (offset.natAbs / 3600)) :=
    field_padded (by decide) (by omega)
  have minute : Field 2 (offset.natAbs / 60 % 60) (padded 2 (offset.natAbs / 60 % 60)) :=
    field_padded (by decide) (by omega)
  unfold zoneText
  split
  next negative =>
    have is := Zone.behind (Or.inl rfl : '-' = '-' ∨ _) hour minute (by omega)
    rwa [show -((offset.natAbs / 3600 * 3600 + offset.natAbs / 60 % 60 * 60 : Nat) : Int) = offset
      by omega] at is
  next =>
    have is := Zone.ahead hour minute (by omega)
    rwa [show ((offset.natAbs / 3600 * 3600 + offset.natAbs / 60 % 60 * 60 : Nat) : Int) = offset
      by omega] at is

theorem writes_dateTime {r : Reading} {zone : List Char} (valid : r.IsValid)
    (year : 0 ≤ r.year ∧ r.year ≤ 9999) (nano : r.nano < 1000000000)
    (isZone : Zone zone r.offset) : Writes (r.dateTime ++ zone) r := by
  obtain ⟨date, hour, minute, second, _⟩ := valid
  have days := Calendar.monthLength_le r.year r.month
  simp only [Calendar.isValid, Bool.and_eq_true, decide_eq_true_eq] at date
  have two {n : Nat} (small : n < 100) : Field 2 n (padded 2 n) := field_padded (by decide) small
  have isYear : Field 4 r.year.toNat (yearText r.year) := by
    rw [yearText, if_pos year]
    exact field_padded (by decide) (by omega)
  have separates : isDateTimeSeparator 'T' = true := rfl
  have writes := Writes.parts isYear (two (n := r.month) (by omega)) (two (n := r.day) (by omega))
    separates (two (n := r.hour) (by omega)) (two (n := r.minute) (by omega))
    (two (n := r.second) (by omega)) (fraction_fractionText nano) isZone
  rwa [Int.toNat_of_nonneg year.1] at writes

end Rota.Instant
