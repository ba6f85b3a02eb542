import Rota.Instant.Text
import Rota.Proofs.Blank
import Rota.Proofs.Calendar
import Rota.Proofs.Digits
/-! Instants and their text.
The text of an instant is read as the instant: any year has enough digits, the fraction says all
nanoseconds, and a leap second is the second 60 of its minute. -/
namespace Rota.Instant
open Rota.Text

variable {least most n : Nat} {c : Char} {s rest : List Char} {t u : Instant}

/-! ### The parts of a text -/

private theorem trimStart_digits (some_ : s ≠ []) (all : ∀ c ∈ s, isDigit c = true) :
    trimStart (s ++ rest) = s ++ rest := by
  obtain ⟨c, s, rfl⟩ := List.exists_cons_of_ne_nil some_
  exact trimStart_cons (isBlank_of_isDigit (all c List.mem_cons_self))

/-- A run of digits ends at its limit or in front of what is no digit. -/
theorem takeWhile_take (all : ∀ c ∈ s, isDigit c = true) (fits : s.length ≤ most)
    (stops : s.length = most ∨ ∀ c ∈ rest.head?, isDigit c = false) :
    ((s ++ rest).take most).takeWhile isDigit = s := by
  rw [List.take_append, List.take_of_length_le fits]
  refine takeWhile_isDigit all fun c first => ?_
  rcases stops with full | stops
  · simp [full] at first
  · refine stops c ?_
    cases rest with
    | nil => simp at first
    | cons d rest =>
      cases room : most - s.length with
      | zero => simp [room] at first
      | succ k => simpa [room] using first

theorem takeNumber?_run (some_ : s ≠ []) (all : ∀ c ∈ s, isDigit c = true)
    (enough : least ≤ s.length) (fits : s.length ≤ most)
    (stops : s.length = most ∨ ∀ c ∈ rest.head?, isDigit c = false) :
    takeNumber? least most (s ++ rest) = some (ofDigits s, rest) := by
  unfold takeNumber?
  simp only [takeWhile_take all fits stops, List.drop_left]
  rw [if_pos ⟨enough, some_⟩]

private theorem takeNumber?_two (small : n < 100) :
    takeNumber? 1 2 (trimStart (padded 2 n ++ rest)) = some (n, rest) := by
  have two : (padded 2 n).length = 2 := length_padded (by decide) small
  have all := isDigit_of_mem_padded 2 n
  rw [trimStart_digits (padded_ne_nil 2 n) all, takeNumber?_run (padded_ne_nil 2 n) all
    (by omega) (by omega) (Or.inl two), ofDigits_padded]

private theorem takeChar?_self (visible : isBlank c = false) :
    takeChar? c (trimStart (c :: rest)) = some rest := by
  rw [trimStart_cons visible]
  exact if_pos rfl

private theorem takeYear?_digits (some_ : s ≠ []) (all : ∀ c ∈ s, isDigit c = true) :
    takeYear? (s ++ rest) = (takeNumber? 1 4 (s ++ rest)).map fun (n, s) => ((n : Int), s) := by
  obtain ⟨c, s, rfl⟩ := List.exists_cons_of_ne_nil some_
  have digit := all c List.mem_cons_self
  rw [List.cons_append]
  unfold takeYear?
  split
  next same =>
    cases same
    exact absurd digit (by decide)
  next same =>
    cases same
    exact absurd digit (by decide)
  next => rfl

private theorem takeYear?_text (year : Int) :
    takeYear? (trimStart (yearText year ++ '-' :: rest)) = some (year, '-' :: rest) := by
  have stops : ∀ c ∈ ('-' :: rest).head?, isDigit c = false := by
    rintro c ⟨⟩
    decide
  have signed (n : Nat) : takeNumber? 1 (padded 4 n ++ '-' :: rest).length
      (padded 4 n ++ '-' :: rest) = some (n, '-' :: rest) := by
    have some_ := List.length_pos_iff.mpr (padded_ne_nil 4 n)
    rw [takeNumber?_run (padded_ne_nil 4 n) (isDigit_of_mem_padded 4 n) some_
      (by simp) (Or.inr stops), ofDigits_padded]
  unfold yearText
  split
  next plain =>
    have all := isDigit_of_mem_padded 4 year.toNat
    have four : (padded 4 year.toNat).length = 4 := length_padded (by decide) (by omega)
    rw [trimStart_digits (padded_ne_nil _ _) all, takeYear?_digits (padded_ne_nil _ _) all,
      takeNumber?_run (padded_ne_nil _ _) all (by omega) (by omega) (Or.inl four), ofDigits_padded]
    simp only [Option.map_some]
    congr 2
    omega
  next =>
    split
    next below =>
      rw [List.cons_append, trimStart_cons (by decide), takeYear?]
      simp only [signed, Option.map_some]
      congr 2
      omega
    next above =>
      rw [List.cons_append, trimStart_cons (by decide), takeYear?]
      simp only [signed, Option.map_some]
      congr 2
      omega

/-- All digits behind the point are taken, and the first nine of them are read. -/
theorem takeFraction?_point (s : List Char) : takeFraction? ('.' :: s) =
    if s.takeWhile isDigit = [] then none
    else some (ofDigits ((s.takeWhile isDigit).take 9) *
      Nat.pow 10 (9 - (s.takeWhile isDigit).length), s.dropWhile isDigit) := by
  have run : (s.take 9).takeWhile isDigit = (s.takeWhile isDigit).take 9 :=
    List.take_takeWhile.symm
  have width : 9 - ((s.takeWhile isDigit).take 9).length = 9 - (s.takeWhile isDigit).length := by
    rw [List.length_take]
    omega
  have rest : (s.drop ((s.takeWhile isDigit).take 9).length).dropWhile isDigit =
      s.dropWhile isDigit := by
    have fits : ((s.takeWhile isDigit).take 9).length ≤ (s.takeWhile isDigit).length :=
      List.length_take_le' 9 _
    generalize ((s.takeWhile isDigit).take 9).length = width at fits
    conv_lhs => rw [← List.takeWhile_append_dropWhile (p := isDigit) (l := s)]
    rw [List.drop_append_of_le_length fits, List.dropWhile_append_of_pos fun c member =>
      List.mem_takeWhile_imp (List.mem_of_mem_drop member), List.dropWhile_idempotent]
  rw [takeFraction?]
  simp only [run, width, rest, List.take_eq_nil_iff, show 9 ≠ 0 by decide, false_or]

/-- Three, six or nine decimals are the nanoseconds without the zeros behind them. -/
theorem takeFraction?_decimals {width scale : Nat} (some_ : 0 < width) (most : width ≤ 9)
    (small : n < 10 ^ width) (scaled : 10 ^ (9 - width) = scale) :
    takeFraction? ('.' :: padded width n ++ ['Z']) = some (n * scale, ['Z']) := by
  have length := length_padded some_ small
  have stops : ∀ c ∈ ['Z'].head?, isDigit c = false := by
    rintro c ⟨⟩
    decide
  have all := isDigit_of_mem_padded width n
  rw [List.cons_append, takeFraction?_point, takeWhile_isDigit all stops,
    dropWhile_isDigit all stops, if_neg (padded_ne_nil width n), List.take_of_length_le (by omega),
    ofDigits_padded, length, ← scaled]
  rfl

theorem takeFraction?_text (small : n < 1000000000) :
    takeFraction? (fractionText n ++ ['Z']) = some (n, ['Z']) := by
  unfold fractionText
  split
  next none_ =>
    rw [none_]
    rfl
  next =>
    split
    next =>
      rw [takeFraction?_decimals (by decide) (by decide) (by omega)
        (by decide : 10 ^ (9 - 3) = 1000000)]
      congr 2
      omega
    next =>
      split
      next =>
        rw [takeFraction?_decimals (by decide) (by decide) (by omega)
          (by decide : 10 ^ (9 - 6) = 1000)]
        congr 2
        omega
      next =>
        rw [takeFraction?_decimals (by decide) (by decide) small (by decide : 10 ^ (9 - 9) = 1),
          Nat.mul_one]

/-! ### Reading a whole text -/

/-- The parts make sense: the date exists, and the time of day and the offset are less than a day.
The second 60 is a leap second, which any minute may have. -/
structure Reading.IsValid (r : Reading) : Prop where
  date : Calendar.isValid ⟨r.year, r.month, r.day⟩ = true
  hour : r.hour < 24
  minute : r.minute < 60
  second : r.second ≤ 60
  offset : -86400 < r.offset ∧ r.offset < 86400

/-- The instant is the local time less the offset. A leap second is counted in the nanoseconds of
the second before it. -/
structure Reading.Names (r : Reading) (t : Instant) : Prop where
  second : t.second = Calendar.dayNumber ⟨r.year, r.month, r.day⟩ * 86400 +
    (r.hour * 3600 + r.minute * 60 + min r.second 59 : Nat) - r.offset
  nano : t.nano = if r.second = 60 then r.nano + 1000000000 else r.nano

theorem Reading.Names.unique {r : Reading} (names : r.Names t) (names' : r.Names u) : t = u :=
  eq_of_second_of_nano (names.second.trans names'.second.symm) (names.nano.trans names'.nano.symm)

theorem ofReading?_eq_some_iff {r : Reading} (year : -262143 ≤ r.year ∧ r.year ≤ 262142) :
    ofReading? r = some t ↔ r.IsValid ∧ r.Names t := by
  unfold ofReading?
  constructor
  · intro made
    dsimp only at made
    split at made
    next sense =>
      simp only [Bool.and_eq_true, decide_eq_true_eq] at sense
      obtain ⟨⟨⟨⟨⟨date, _⟩, hour⟩, minute⟩, second⟩, offset⟩ := sense
      obtain ⟨second', nano⟩ := of?_eq_some made
      exact ⟨⟨date, hour, minute, second, offset⟩, second', nano⟩
    next => cases made
  · rintro ⟨valid, names⟩
    dsimp only
    rw [if_pos, ← names.nano, ← names.second]
    · exact of?_self t
    · simp only [Bool.and_eq_true, decide_eq_true_eq]
      exact ⟨⟨⟨⟨⟨valid.date, year⟩, valid.hour⟩, valid.minute⟩, valid.second⟩, valid.offset⟩

def reading (t : Instant) : Reading where
  year := t.date.year
  month := t.date.month
  day := t.date.day
  hour := t.secondOfDay / 3600
  minute := t.secondOfDay / 60 % 60
  second := t.secondOfDay % 60 + if t.inLeapSecond then 1 else 0
  nano := t.nano % 1000000000
  offset := 0

def localReading (t : Instant) (minutes : Int) : Reading :=
  let second := t.second + minutes * 60
  let date := Calendar.ofDayNumber (second / 86400)
  let clock := (second % 86400).toNat
  { year := date.year
    month := date.month
    day := date.day
    hour := clock / 3600
    minute := clock / 60 % 60
    second := clock % 60 + if t.inLeapSecond then 1 else 0
    nano := t.nano % 1000000000
    offset := minutes * 60 }

private theorem localReading_zero (t : Instant) : t.localReading 0 = t.reading := by
  unfold localReading reading secondOfDay date dayNumber
  simp

theorem isValid_localReading {minutes : Int} (t : Instant)
    (within : -1440 < minutes ∧ minutes < 1440) : (t.localReading minutes).IsValid where
  date := (Calendar.ofDayNumber_spec ((t.second + minutes * 60) / 86400)).1
  hour := by
    unfold localReading
    dsimp only
    omega
  minute := Nat.mod_lt _ (by decide)
  second := by
    unfold localReading
    dsimp only
    split <;> omega
  offset := by
    unfold localReading
    dsimp only
    omega

/-- The local time names the instant in each time zone of whole minutes. -/
theorem names_localReading (t : Instant) (minutes : Int) : (t.localReading minutes).Names t := by
  have day : Calendar.dayNumber ⟨(t.localReading minutes).year, (t.localReading minutes).month,
      (t.localReading minutes).day⟩ = (t.second + minutes * 60) / 86400 :=
    (Calendar.ofDayNumber_spec _).2.1
  have ends := t.leap_end
  have small := t.nano_lt
  -- The minutes of an offset leave a leap second the last of its minute.
  by_cases leap : 1000000000 ≤ t.nano
  · have last := ends leap
    have sixty : (t.localReading minutes).second = 60 := by
      simp only [localReading, inLeapSecond, leap, decide_true, if_true]
      omega
    refine ⟨?_, ?_⟩
    · rw [day, sixty]
      simp only [localReading]
      omega
    · rw [if_pos sixty]
      simp only [localReading]
      omega
  · have plain : (t.localReading minutes).second =
        ((t.second + minutes * 60) % 86400).toNat % 60 := by
      simp [localReading, inLeapSecond, leap]
    refine ⟨?_, ?_⟩
    · rw [day, plain]
      simp only [localReading]
      omega
    · rw [if_neg (by omega)]
      simp only [localReading]
      omega

private theorem year_date (t : Instant) : -262143 ≤ t.date.year ∧ t.date.year ≤ 262142 := by
  have inRange := t.inRange
  refine Calendar.year_ofDayNumber ?_ ?_ <;> unfold dayNumber <;> omega

private theorem ofReading?_reading (t : Instant) : ofReading? t.reading = some t := by
  rw [← localReading_zero]
  exact (ofReading?_eq_some_iff (localReading_zero t ▸ year_date t)).mpr
    ⟨isValid_localReading t (by decide), names_localReading t 0⟩

theorem ofLenient?_chars (t : Instant) : ofLenient? t.chars = some t := by
  have valid := isValid_date t
  have small := secondOfDay_lt t
  have date : t.date.month < 100 ∧ t.date.day < 100 := by
    have days := Calendar.monthLength_le t.date.year t.date.month
    simp only [Calendar.isValid, Bool.and_eq_true, decide_eq_true_eq] at valid
    omega
  have hour : t.secondOfDay / 3600 < 100 := by omega
  have minute : t.secondOfDay / 60 % 60 < 100 := by omega
  have second : t.secondOfDay % 60 + (if t.inLeapSecond then 1 else 0) < 100 := by
    split <;> omega
  have fraction : t.nano % 1000000000 < 1000000000 := Nat.mod_lt _ (by decide)
  unfold ofLenient? chars
  have dash (rest : List Char) : takeChar? '-' (trimStart ('-' :: rest)) = some rest :=
    takeChar?_self (by decide)
  have colon (rest : List Char) : takeChar? ':' (trimStart (':' :: rest)) = some rest :=
    takeChar?_self (by decide)
  have separator (rest : List Char) : takeSeparator? ('T' :: rest) = some rest := rfl
  have zone : takeZone? (trimStart ['Z']) = some (0, []) := by decide
  simp only [List.append_assoc, List.cons_append, takeYear?_text, Option.bind_eq_bind,
    Option.bind_some]
  simp only [dash, colon, separator, takeNumber?_two date.1, takeNumber?_two date.2,
    takeNumber?_two hour, takeNumber?_two minute, takeNumber?_two second,
    takeFraction?_text fraction, zone, Option.bind_some]
  exact ofReading?_reading t

end Rota.Instant
