import Rota.Proofs.Expression
import Rota.Proofs.Timestamp
/-! Run times.
A run time is blank, a timestamp or an interval from now. No text is both a timestamp and an
interval expression, so that which of them is tried first makes no difference. -/
namespace Rota
open Rota.Text

variable {s : List Char} {e : String} {now t : Instant} {i : Interval} {r : Instant.Reading}
  {x : Except ScheduleError (Option Instant)}

/-! ### Timestamps and intervals -/

private theorem Instant.Zone.ne_nil {zone : List Char} {offset : Int} (is : Zone zone offset) :
    zone ≠ [] := by
  cases is <;> simp

private theorem Instant.Zone.visible_last {zone : List Char} {offset : Int}
    (is : Zone zone offset) :
    ∀ c ∈ zone.getLast?, isBlank c = false := by
  have digits {front minutes : List Char} {m : Nat} (minute : Field 2 m minutes) :
      ∀ c ∈ (front ++ ':' :: minutes).getLast?, isBlank c = false := by
    intro c last
    have some_ := List.ne_nil_of_length_pos (minute.length ▸ (by decide : 0 < 2))
    rw [List.getLast?_append_of_ne_nil _ (List.cons_ne_nil _ _), List.getLast?_cons_of_ne_nil some_]
      at last
    exact isBlank_of_isDigit (minute.digits c (List.mem_of_getLast? last))
  cases is with
  | utc letter =>
    rintro c ⟨⟩
    rcases letter with rfl | rfl <;> decide
  | ahead _ minute => exact digits minute
  | behind _ _ minute => exact digits minute

private theorem Instant.Writes.dash_mem (writes : Writes s r) : '-' ∈ s := by
  cases writes
  simp

private theorem Interval.Expresses.dash_not_mem (expresses : Expresses s i) : '-' ∉ s := by
  cases expresses with
  | parts blankFront _ digits _ _ blankGap alias_ blankBack =>
    have letters : ∀ unit ∈ IntervalUnit.all, ∀ s ∈ unit.aliases, '-' ∉ s.toList := by decide
    have word := letters _ (IntervalUnit.mem_all _) _ alias_
    rw [String.toList_ofList] at word
    simp only [List.mem_append, not_or]
    refine ⟨⟨⟨⟨fun member => ?_, fun member => ?_⟩, fun member => ?_⟩, fun member => ?_⟩,
      fun member => ?_⟩
    · exact absurd (blankFront _ member) (by decide)
    · exact absurd (digits _ member) (by decide)
    · exact absurd (blankGap _ member) (by decide)
    · exact word (List.mem_map_of_mem (f := Char.toLower) member)
    · exact absurd (blankBack _ member) (by decide)

private theorem Instant.Writes.not_expresses (writes : Writes s r) : ¬Interval.Expresses s i :=
  fun expresses => expresses.dash_not_mem writes.dash_mem

/-- A timestamp begins with a digit and ends with a digit or a letter. -/
theorem Instant.Writes.trim_eq (writes : Writes s r) : trim s = s := by
  cases writes with
  | parts isYear _ _ _ _ _ _ _ isZone =>
    refine trim_eq_self (fun c first => ?_) fun c last => ?_
    · have some_ := List.ne_nil_of_length_pos (isYear.length ▸ (by decide : 0 < 4))
      simp only [List.append_assoc, List.cons_append] at first
      rw [List.head?_append_of_ne_nil _ some_] at first
      exact isBlank_of_isDigit (isYear.digits c (List.mem_of_head? first))
    · rw [List.getLast?_append_of_ne_nil _ isZone.ne_nil] at last
      exact isZone.visible_last c last

/-! ### Run times -/

/-- What a run time expression names: nothing when it is blank, the instant of a timestamp, the
target of an interval, which has to be in range. Any other expression is cited in an error. -/
inductive RunAt (e : String) (now : Instant) : Except ScheduleError (Option Instant) → Prop
  | blank (blank : ∀ c ∈ e.toList, isBlank c = true) : RunAt e now (.ok none)
  | timestamp {t : Instant} (is : Instant.Timestamp (trim e.toList) t) : RunAt e now (.ok (some t))
  | interval {i : Interval} {t : Instant} (is : Interval.Expresses (trim e.toList) i)
      (moved : i.adjust now = .ok t) : RunAt e now (.ok (some t))
  | outOfRange {i : Interval} (is : Interval.Expresses (trim e.toList) i)
      (failed : i.adjust now = .error (.outOfRange i.text)) :
      RunAt e now (.error (.outOfRange i.text))
  | invalid (visible : ∃ c ∈ e.toList, isBlank c = false)
      (noTimestamp : ∀ r, Instant.Writes (trim e.toList) r → ¬r.IsValid)
      (noInterval : ∀ i, ¬Interval.Expresses (trim e.toList) i) :
      RunAt e now (.error (.invalidRunAt e))

/-- The instant that a run time expression names, with intervals tried before timestamps. -/
def parseIntervalFirst (expression : String) (now : Instant) :
    Except ScheduleError (Option Instant) :=
  let trimmed := trim expression.toList
  if trimmed = [] then .ok none
  else
    match Interval.read? trimmed with
    | some interval => (interval.adjust now).map some
    | none =>
      match Instant.ofStrict? trimmed with
      | some t => .ok (some t)
      | none => .error (.invalidRunAt expression)

def ScheduleError.citing (expression : String) : ScheduleError → ScheduleError
  | invalidRunAt _ => invalidRunAt expression
  | other => other

private theorem parseRunAt_eq_parseIntervalFirst (e : String) (now : Instant) :
    parseRunAt e now = parseIntervalFirst e now := by
  unfold parseRunAt parseIntervalFirst
  dsimp only
  cases timestamp : Instant.ofStrict? (trim e.toList) with
  | none => rfl
  | some t =>
    obtain ⟨r, writes, _⟩ := Instant.ofStrict?_eq_some_iff.mp timestamp
    have none_ : Interval.read? (trim e.toList) = none := Option.eq_none_iff_forall_ne_some.mpr
      fun i read => writes.not_expresses (Interval.read?_eq_some_iff.mp read)
    rw [none_]

private theorem adjust_cases (i : Interval) (now : Instant) :
    (∃ t, i.adjust now = .ok t) ∨ i.adjust now = .error (.outOfRange i.text) := by
  unfold Interval.adjust
  dsimp only
  split
  · exact Or.inl ⟨_, rfl⟩
  · exact Or.inr rfl

private theorem runAt_parseRunAt (e : String) (now : Instant) : RunAt e now (parseRunAt e now) := by
  unfold parseRunAt
  dsimp only
  split
  next none_ => exact .blank (trim_eq_nil_iff.mp none_)
  next some_ =>
    rw [trim_eq_nil_iff] at some_
    push Not at some_
    split
    next t read => exact .timestamp (Instant.ofStrict?_eq_some_iff_timestamp.mp read)
    next noTimestamp =>
      split
      next i read =>
        have is := Interval.read?_eq_some_iff.mp read
        rcases adjust_cases i now with ⟨t, moved⟩ | failed
        · rw [moved]
          exact .interval is moved
        · rw [failed]
          exact .outOfRange is failed
      next noInterval =>
        refine .invalid (by simpa using some_) (fun r writes valid => ?_) fun i is => ?_
        · obtain ⟨t, names⟩ := Instant.exists_names writes valid
          rw [Instant.ofStrict?_eq_some_iff_timestamp.mpr ⟨r, writes, valid, names⟩] at noTimestamp
          cases noTimestamp
        · rw [Interval.read?_eq_some_iff.mpr is] at noInterval
          cases noInterval

theorem parseRunAt_of_blank (blank : ∀ c ∈ e.toList, isBlank c = true) :
    parseRunAt e now = .ok none := if_pos (trim_eq_nil_iff.mpr blank)

private theorem parseRunAt_of_timestamp (is : Instant.Timestamp (trim e.toList) t) :
    parseRunAt e now = .ok (some t) := by
  have read := Instant.ofStrict?_eq_some_iff_timestamp.mpr is
  obtain ⟨r, writes, _⟩ := is
  unfold parseRunAt
  dsimp only
  rw [if_neg (List.ne_nil_of_mem writes.dash_mem), read]

private theorem parseRunAt_of_expresses (is : Interval.Expresses (trim e.toList) i) :
    parseRunAt e now = (i.adjust now).map some := by
  have read := Interval.read?_eq_some_iff.mpr is
  have some_ : trim e.toList ≠ [] := fun none_ => by
    rw [none_] at read
    cases read
  rw [parseRunAt_eq_parseIntervalFirst]
  unfold parseIntervalFirst
  dsimp only
  rw [if_neg some_, read]

theorem parseRunAt_eq_iff : parseRunAt e now = x ↔ RunAt e now x := by
  constructor
  · rintro rfl
    exact runAt_parseRunAt e now
  · intro runAt
    cases runAt with
    | blank blank => exact parseRunAt_of_blank blank
    | timestamp is => exact parseRunAt_of_timestamp is
    | interval is moved =>
      rw [parseRunAt_of_expresses is, moved]
      rfl
    | outOfRange is failed =>
      rw [parseRunAt_of_expresses is, failed]
      rfl
    | invalid visible noTimestamp noInterval =>
      -- Each other outcome needs a blank text, a timestamp or an interval.
      generalize result : parseRunAt e now = x
      have runAt := result ▸ runAt_parseRunAt e now
      cases runAt with
      | blank blank =>
        obtain ⟨c, member, visible⟩ := visible
        rw [blank c member] at visible
        cases visible
      | timestamp is =>
        obtain ⟨r, writes, valid, _⟩ := is
        exact absurd valid (noTimestamp r writes)
      | interval is => exact absurd is (noInterval _)
      | outOfRange is => exact absurd is (noInterval _)
      | invalid => rfl

/-- Blanks around an expression only occur in the error that cites it. -/
theorem parseRunAt_append {front back : List Char} (blankFront : ∀ c ∈ front, isBlank c = true)
    (blankBack : ∀ c ∈ back, isBlank c = true) (e : String) (now : Instant) :
    parseRunAt (String.ofList (front ++ e.toList ++ back)) now =
      (parseRunAt e now).mapError
        (·.citing (String.ofList (front ++ e.toList ++ back))) := by
  generalize cited : String.ofList (front ++ e.toList ++ back) = wide
  have same : trim wide.toList = trim e.toList := by
    rw [← cited, String.toList_ofList, trim_append blankFront blankBack]
  unfold parseRunAt
  dsimp only
  rw [same]
  split
  next => rfl
  next =>
    split
    next => rfl
    next =>
      split
      next i _ =>
        rcases adjust_cases i now with ⟨t, moved⟩ | failed
        · rw [moved]
          rfl
        · rw [failed]
          rfl
      next => rfl

/-- The instant is read from any text that gives its local time and the offset from UTC. -/
theorem parseRunAt_of_writes {minutes : Int} (within : -1440 < minutes ∧ minutes < 1440)
    (writes : Instant.Writes (trim e.toList) (t.localReading minutes)) :
    parseRunAt e now = .ok (some t) :=
  parseRunAt_of_timestamp ⟨_, writes, Instant.isValid_localReading t within,
    Instant.names_localReading t minutes⟩

private theorem writes_localChars {minutes : Int} (within : -1440 < minutes ∧ minutes < 1440)
    (year : 0 ≤ (t.localReading minutes).year ∧ (t.localReading minutes).year ≤ 9999) :
    Instant.Writes (t.localChars minutes) (t.localReading minutes) :=
  Instant.writes_dateTime (Instant.isValid_localReading t within) year
    (Nat.mod_lt _ (by decide)) (Instant.zone_zoneText (by omega) (by omega))

/-- A run time expression is read as what it names, whichever of the two forms is tried first: a
timestamp as its instant at any time, an interval as an instant after now. Blanks around it mean
nothing, and an instant of the years 0 to 9999 is read from its text in any time zone of whole
minutes. -/
theorem parseRunAt_names :
    (∀ s r, Instant.Writes s r → (∀ i, ¬Interval.Expresses s i) ∧
      (r.IsValid → ∃ t, r.Names t ∧ ∀ u, r.Names u → u = t)) ∧
    (∀ e now, parseRunAt e now = parseIntervalFirst e now) ∧
    (∀ e now x, parseRunAt e now = x ↔ RunAt e now x) ∧
    (∀ s i now t, Interval.Expresses s i → i.adjust now = .ok t → now < t) ∧
    (∀ front back e now, (∀ c ∈ front, isBlank c = true) → (∀ c ∈ back, isBlank c = true) →
      parseRunAt (String.ofList (front ++ e.toList ++ back)) now =
        (parseRunAt e now).mapError (·.citing (String.ofList (front ++ e.toList ++ back)))) ∧
    ∀ (t : Instant) (minutes : Int), -1440 < minutes ∧ minutes < 1440 →
      0 ≤ (t.localReading minutes).year ∧ (t.localReading minutes).year ≤ 9999 →
      (∀ now, parseRunAt (String.ofList (t.localChars minutes)) now = .ok (some t)) ∧
      ∀ e now, Instant.Writes (trim e.toList) (t.localReading minutes) →
        parseRunAt e now = .ok (some t) := by
  refine ⟨fun s r writes => ⟨fun i => writes.not_expresses, fun valid => ?_⟩,
    parseRunAt_eq_parseIntervalFirst, fun e now x => parseRunAt_eq_iff,
    fun s i now t is moved => Interval.lt_adjust is.positive moved,
    fun front back e now blank blank' => parseRunAt_append blank blank' e now,
    fun t minutes within year => ⟨fun now => ?_, fun e now => parseRunAt_of_writes within⟩⟩
  · obtain ⟨t, names⟩ := Instant.exists_names writes valid
    exact ⟨t, names, fun u names' => names'.unique names⟩
  · have writes := writes_localChars within year
    refine parseRunAt_of_writes within ?_
    rwa [String.toList_ofList, writes.trim_eq]

def leapSecond : Instant := ⟨1483228799, 1500000000, by decide, by decide, by decide⟩

/-- The leap second where the clock is five hours behind UTC, with blanks around it. The text is no
interval; a quarter of an hour is one, and leads to a later instant. -/
theorem parseRunAt_names_leapSecond :
    String.ofList (leapSecond.localChars (-300)) = "2016-12-31T18:59:60.500-05:00" ∧
    ∀ now, parseRunAt "\t2016-12-31T18:59:60.500-05:00\n" now = .ok (some leapSecond) ∧
      parseIntervalFirst "2016-12-31T18:59:60.500-05:00" now = .ok (some leapSecond) ∧
      (∀ i, ¬Interval.Expresses "2016-12-31T18:59:60.500-05:00".toList i) ∧
      ∀ t, parseRunAt " 15 Min" now = .ok (some t) → now < t := by
  obtain ⟨apart, order, _, onwards, blanks, back⟩ := parseRunAt_names
  have text : String.ofList (leapSecond.localChars (-300)) = "2016-12-31T18:59:60.500-05:00" := by
    decide +kernel
  have writes : Instant.Writes "2016-12-31T18:59:60.500-05:00".toList
      (leapSecond.localReading (-300)) := by
    rw [← text, String.toList_ofList]
    exact writes_localChars (by decide) (by decide +kernel)
  refine ⟨text, fun now => ?_⟩
  have read := (back leapSecond (-300) (by decide) (by decide +kernel)).1 now
  rw [text] at read
  refine ⟨?_, order _ _ ▸ read, (apart _ _ writes).1, fun t read => ?_⟩
  · have wide := blanks ['\t'] ['\n'] "2016-12-31T18:59:60.500-05:00" now
      (List.forall_mem_singleton.mpr rfl) (List.forall_mem_singleton.mpr rfl)
    rw [read] at wide
    exact wide
  · have quarter : Interval.Expresses (trim " 15 Min".toList) ⟨15, .minute⟩ :=
      Interval.read?_eq_some_iff.mp (by decide +kernel)
    rw [parseRunAt_of_expresses quarter] at read
    rcases adjust_cases ⟨15, .minute⟩ now with ⟨u, moved⟩ | failed
    · rw [moved] at read
      cases read
      exact onwards _ _ now t quarter moved
    · rw [failed] at read
      cases read

end Rota
