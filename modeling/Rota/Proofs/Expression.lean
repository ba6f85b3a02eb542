import Rota.Validation
import Rota.Proofs.Blank
import Rota.Proofs.Digits
/-! Interval expressions.
An expression is an amount in digits and a spelling of a unit, in any case and with blanks as one
likes. Reading takes exactly these texts, and an interval is read from the text that it is written
as. -/
namespace Rota
open Rota.Text

namespace Text

variable {s : List Char} {c : Char}

/-! ### Letter case -/

/-- Only the capital letters of ASCII change. -/
theorem toLower_cases (c : Char) :
    c.toLower = c ∨ 65 ≤ c.toNat ∧ c.toNat ≤ 90 ∧ c.toLower.toNat = c.toNat + 32 := by
  unfold Char.toLower
  split
  next capital =>
    obtain ⟨least, most⟩ := capital
    rw [ge_iff_le, UInt32.le_iff_toNat_le] at least
    rw [UInt32.le_iff_toNat_le] at most
    change 65 ≤ c.toNat at least
    change c.toNat ≤ 90 at most
    refine Or.inr ⟨least, most, ?_⟩
    change (c.val + ('a'.val - 'A'.val)).toNat = c.toNat + 32
    rw [UInt32.toNat_add]
    change (c.toNat + 32) % 4294967296 = _
    omega
  next => exact Or.inl rfl

private theorem isBlank_toLower (c : Char) : isBlank c.toLower = isBlank c := by
  rcases toLower_cases c with same | ⟨least, most, lower⟩
  · rw [same]
  · have visible (d : Char) (least : 65 ≤ d.toNat) (most : d.toNat ≤ 122) : isBlank d = false := by
      simp only [isBlank, Bool.or_eq_false_iff, Bool.and_eq_false_iff, decide_eq_false_iff_not,
        beq_eq_false_iff_ne]
      omega
    rw [visible c least (by omega), visible c.toLower (by omega) (by omega)]

private theorem isDigit_toLower (c : Char) : isDigit c.toLower = isDigit c := by
  rcases toLower_cases c with same | ⟨least, most, lower⟩
  · rw [same]
  · rw [Bool.eq_iff_iff, isDigit_iff, isDigit_iff]
    omega

private theorem toLower_of_isDigit (digit : isDigit c = true) : c.toLower = c := by
  have := isDigit_iff.mp digit
  rcases toLower_cases c with same | ⟨least, _⟩
  · exact same
  · omega

/-- The digits that a text begins with are the same in any case. -/
theorem takeWhile_map_toLower (s : List Char) :
    (s.map Char.toLower).takeWhile isDigit = s.takeWhile isDigit := by
  have same : isDigit ∘ Char.toLower = isDigit := funext isDigit_toLower
  rw [List.takeWhile_map, same]
  exact (List.map_congr_left fun c member => toLower_of_isDigit
    (List.mem_takeWhile_imp member)).trans (List.map_id' _)

private theorem dropWhile_map_toLower (s : List Char) :
    (s.map Char.toLower).dropWhile isDigit = (s.dropWhile isDigit).map Char.toLower := by
  have same : isDigit ∘ Char.toLower = isDigit := funext isDigit_toLower
  rw [List.dropWhile_map, same]

end Text

namespace IntervalUnit

variable {unit : IntervalUnit} {s : String}

theorem mem_all (unit : IntervalUnit) : unit ∈ all := by cases unit <;> decide

/-- No two units share a spelling. -/
theorem ofAlias?_eq_some_iff : ofAlias? s = some unit ↔ s ∈ unit.aliases := by
  constructor
  · intro found
    simpa using List.find?_some found
  · have each : ∀ unit ∈ all, ∀ s ∈ unit.aliases, ofAlias? s = some unit := by decide
    exact each unit (mem_all unit) s

private theorem visible_of_mem_aliases (alias_ : s ∈ unit.aliases) :
    s.toList ≠ [] ∧ ∀ c ∈ s.toList, isBlank c = false ∧ isDigit c = false := by
  have each : ∀ unit ∈ all, ∀ s ∈ unit.aliases,
      s.toList ≠ [] ∧ (s.toList.all fun c => !isBlank c && !isDigit c) = true := by decide
  simpa using each unit (mem_all unit) s alias_

/-- The spelling that is written is one that is understood. -/
theorem text_mem_aliases (unit : IntervalUnit) :
    String.ofList (unit.text.toList.map Char.toLower) ∈ unit.aliases := by
  cases unit <;> decide

end IntervalUnit

namespace Interval

variable {i : Interval} {s : List Char}

/-- The text expresses the interval: it is the amount in digits and a spelling of the unit in any
case, and there may be blanks around and between the two. -/
inductive Expresses : List Char → Interval → Prop
  | parts {front amount gap word back : List Char} {i : Interval}
      (blankFront : ∀ c ∈ front, isBlank c = true)
      (some_ : amount ≠ []) (digits : ∀ c ∈ amount, isDigit c = true)
      (value : ofDigits amount = i.amount.toNat) (positive : 1 ≤ i.amount.toNat)
      (blankGap : ∀ c ∈ gap, isBlank c = true)
      (alias_ : String.ofList (word.map Char.toLower) ∈ i.unit.aliases)
      (blankBack : ∀ c ∈ back, isBlank c = true) :
      Expresses (front ++ amount ++ gap ++ word ++ back) i

private theorem visible_of_alias {word : List Char} {unit : IntervalUnit}
    (alias_ : String.ofList (word.map Char.toLower) ∈ unit.aliases) :
    word ≠ [] ∧ ∀ c ∈ word, isBlank c = false ∧ isDigit c = false := by
  obtain ⟨some_, visible⟩ := IntervalUnit.visible_of_mem_aliases alias_
  rw [String.toList_ofList] at some_ visible
  refine ⟨fun none_ => some_ (by rw [none_]; rfl), fun c member => ?_⟩
  have lower := visible c.toLower (List.mem_map_of_mem member)
  rwa [isBlank_toLower, isDigit_toLower] at lower

private theorem expresses_of_read? (read : read? s = some i) : Expresses s i := by
  obtain ⟨front, back, split, blankFront, blankBack⟩ := exists_trim s
  obtain ⟨gap, behind, split', blankGap, blankBehind⟩ := exists_trim ((trim s).dropWhile isDigit)
  unfold read? at read
  dsimp only at read
  rw [takeWhile_map_toLower, dropWhile_map_toLower, trim_map isBlank_toLower] at read
  split at read
  next => cases read
  next within =>
    simp only [Bool.or_eq_true, decide_eq_true_eq, not_or] at within
    obtain ⟨⟨some_, positive⟩, fits⟩ := within
    obtain ⟨unit, known, rfl⟩ := Option.map_eq_some_iff.mp read
    have whole : s = front ++ (trim s).takeWhile isDigit ++ gap ++
        trim ((trim s).dropWhile isDigit) ++ (behind ++ back) := by
      conv_lhs => rw [split, ← List.takeWhile_append_dropWhile (p := isDigit) (l := trim s), split']
      simp only [List.append_assoc]
    have value : ofDigits ((trim s).takeWhile isDigit) =
        (ofDigits ((trim s).takeWhile isDigit)).toUInt32.toNat := by
      generalize ofDigits _ = value at fits
      simp only [Nat.toUInt32_eq, UInt32.toNat_ofNat']
      omega
    have parts := Expresses.parts (i := ⟨(ofDigits ((trim s).takeWhile isDigit)).toUInt32, unit⟩)
      blankFront some_ (fun c => List.mem_takeWhile_imp) value
      (Nat.pos_of_ne_zero (value ▸ positive)) blankGap (IntervalUnit.ofAlias?_eq_some_iff.mp known)
      (List.forall_mem_append.mpr ⟨blankBehind, blankBack⟩)
    rwa [← whole] at parts

private theorem read?_of_expresses (expresses : Expresses s i) : read? s = some i := by
  cases expresses with
  | @parts front amount gap word back _ blankFront some_ digits value positive blankGap alias_
      blankBack =>
    obtain ⟨some', visible⟩ := visible_of_alias alias_
    -- The first character is a digit and the last one a letter, so that nothing between is trimmed.
    have inner : trim (amount ++ gap ++ word) = amount ++ gap ++ word := by
      refine trim_eq_self (fun c first => ?_) fun c last => ?_
      · rw [List.append_assoc, List.head?_append_of_ne_nil _ some_] at first
        exact isBlank_of_isDigit (digits c (List.mem_of_head? first))
      · rw [List.getLast?_append_of_ne_nil _ some'] at last
        exact (visible c (List.mem_of_getLast? last)).1
    have trimmed := trim_append (s := amount ++ gap ++ word) blankFront blankBack
    rw [inner] at trimmed
    simp only [List.append_assoc] at trimmed ⊢
    have stops : ∀ c ∈ (gap ++ word).head?, isDigit c = false := by
      intro c first
      rcases List.mem_append.mp (List.mem_of_head? first) with blank | letter
      · exact not_isDigit_of_isBlank (blankGap c blank)
      · exact (visible c letter).2
    have run := takeWhile_isDigit digits stops
    have rest := dropWhile_isDigit digits stops
    have letters : trim (gap ++ word) = word := by
      rw [trim_append_front blankGap]
      exact trim_eq_self (fun c first => (visible c (List.mem_of_head? first)).1)
        fun c last => (visible c (List.mem_of_getLast? last)).1
    have fits := i.amount.toNat_lt
    unfold read?
    dsimp only
    rw [takeWhile_map_toLower, dropWhile_map_toLower, trim_map isBlank_toLower, trimmed, run, rest,
      letters, IntervalUnit.ofAlias?_eq_some_iff.mpr alias_, value, if_neg]
    · simp
    · simp only [Bool.or_eq_true, decide_eq_true_eq, some_, false_or]
      omega

theorem read?_eq_some_iff : read? s = some i ↔ Expresses s i :=
  ⟨expresses_of_read?, read?_of_expresses⟩

private theorem read?_trim (s : List Char) : read? (trim s) = read? s := by
  unfold read?
  rw [trim_trim]

theorem Expresses.positive (expresses : Expresses s i) : 1 ≤ i.amount.toNat := by
  cases expresses
  assumption

private theorem parse_ok_iff {expression : String} :
    parse expression = .ok i ↔ read? expression.toList = some i := by
  unfold parse
  split <;> simp_all

/-- An interval is written as an amount without zeros in front, one blank and a unit. -/
theorem expresses_text (positive : 1 ≤ i.amount.toNat) : Expresses i.text.toList i := by
  have nothing : ∀ c ∈ ([] : List Char), isBlank c = true := by simp
  have blank : ∀ c ∈ [' '], isBlank c = true := List.forall_mem_singleton.mpr rfl
  have parts := Expresses.parts nothing (digits_ne_nil _) (isDigit_of_mem_digits _)
    (ofDigits_digits i.amount.toNat) positive blank (IntervalUnit.text_mem_aliases i.unit) nothing
  have text : i.text.toList =
      [] ++ digits i.amount.toNat ++ [' '] ++ i.unit.text.toList ++ [] := by
    simp [Interval.text, natText]
  rwa [text]

/-- Reading takes exactly the expressions and cites any other text unchanged. What is written for an
interval is read as the interval, so that writing what was read and reading it again changes
nothing. -/
theorem parse_expresses :
    (∀ s i, parse s = .ok i ↔ Expresses s.toList i) ∧
    (∀ s, (∃ i, parse s = .ok i) ∨ parse s = .error (.invalidInterval s)) ∧
    (∀ i : Interval, 1 ≤ i.amount.toNat → parse i.text = .ok i) ∧
    ∀ s i, parse s = .ok i → parse i.text = parse s := by
  have accepts (s : String) (i : Interval) : parse s = .ok i ↔ Expresses s.toList i :=
    parse_ok_iff.trans read?_eq_some_iff
  have written (i : Interval) (positive : 1 ≤ i.amount.toNat) : parse i.text = .ok i :=
    (accepts _ i).mpr (expresses_text positive)
  refine ⟨accepts, fun s => ?_, written, fun s i read => ?_⟩
  · unfold parse
    split
    next i _ => exact Or.inl ⟨i, rfl⟩
    next => exact Or.inr rfl
  · rw [read]
    exact written i ((accepts s i).mp read).positive

/-- Two weeks in a spelling with zeros, other blanks and capital letters, and as they are written. A
sign is no part of an amount. -/
theorem parse_expresses_weeks : parse "\u2003002\u00a0WeeKs\n" = .ok ⟨2, .week⟩ ∧
    parse "2 week" = parse "\u2003002\u00a0WeeKs\n" ∧
    parse "+2 week" = .error (.invalidInterval "+2 week") := by
  obtain ⟨_, refuses, _, again⟩ := parse_expresses
  have read : parse "\u2003002\u00a0WeeKs\n" = .ok ⟨2, .week⟩ := by decide +kernel
  have text : (Interval.mk 2 .week).text = "2 week" := by decide +kernel
  refine ⟨read, text ▸ again _ _ read, (refuses "+2 week").resolve_left ?_⟩
  rintro ⟨i, other⟩
  have none_ : read? "+2 week".toList = none := by decide +kernel
  cases none_.symm.trans (parse_ok_iff.mp other)

/-! ### Optional expressions -/

def Accepts (expression : Option String) : Prop :=
  ∀ text ∈ expression, (∀ c ∈ text.toList, isBlank c = true) ∨ ∃ i, Expresses text.toList i

private theorem parse_trim (text : String) :
    (∃ i, parse (String.ofList (trim text.toList)) = .ok i) ↔ ∃ i, Expresses text.toList i := by
  refine exists_congr fun i => ?_
  rw [parse_ok_iff, String.toList_ofList, read?_trim, read?_eq_some_iff]

theorem parseOptional_ok_iff {expression : Option String} :
    (∃ i, parseOptional expression = .ok i) ↔ Accepts expression := by
  cases expression with
  | none => simp [parseOptional, Accepts]
  | some text =>
    simp only [parseOptional, Accepts, Option.mem_some_iff, forall_eq', ← parse_trim]
    split
    next blank => exact iff_of_true ⟨none, rfl⟩ (Or.inl (List.all_eq_true.mp blank))
    next filled =>
      have visible : ¬∀ c ∈ text.toList, isBlank c = true :=
        fun blank => filled (List.all_eq_true.mpr blank)
      cases parse (String.ofList (trim text.toList)) <;> simp [Except.map, visible]

theorem validateInterval_ok_iff {expression : Option String} :
    validateInterval expression = .ok () ↔ Accepts expression := by
  cases expression with
  | none => simp [validateInterval, Accepts]
  | some text =>
    have read : (∃ i, parse text = .ok i) ↔ ∃ i, Expresses text.toList i :=
      exists_congr fun i => parse_ok_iff.trans read?_eq_some_iff
    simp only [validateInterval, Accepts, Option.mem_some_iff, forall_eq', ← read]
    split
    next blank => exact iff_of_true rfl (Or.inl (List.all_eq_true.mp blank))
    next filled =>
      have visible : ¬∀ c ∈ text.toList, isBlank c = true :=
        fun blank => filled (List.all_eq_true.mpr blank)
      cases parse text <;> simp [visible]

end Interval

end Rota
