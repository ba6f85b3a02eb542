import Rota.Proofs.JsonText
import Rota.Proofs.Rounding
/-! Durations read as they were written.
A duration is a number of microseconds divided by a thousand. While the microseconds have fewer than
53 bits, its shortest decimal has at most three digits behind the point, and so few in all that they
are read without a rounding before the division. -/
namespace Rota.Binary64
open Rota.Text

variable {m n d c k s : Nat} {units : Nat}

/-! ### Exact numbers and quotients -/

theorem one_eq {e : Nat} (same : e = 1074) : one = 2 ^ e := by
  unfold one
  rw [← same]
  rfl

theorem one_pos : 0 < one := by
  obtain ⟨e, same⟩ : ∃ e, e = 1074 := ⟨_, rfl⟩
  rw [one_eq same]
  exact Nat.two_pow_pos e

theorem IsNearest.scale (positive : 0 < c) (nearest : IsNearest n d k) :
    IsNearest (n * c) (d * c) k := by
  obtain ⟨low, high, even⟩ := nearest
  have below : 2 * (k * (d * c)) = 2 * (k * d) * c := by ring
  have above : 2 * (n * c) = 2 * n * c := by ring
  constructor
  · rw [below, above, ← Nat.add_mul]
    exact Nat.mul_le_mul_right c low
  · rw [below, above, ← Nat.add_mul]
    exact Nat.mul_le_mul_right c high
  · rw [below, above, ← Nat.add_mul, ← Nat.add_mul]
    exact fun tie => even (tie.imp (Nat.eq_of_mul_eq_mul_right positive)
      (Nat.eq_of_mul_eq_mul_right positive))

/-- Only the value of a fraction counts. -/
theorem roundUnits_scale (positive : 0 < c) (denominator : 0 < d) :
    roundUnits (n * c) (d * c) = roundUnits n d := by
  have same : n * c / (d * c) = n / d := Nat.mul_div_mul_right n d positive
  have small : 0 < d * 2 ^ excess (n / d) := Nat.mul_pos denominator (Nat.two_pow_pos _)
  have nearest := (isNearest_divideToEven n small).scale positive
  rw [roundUnits_of_excess rfl denominator (isNearest_divideToEven n small)]
  refine roundUnits_of_excess (by rw [same]) (Nat.mul_pos denominator positive) ?_
  rwa [Nat.mul_right_comm]

/-- Whole numbers of up to 53 bits are numbers. -/
theorem roundUnits_whole (small : m < 2 ^ 53) : roundUnits (m * one) 1 = m * one := by
  rcases Nat.eq_zero_or_pos m with rfl | positive
  · rw [Nat.zero_mul]
    decide
  · have log : m.log2 < 53 := (Nat.log2_lt (Nat.ne_of_gt positive)).mpr small
    obtain ⟨i, count⟩ : ∃ i, m.log2 + i = 52 := ⟨52 - m.log2, by omega⟩
    have product : m * one = m * 2 ^ i * 2 ^ (1021 + m.log2 + 1) := by
      rw [Nat.mul_assoc, ← Nat.pow_add, one_eq (e := i + (1021 + m.log2 + 1)) (by omega)]
    have low : 2 ^ 52 ≤ m * 2 ^ i := by
      rw [← count, Nat.pow_add]
      exact Nat.mul_le_mul_right _ (Nat.log2_self_le (Nat.ne_of_gt positive))
    have high : m * 2 ^ i < 2 ^ 53 := by
      rw [show 53 = m.log2 + 1 + i by omega, Nat.pow_add]
      exact Nat.mul_lt_mul_of_pos_right Nat.lt_log2_self (Nat.two_pow_pos i)
    rw [product]
    exact roundUnits_of_contains low high Nat.one_pos (contains_self low high)

private theorem roundUnits_le (positive : 0 < d) : roundUnits n d ≤ 2 * (n / d) + 1 := by
  have small : 2 ^ excess (n / d) ≤ n / d + 1 := by
    rcases Nat.eq_zero_or_pos (n / d) with none_ | some_
    · rw [none_]
      decide
    · refine Nat.le_succ_of_le (Nat.le_trans (Nat.pow_le_pow_right Nat.two_pos ?_)
        (Nat.log2_self_le (Nat.ne_of_gt some_)))
      exact Nat.sub_le _ _
  have nearest := isNearest_divideToEven n
    (Nat.mul_pos positive (Nat.two_pow_pos (excess (n / d))))
  rw [roundUnits_of_excess rfl positive nearest]
  generalize divideToEven n (d * 2 ^ excess (n / d)) = k at nearest ⊢
  generalize 2 ^ excess (n / d) = q at *
  have low := nearest.low
  have less := Nat.lt_mul_div_succ n positive
  have share : d * q ≤ d * (n / d + 1) := Nat.mul_le_mul_left d small
  have bound : d * (2 * (k * q)) < d * (3 * (n / d + 1)) := by
    calc d * (2 * (k * q)) = 2 * (k * (d * q)) := by ring
      _ ≤ 2 * n + d * q := low
      _ < 3 * (d * (n / d + 1)) := by omega
      _ = d * (3 * (n / d + 1)) := by ring
  have := Nat.lt_of_mul_lt_mul_left bound
  omega

private theorem lt_limit (small : units ≤ 2 ^ 60 * one) : units < Nat.pow 2 2098 := by
  obtain ⟨e, same⟩ : ∃ e, e = 1074 := ⟨_, rfl⟩
  obtain ⟨limit, same'⟩ : ∃ limit, limit = 2098 := ⟨_, rfl⟩
  rw [← same', Nat.pow_eq]
  refine Nat.lt_of_le_of_lt small ?_
  rw [one_eq same, ← Nat.pow_add]
  exact Nat.pow_lt_pow_right (by decide) (by omega)

private theorem ofUnits?_whole (negative : Bool) (small : m < 2 ^ 53) :
    ofUnits? negative (m * one) 1 = some ⟨negative, m * one⟩ := by
  unfold ofUnits?
  dsimp only
  rw [roundUnits_whole small, if_pos]
  exact lt_limit (Nat.mul_le_mul_right one (by omega))

private theorem tenTo_small (small : c ≤ 3) : tenTo c = ⟨false, 10 ^ c * one⟩ := by
  have bound : 10 ^ c ≤ 10 ^ 3 := Nat.pow_le_pow_right (by decide) small
  rw [tenTo, ofNat?, Nat.pow_eq, ofUnits?_whole false (by omega)]
  rfl

def quotient (negative : Bool) (dividend divisor : Nat) : Binary64 :=
  ⟨negative, roundUnits (dividend * one) divisor⟩

private theorem div?_whole (negative : Bool) (small : m < 2 ^ 53) (positive : 0 < c) :
    (⟨negative, m * one⟩ : Binary64).div? ⟨false, c * one⟩ = some (quotient negative m c) := by
  have scaled : roundUnits (m * one * one) (c * one) = roundUnits (m * one) c :=
    roundUnits_scale one_pos positive
  have bound : roundUnits (m * one) c ≤ 2 ^ 60 * one := by
    have whole : m * one / c ≤ m * one := Nat.div_le_self _ _
    have few : m * one ≤ 2 ^ 53 * one := Nat.mul_le_mul_right one (by omega)
    have := roundUnits_le (n := m * one) positive
    have := one_pos
    omega
  unfold div? ofUnits?
  dsimp only
  rw [scaled, if_pos (lt_limit bound), Bool.bne_false]
  rfl

/-- Milliseconds are a quotient of microseconds. -/
theorem millisOfNanos_eq {nanos : Int} (small : (nanos.tdiv 1000).natAbs < 2 ^ 53) :
    millisOfNanos nanos =
      quotient (decide (nanos.tdiv 1000 < 0)) (nanos.tdiv 1000).natAbs 1000 := by
  have thousand : ofIntOrZero 1000 = ⟨false, 1000 * one⟩ := by
    rw [ofIntOrZero, show (1000 : Int).natAbs = 1000 from rfl, ofUnits?_whole _ (by decide)]
    rfl
  have fits : (nanos.tdiv 1000000000).natAbs * 1000000 < 9223372036854775808 := by
    have micros : (nanos.tdiv 1000).natAbs = nanos.natAbs / 1000 := Int.natAbs_tdiv nanos 1000
    have seconds : (nanos.tdiv 1000000000).natAbs = nanos.natAbs / 1000000000 :=
      Int.natAbs_tdiv nanos 1000000000
    omega
  unfold millisOfNanos
  dsimp only
  rw [if_pos (by simp only [Bool.and_eq_true, decide_eq_true_eq]; omega), thousand, ofIntOrZero,
    ofUnits?_whole _ small, Option.getD_some, div?_whole _ small (by decide)]
  rfl

/-- A significand with few digits behind the point is read as a quotient. -/
theorem ofScaled?_eq (negative : Bool) (small : m < 2 ^ 53) (positive : 0 < c) (few : c ≤ 3) :
    ofScaled? negative m (-(c : Int)) = some (quotient negative m (10 ^ c)) := by
  have power : 0 < 10 ^ c := Nat.pow_pos (by decide)
  have scaled : scaleDown ⟨false, m * one⟩ (c / 308 + 1) c = quotient false m (10 ^ c) := by
    rw [show c / 308 = 0 by omega, scaleDown, if_pos (by omega), tenTo_small few,
      div?_whole false small power]
    rfl
  unfold ofScaled? ofNat?
  rw [ofUnits?_whole false small]
  dsimp only [Option.bind_eq_bind, Option.bind_some]
  rw [if_neg (show ¬(0 : Int) ≤ -(c : Int) by omega), show (-(c : Int)).natAbs = c by omega, scaled]
  cases negative <;> rfl

/-! ### The shortest decimal -/

private theorem Interval.contains_scale {i : Interval} (positive : 0 < c) :
    i.contains (n * c) (d * c) = i.contains n d := by
  unfold contains
  simp only [← Nat.mul_assoc, Nat.mul_le_mul_right_iff positive, Nat.mul_lt_mul_right positive]

private theorem Interval.contains_between {i : Interval} {first last : Nat}
    (low : i.contains first d = true) (high : i.contains last d = true) (above : first ≤ n)
    (below : n ≤ last) : i.contains n d = true := by
  unfold contains at *
  cases closed : i.closed <;>
    simp only [closed, if_true, if_false, Bool.false_eq_true, Bool.and_eq_true,
      decide_eq_true_eq] at * <;> omega

namespace Decimal

variable {x : Decimal}

def IsIn (x : Decimal) (units : Nat) : Prop :=
  (roundingInterval units).contains (x.digits * (gridStep x.exponent).1)
    (gridStep x.exponent).2 = true

/-- The digits behind the point in the text of the decimal, at least one. -/
def places (x : Decimal) : Nat := if 0 ≤ x.exponent then 1 else x.exponent.natAbs

def significand (x : Decimal) : Nat := x.digits * 10 ^ (x.exponent + x.places).toNat

private theorem isIn_iff : x.IsIn units ↔
    (roundingInterval units).contains (4 * (x.significand * one)) (10 ^ x.places) = true := by
  unfold IsIn gridStep significand places
  split
  next whole =>
    have power : (x.exponent + (1 : Nat)).toNat = x.exponent.toNat + 1 := by omega
    dsimp only
    rw [power, Nat.pow_eq, Nat.pow_succ 10 x.exponent.toNat, Nat.pow_one,
      ← Interval.contains_scale (n := x.digits * (4 * one * 10 ^ x.exponent.toNat)) (c := 10)
        (by decide), Nat.one_mul]
    have same : x.digits * (4 * one * 10 ^ x.exponent.toNat) * 10 =
        4 * (x.digits * (10 ^ x.exponent.toNat * 10) * one) := by ring
    rw [same]
  next fraction =>
    have power : (x.exponent + (x.exponent.natAbs : Nat)).toNat = 0 := by omega
    dsimp only
    rw [power, Nat.pow_zero, Nat.mul_one, Nat.pow_eq]
    have same : x.digits * (4 * one) = 4 * (x.digits * one) := by ring
    rw [same]

end Decimal

theorem gridStep_pos (e : Int) : 0 < (gridStep e).1 ∧ 0 < (gridStep e).2 := by
  unfold gridStep
  split
  next => exact ⟨Nat.mul_pos (Nat.mul_pos (by decide) one_pos) (Nat.pow_pos (by decide)),
      Nat.one_pos⟩
  next => exact ⟨Nat.mul_pos (by decide) one_pos, Nat.pow_pos (by decide)⟩

variable {e : Int} {x : Decimal}

theorem onGrid?_isIn (found : onGrid? units e = some x) : x.exponent = e ∧ x.IsIn units := by
  unfold onGrid? at found
  dsimp only at found
  split at found
  next here =>
    cases found
    rw [Bool.and_eq_true] at here
    exact ⟨rfl, here.1⟩
  next =>
    split at found
    next here =>
      cases found
      exact ⟨rfl, here⟩
    next => cases found

/-- A grid with any decimal in the interval has a neighbour of the number there. -/
theorem onGrid?_isSome (own : (roundingInterval units).contains (4 * units) 1 = true)
    (inside : Decimal.IsIn ⟨m, e⟩ units) : (onGrid? units e).isSome = true := by
  unfold Decimal.IsIn at inside
  unfold onGrid?
  dsimp only at inside ⊢
  obtain ⟨stepPositive, scalePositive⟩ := gridStep_pos e
  generalize (gridStep e).1 = step at *
  generalize (gridStep e).2 = scale at *
  have self : (roundingInterval units).contains (4 * units * scale) scale = true := by
    have scaled := Interval.contains_scale (i := roundingInterval units) (n := 4 * units) (d := 1)
      scalePositive
    rw [Nat.one_mul] at scaled
    exact scaled.trans own
  have below : 4 * units * scale / step * step ≤ 4 * units * scale := Nat.div_mul_le_self _ _
  have above : 4 * units * scale < (4 * units * scale / step + 1) * step := by
    rw [Nat.mul_comm _ step]
    exact Nat.lt_mul_div_succ _ stepPositive
  generalize 4 * units * scale / step = floor at *
  have neighbour : (roundingInterval units).contains (floor * step) scale = true ∨
      (roundingInterval units).contains ((floor + 1) * step) scale = true := by
    rcases Nat.lt_or_ge floor m with less | more
    · exact Or.inr (Interval.contains_between self inside (Nat.le_of_lt above)
        (Nat.mul_le_mul_right step less))
    · exact Or.inl (Interval.contains_between inside self (Nat.mul_le_mul_right step more) below)
  split
  next => rfl
  next first =>
    split
    next => rfl
    next second =>
      simp only [Bool.not_eq_true] at second
      rw [second] at neighbour first
      simp [neighbour.resolve_right Bool.false_ne_true] at first

/-- The search ends on a grid where it finds something. -/
theorem searchGrids_isIn {fuel i : Nat} (within : i < fuel)
    (later : (onGrid? units (e - i)).isSome = true) :
    (searchGrids units fuel e).IsIn units ∧ e - i ≤ (searchGrids units fuel e).exponent ∧
      (searchGrids units fuel e).exponent ≤ e := by
  induction fuel generalizing i e with
  | zero => exact absurd within (Nat.not_lt_zero i)
  | succ fuel ih =>
    rw [searchGrids]
    split
    next x found =>
      obtain ⟨rfl, inside⟩ := onGrid?_isIn found
      exact ⟨inside, by omega, Int.le_refl _⟩
    next none_ =>
      obtain ⟨j, rfl⟩ : ∃ j, i = j + 1 := by
        refine Nat.exists_eq_succ_of_ne_zero fun zero => ?_
        subst zero
        simp [none_] at later
      have next : e - (j + 1 : Nat) = e - 1 - (j : Nat) := by omega
      obtain ⟨inside, low, high⟩ := ih (by omega) (next ▸ later)
      exact ⟨inside, by omega, by omega⟩

/-- Milliseconds have a full significand, and their last place is between 2^-63 and 2^-9. -/
theorem roundUnits_millis (positive : 0 < m) (small : m < 2 ^ 52) :
    ∃ k s, 2 ^ 52 ≤ k ∧ k < 2 ^ 53 ∧ roundUnits (m * one) 1000 = k * 2 ^ (s + 1) ∧
      (roundingInterval (k * 2 ^ (s + 1))).contains (4 * (m * one)) 1000 = true ∧
      1011 ≤ s ∧ s < 1065 := by
  obtain ⟨e, same⟩ : ∃ e, e = 1074 := ⟨_, rfl⟩
  have power : one = 2 ^ e := one_eq same
  have large : 2 ^ 53 ≤ m * one / 1000 := by
    rw [Nat.le_div_iff_mul_le (by decide)]
    calc 2 ^ 53 * 1000 ≤ 2 ^ 63 := by decide
      _ ≤ 2 ^ e := Nat.pow_le_pow_right (by decide) (by omega)
      _ ≤ m * one := power ▸ Nat.le_mul_of_pos_left _ positive
  obtain ⟨k, s, low, high, rounded, inside⟩ :=
    contains_roundUnits (n := m * one) (d := 1000) (by decide) large
  obtain ⟨⟨below, above, _⟩, _⟩ := (contains_iff (s := s + 1) low high (by omega)).mp inside
  refine ⟨k, s, low, high, rounded, inside, ?_, ?_⟩
  · -- The number is not below 2^-10.
    by_contra less
    have few : k * (1000 * 2 ^ (s + 1)) ≤ 2 ^ 53 * (1000 * 2 ^ (s + 1)) :=
      Nat.mul_le_mul_right _ (Nat.le_of_lt high)
    have least : 2 ^ (s + 1) * 2 ^ 63 ≤ one := by
      rw [power, ← Nat.pow_add]
      exact Nat.pow_le_pow_right (by decide) (by omega)
    have more : one ≤ m * one := Nat.le_mul_of_pos_left _ positive
    have positive := Nat.two_pow_pos (s + 1)
    omega
  · -- The number is below 2^43.
    by_contra more
    have many : 2 ^ 52 * (1000 * 2 ^ (s + 1)) ≤ k * (1000 * 2 ^ (s + 1)) :=
      Nat.mul_le_mul_right _ low
    have most : 2 ^ (s + 1) * 2 ^ 8 ≥ one := by
      rw [power, ← Nat.pow_add]
      exact Nat.pow_le_pow_right (by decide) (by omega)
    have less : m * one ≤ 2 ^ 52 * one := Nat.mul_le_mul_right _ (Nat.le_of_lt small)
    have positive := Nat.two_pow_pos (s + 1)
    omega

/-- The shortest decimal of milliseconds has at most three digits behind the point. -/
theorem shortest_millis (low : 2 ^ 52 ≤ k) (high : k < 2 ^ 53)
    (inside : (roundingInterval (k * 2 ^ (s + 1))).contains (4 * (m * one)) 1000 = true)
    (least : 1011 ≤ s) (most : s < 1065) :
    (shortest (k * 2 ^ (s + 1))).IsIn (k * 2 ^ (s + 1)) ∧
      -3 ≤ (shortest (k * 2 ^ (s + 1))).exponent := by
  have start : -2 ≤ startExponent (k * 2 ^ (s + 1)) ∧ startExponent (k * 2 ^ (s + 1)) ≤ 14 := by
    rw [startExponent, log2_scaled low high]
    omega
  have millis : Decimal.IsIn ⟨m, -3⟩ (k * 2 ^ (s + 1)) := by
    rw [Decimal.isIn_iff]
    simpa [Decimal.significand, Decimal.places] using inside
  obtain ⟨i, distance⟩ : ∃ i : Nat, startExponent (k * 2 ^ (s + 1)) - i = -3 :=
    ⟨(startExponent (k * 2 ^ (s + 1)) + 3).toNat, by omega⟩
  have found := onGrid?_isSome (contains_self low high) millis
  rw [← distance] at found
  obtain ⟨isIn, coarse, _⟩ := searchGrids_isIn (by omega : i < 24) found
  exact ⟨isIn, distance ▸ coarse⟩

/-- Two decimals in the interval of a number differ by no more than its last place. -/
theorem significand_le (low : 2 ^ 52 ≤ k) (high : k < 2 ^ 53)
    (inside : (roundingInterval (k * 2 ^ (s + 1))).contains (4 * (m * one)) 1000 = true)
    (most : s < 1065) (isIn : x.IsIn (k * 2 ^ (s + 1))) :
    x.significand * 1000 ≤ 10 ^ x.places * (m + 2) := by
  obtain ⟨e, same⟩ : ∃ e, e = 1074 := ⟨_, rfl⟩
  obtain ⟨⟨below, _, _⟩, _⟩ := (contains_iff (s := s + 1) low high (by omega)).mp inside
  obtain ⟨⟨_, above, _⟩, _⟩ :=
    (contains_iff (s := s + 1) low high (by omega)).mp (Decimal.isIn_iff.mp isIn)
  have place : 500 * 2 ^ (s + 1) ≤ one := by
    calc 500 * 2 ^ (s + 1) ≤ 2 ^ 9 * 2 ^ (s + 1) := Nat.mul_le_mul_right _ (by decide)
      _ ≤ one := by
        rw [one_eq same, ← Nat.pow_add]
        exact Nat.pow_le_pow_right (by decide) (by omega)
  generalize 10 ^ x.places = power at *
  generalize 2 ^ (s + 1) = last at *
  refine Nat.le_of_mul_le_mul_right ?_ (Nat.mul_pos Nat.two_pos one_pos)
  calc x.significand * 1000 * (2 * one) = 1000 * (2 * (x.significand * one)) := by ring
    _ ≤ 1000 * (2 * (k * (power * last)) + power * last) := Nat.mul_le_mul_left _ above
    _ = power * (2 * (k * (1000 * last))) + power * (1000 * last) := by ring
    _ ≤ power * (2 * (m * one) + 1000 * last) + power * (1000 * last) :=
      Nat.add_le_add_right (Nat.mul_le_mul_left _ below) _
    _ = power * (2 * (m * one) + 4 * (500 * last)) := by ring
    _ ≤ power * (2 * (m * one) + 4 * one) :=
      Nat.mul_le_mul_left _ (Nat.add_le_add_left (Nat.mul_le_mul_left _ place) _)
    _ = power * (m + 2) * (2 * one) := by ring

/-! ### Texts -/

/-- Digits with a point between them, of which the first is zero only if it stands alone. -/
structure IsPointed (whole fraction : List Char) : Prop where
  digits : ∀ c ∈ whole ++ fraction, isDigit c = true
  before : whole ≠ []
  behind : fraction ≠ []
  first : whole.head? = some '0' → whole.length = 1

private theorem ofDigits_append_zeros (ds : List Char) (count : Nat) :
    ofDigits (ds ++ zeros count) = ofDigits ds * 10 ^ count := by
  induction count with
  | zero => simp [zeros]
  | succ count ih =>
    rw [zeros, List.replicate_succ', ← List.append_assoc, ofDigits_concat, ← zeros, ih]
    rw [show digitValue '0' = 0 from rfl, Nat.pow_succ]
    ring

private theorem isDigit_zeros (count : Nat) : ∀ c ∈ zeros count, isDigit c = true := by
  intro c inside
  rw [List.eq_of_mem_replicate inside]
  rfl

/-- The text of a decimal has no exponent if the point is close to its digits. -/
theorem decimalChars_eq (positive : 0 < x.digits) (close : -5 < (digits x.digits).length + x.exponent)
    (short : (digits x.digits).length + x.exponent ≤ 16) :
    ∃ whole fraction, decimalChars x = whole ++ '.' :: fraction ∧ IsPointed whole fraction ∧
      whole.length ≤ 16 ∧ fraction.length = x.places ∧
      ofDigits (whole ++ fraction) = x.significand := by
  have all := isDigit_of_mem_digits x.digits
  have some_ := digits_ne_nil x.digits
  have first := head?_digits positive
  have value := ofDigits_digits x.digits
  unfold decimalChars Decimal.significand Decimal.places
  dsimp only
  generalize digits x.digits = ds at *
  have long : 0 < ds.length := List.length_pos_iff.mpr some_
  by_cases whole : 0 ≤ x.exponent
  · have text : (decide (0 ≤ x.exponent) && decide (↑ds.length + x.exponent ≤ 16)) = true := by
      simp [whole, short]
    rw [if_pos text, if_pos whole]
    refine ⟨ds ++ zeros x.exponent.toNat, ['0'], by simp, ⟨?_, by simp [some_], by simp, ?_⟩, ?_,
      rfl, ?_⟩
    · intro c inside
      simp only [List.mem_append, List.mem_singleton] at inside
      rcases inside with (own | zero) | rfl
      · exact all c own
      · exact isDigit_zeros _ c zero
      · rfl
    · intro zero
      obtain ⟨c, rest, rfl⟩ := List.exists_cons_of_ne_nil some_
      exact absurd zero first
    · rw [List.length_append, zeros, List.length_replicate]
      omega
    · have tail : zeros x.exponent.toNat ++ ['0'] = zeros (x.exponent + (1 : Nat)).toNat := by
        rw [show (x.exponent + (1 : Nat)).toNat = x.exponent.toNat + 1 by omega, zeros, zeros,
          List.replicate_succ']
      rw [List.append_assoc, tail, ofDigits_append_zeros, value]
  · have places : (if 0 ≤ x.exponent then 1 else x.exponent.natAbs) = x.exponent.natAbs :=
      if_neg whole
    have power : (x.exponent + (x.exponent.natAbs : Nat)).toNat = 0 := by omega
    rw [places, power, Nat.pow_zero, Nat.mul_one, if_neg (by simp [whole])]
    by_cases inner : 0 < (ds.length : Int) + x.exponent
    · have cut : ((ds.length : Int) + x.exponent).toNat < ds.length := by omega
      rw [if_pos (by simp [inner, short])]
      refine ⟨ds.take ((ds.length : Int) + x.exponent).toNat,
        ds.drop ((ds.length : Int) + x.exponent).toNat, rfl, ⟨?_, ?_, ?_, ?_⟩, ?_, ?_, ?_⟩
      · rwa [List.take_append_drop]
      · simp only [ne_eq, List.take_eq_nil_iff, not_or]
        exact ⟨by omega, some_⟩
      · simp only [ne_eq, List.drop_eq_nil_iff]
        omega
      · intro zero
        rw [List.head?_take, if_neg (by omega)] at zero
        exact absurd zero first
      · rw [List.length_take]
        omega
      · rw [List.length_drop]
        omega
      · rw [List.take_append_drop, value]
    · rw [if_neg (by simp [inner]), if_pos (by simp; omega)]
      refine ⟨['0'], zeros ((ds.length : Int) + x.exponent).natAbs ++ ds, rfl,
        ⟨?_, by simp, by simp [some_], by simp⟩, by simp, ?_, ?_⟩
      · intro c inside
        simp only [List.mem_append, List.mem_singleton] at inside
        rcases inside with rfl | zero | own
        · rfl
        · exact isDigit_zeros _ c zero
        · exact all c own
      · rw [List.length_append, zeros, List.length_replicate]
        omega
      · have zero : ['0'] ++ (zeros ((ds.length : Int) + x.exponent).natAbs ++ ds) =
            List.replicate (((ds.length : Int) + x.exponent).natAbs + 1) '0' ++ ds := by
          rw [zeros, List.replicate_succ]
          rfl
        rw [zero, ofDigits_zeros, value]

end Rota.Binary64

namespace Rota.Json.Numeral
open Rota.Text Rota.Binary64

variable {whole fraction : List Char}

/-! ### Reading -/

private theorem scanWhole_pointed (negative : Bool) (pointed : IsPointed whole fraction) :
    scanWhole negative (whole ++ '.' :: fraction) =
      .done ⟨negative, whole, some fraction, none⟩ [] := by
  obtain ⟨digits, before, behind, first⟩ := pointed
  have run : (whole ++ '.' :: fraction).takeWhile isDigit = whole := by
    refine takeWhile_isDigit (fun c inside => digits c (List.mem_append_left _ inside)) ?_
    rintro c ⟨⟩
    rfl
  have run' : (fraction ++ []).takeWhile isDigit = fraction :=
    takeWhile_isDigit (fun c inside => digits c (List.mem_append_right _ inside)) (by simp)
  rw [List.append_nil] at run'
  have ahead : ¬(decide (whole.head? = some '0') && decide (1 < whole.length)) = true := by
    simp only [Bool.and_eq_true, decide_eq_true_eq, not_and, Nat.not_lt]
    exact fun zero => Nat.le_of_eq (first zero)
  unfold scanWhole
  dsimp only
  rw [run, if_neg (by simpa using before), if_neg ahead, List.drop_left, scanFraction, if_pos rfl,
    run']
  dsimp only
  rw [if_neg (by simpa using behind), List.drop_length, scanExponent]

theorem scan_pointed (negative : Bool) (pointed : IsPointed whole fraction) :
    scan (if negative then '-' :: (whole ++ '.' :: fraction) else whole ++ '.' :: fraction) =
      .done ⟨negative, whole, some fraction, none⟩ [] := by
  cases negative with
  | true => exact scanWhole_pointed true pointed
  | false =>
    obtain ⟨c, rest, rfl⟩ := List.exists_cons_of_ne_nil pointed.before
    have isDigit := pointed.digits c (by simp)
    have sign : c ≠ '-' := by
      rintro rfl
      cases isDigit
    rw [← scanWhole_pointed false pointed]
    exact scan_unsigned sign

private theorem value?_pointed (negative : Bool)
    (fits : ofDigits (whole ++ fraction) < 18446744073709551616) :
    value? ⟨negative, whole, some fraction, none⟩ =
      (ofScaled? negative (ofDigits (whole ++ fraction)) (-(fraction.length : Int))).map .real := by
  have split : ofDigits (whole ++ fraction) =
      fraction.foldl (fun n c => 10 * n + digitValue c) (ofDigits whole) := List.foldl_append
  rw [split] at fits ⊢
  have front : gather 0 whole = (ofDigits whole, 0) :=
    gather_eq 0 whole (Nat.lt_of_le_of_lt (le_foldl_digits (ofDigits whole) fraction) fits)
  unfold value?
  rw [front]
  dsimp only [Option.getD_some]
  rw [gather_eq _ _ fits]
  simp [scaled?]

end Rota.Json.Numeral

namespace Rota.Binary64
open Rota.Text

variable {m k s : Nat} {x : Decimal}

private theorem digits_pos (low : 2 ^ 52 ≤ k) (high : k < 2 ^ 53)
    (isIn : x.IsIn (k * 2 ^ (s + 1))) :
    0 < x.digits := by
  obtain ⟨⟨below, _, _⟩, _⟩ :=
    (contains_iff (s := s + 1) low high (by omega)).mp (Decimal.isIn_iff.mp isIn)
  refine Nat.pos_of_ne_zero fun zero => ?_
  have none_ : x.significand = 0 := by rw [Decimal.significand, zero, Nat.zero_mul]
  have positive : 0 < 10 ^ x.places * 2 ^ (s + 1) :=
    Nat.mul_pos (Nat.pow_pos (by decide)) (Nat.two_pow_pos _)
  have many : 2 ^ 52 * (10 ^ x.places * 2 ^ (s + 1)) ≤ k * (10 ^ x.places * 2 ^ (s + 1)) :=
    Nat.mul_le_mul_right _ low
  rw [none_, Nat.zero_mul] at below
  omega

/-- The point of a short decimal is among its first 16 digits. -/
theorem length_digits (small : m + 2 < 10 ^ 16) (positive : 0 < x.digits) (fine : -3 ≤ x.exponent)
    (bound : x.significand * 1000 ≤ 10 ^ x.places * (m + 2)) :
    (digits x.digits).length + x.exponent ≤ 16 := by
  unfold Decimal.significand Decimal.places at bound
  split at bound
  next whole =>
    obtain ⟨i, same⟩ := Int.eq_ofNat_of_zero_le whole
    rw [same, show ((i : Int) + (1 : Nat)).toNat = i + 1 by omega] at bound
    have few : x.digits * 10 ^ (i + 3) < 10 ^ 16 := by
      have split : x.digits * 10 ^ (i + 3) * 10 = x.digits * 10 ^ (i + 1) * 1000 := by ring
      omega
    have inside : i + 3 < 16 := by
      have least : 10 ^ (i + 3) ≤ x.digits * 10 ^ (i + 3) := Nat.le_mul_of_pos_left _ positive
      exact (Nat.pow_lt_pow_iff_right (by decide)).mp (Nat.lt_of_le_of_lt least few)
    have less : x.digits < 10 ^ (13 - i) := by
      have split : 10 ^ 16 = 10 ^ (13 - i) * 10 ^ (i + 3) := by
        rw [← Nat.pow_add]
        congr 1
        omega
      exact Nat.lt_of_mul_lt_mul_right (split ▸ few)
    have := length_digits_le (by omega) less
    omega
  next fraction =>
    have power : (x.exponent + (x.exponent.natAbs : Nat)).toNat = 0 := by omega
    rw [power, Nat.pow_zero, Nat.mul_one] at bound
    have place : 10 ^ x.exponent.natAbs ≤ 10 ^ 3 := Nat.pow_le_pow_right (by decide) (by omega)
    have few := Nat.le_trans bound (Nat.mul_le_mul_right (m + 2) place)
    have := length_digits_le (n := x.digits) (by decide : 0 < 16) (by omega)
    omega

theorem reread_of_scan {x y : Binary64} {n : Json.Numeral} {rest : List Char}
    (scanned : Json.Numeral.scan x.chars = .done n rest) (value : n.value? = some (.real y)) :
    x.reread = y := by
  unfold reread
  rw [scanned]
  dsimp only
  rw [value]

/-- Milliseconds of fewer than 2^52 microseconds are read as they were written. -/
theorem reread_quotient (negative : Bool) (positive : 0 < m) (small : m < 2 ^ 52) :
    (quotient negative m 1000).reread = quotient negative m 1000 := by
  obtain ⟨k, s, low, high, rounded, inside, least, most⟩ := roundUnits_millis positive small
  obtain ⟨isIn, fine⟩ := shortest_millis low high inside least most
  have bound := significand_le low high inside most isIn
  have same : quotient negative m 1000 = ⟨negative, k * 2 ^ (s + 1)⟩ := by rw [quotient, rounded]
  have nonzero : k * 2 ^ (s + 1) ≠ 0 :=
    Nat.mul_ne_zero (by omega) (Nat.ne_of_gt (Nat.two_pow_pos _))
  have written : (quotient negative m 1000).chars =
      if negative then '-' :: decimalChars (shortest (k * 2 ^ (s + 1)))
      else decimalChars (shortest (k * 2 ^ (s + 1))) := by
    rw [same, chars, if_neg nonzero]
  generalize shortest (k * 2 ^ (s + 1)) = x at *
  have places : 0 < x.places ∧ x.places ≤ 3 := by
    unfold Decimal.places
    split <;> omega
  have power : 10 ^ x.places ≤ 10 ^ 3 := Nat.pow_le_pow_right (by decide) places.2
  have few : x.significand ≤ m + 2 := by
    have := Nat.le_trans bound (Nat.mul_le_mul_right (m + 2) power)
    omega
  have some_ := digits_pos low high isIn
  have short := length_digits (by omega) some_ fine bound
  have long : 0 < (digits x.digits).length := List.length_pos_iff.mpr (digits_ne_nil _)
  obtain ⟨whole, fraction, text, pointed, _, length, value⟩ :=
    decimalChars_eq some_ (by omega) short
  have read := Json.Numeral.scan_pointed negative pointed
  rw [← text, ← written] at read
  have fits : ofDigits (whole ++ fraction) < 18446744073709551616 := by
    rw [value]
    omega
  have real := Json.Numeral.value?_pointed negative fits
  rw [value, length, ofScaled?_eq negative (by omega) places.1 places.2] at real
  have equal : quotient negative x.significand (10 ^ x.places) = quotient negative m 1000 := by
    rw [same, quotient,
      roundUnits_of_contains low high (Nat.pow_pos (by decide)) (Decimal.isIn_iff.mp isIn)]
  rw [equal, Option.map_some] at real
  exact reread_of_scan read real

/-- A duration of less than 2^52 microseconds is read as it was written. -/
theorem reread_millisOfNanos {nanos : Int} (short : (nanos.tdiv 1000).natAbs < 2 ^ 52) :
    (millisOfNanos nanos).reread = millisOfNanos nanos := by
  rw [millisOfNanos_eq (by omega)]
  rcases Nat.eq_zero_or_pos (nanos.tdiv 1000).natAbs with none_ | some_
  · rw [Int.natAbs_eq_zero.mp none_]
    decide +kernel
  · exact reread_quotient _ some_ short

-- Longer ones may not be: this is one of little more than 2^53 microseconds.
example : (millisOfNanos 9007205254741034000).reread ≠ millisOfNanos 9007205254741034000 := by
  decide +kernel

end Rota.Binary64
