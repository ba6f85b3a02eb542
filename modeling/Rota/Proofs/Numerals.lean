import Rota.Proofs.Durations
import Mathlib.Tactic.NormNum
/-! Every number is read from its text as a number.
What is read need not be the number that was written, but there is one. Only the greatest numbers
are in danger: their decimals may be rounded up, and so may the power of ten by which they are
scaled. All but three of them keep a distance from the limit that these roundings cannot bridge. -/
namespace Rota.Binary64
open Rota.Text

variable {n d f k s : Nat} {units : Nat}

/-- The number has a significand of at most 53 bits and an exponent that is not too large. -/
def IsFinite (x : Binary64) : Prop := ∃ k s, x.units = k * 2 ^ s ∧ k < 2 ^ 53 ∧ s ≤ 2045

/-! ### How far rounding leads -/

private theorem lt_pow_excess (f : Nat) : f < 2 ^ 53 * 2 ^ excess f := by
  have bits : f.log2 + 1 ≤ 53 + excess f := by
    unfold excess
    omega
  calc f < 2 ^ (f.log2 + 1) := Nat.lt_log2_self
    _ ≤ 2 ^ (53 + excess f) := Nat.pow_le_pow_right Nat.two_pos bits
    _ = 2 ^ 53 * 2 ^ excess f := Nat.pow_add 2 53 _

private theorem excess_le (below : f < 2 ^ 53 * 2 ^ s) : excess f ≤ s := by
  rcases Nat.eq_zero_or_pos f with rfl | positive
  · exact Nat.zero_le s
  · rw [← Nat.pow_add] at below
    have log := (Nat.log2_lt (Nat.ne_of_gt positive)).mpr below
    unfold excess
    omega

private theorem pow_excess_le (positive : 0 < f) : 2 ^ excess f ≤ f :=
  Nat.le_trans (Nat.pow_le_pow_right Nat.two_pos (Nat.sub_le _ _))
    (Nat.log2_self_le (Nat.ne_of_gt positive))

/-- Rounding adds one part in 2^53 at most. -/
theorem roundUnits_relative (positive : 0 < d) (large : 2 ^ 52 ≤ n / d) :
    2 ^ 53 * (roundUnits n d * d) ≤ (2 ^ 53 + 1) * n := by
  have nonzero : n / d ≠ 0 := by omega
  have log : 52 + excess (n / d) = (n / d).log2 := by
    have := (Nat.le_log2 nonzero).mpr large
    unfold excess
    omega
  have least : 2 ^ 52 * (d * 2 ^ excess (n / d)) ≤ n := by
    have bound := Nat.log2_self_le nonzero
    rw [← log, Nat.le_div_iff_mul_le positive, Nat.pow_add] at bound
    calc _ = 2 ^ 52 * 2 ^ excess (n / d) * d := by ring
      _ ≤ n := bound
  have nearest := isNearest_divideToEven n
    (Nat.mul_pos positive (Nat.two_pow_pos (excess (n / d))))
  rw [roundUnits_of_excess rfl positive nearest]
  have low := nearest.low
  generalize divideToEven n (d * 2 ^ excess (n / d)) = k at low
  generalize 2 ^ excess (n / d) = q at *
  calc 2 ^ 53 * (k * q * d) = 2 ^ 52 * (2 * (k * (d * q))) := by ring
    _ ≤ 2 ^ 52 * (2 * n + d * q) := Nat.mul_le_mul_left _ low
    _ = 2 ^ 53 * n + 2 ^ 52 * (d * q) := by ring
    _ ≤ 2 ^ 53 * n + n := Nat.add_le_add_left least _
    _ = (2 ^ 53 + 1) * n := by ring

/-- What lies more than half a place below a power of two is not rounded up to it. -/
theorem roundUnits_lt (positive : 0 < d) (below : n < d * ((2 ^ 54 - 1) * 2 ^ s)) :
    roundUnits n d < 2 ^ 54 * 2 ^ s := by
  have whole : n / d < 2 ^ 53 * 2 ^ (s + 1) := by
    rw [Nat.div_lt_iff_lt_mul positive]
    calc n < d * ((2 ^ 54 - 1) * 2 ^ s) := below
      _ ≤ d * (2 ^ 54 * 2 ^ s) := Nat.mul_le_mul_left _ (Nat.mul_le_mul_right _ (by decide))
      _ = 2 ^ 53 * 2 ^ (s + 1) * d := by ring
  have small := excess_le whole
  have nearest := isNearest_divideToEven n
    (Nat.mul_pos positive (Nat.two_pow_pos (excess (n / d))))
  have top : n < 2 ^ 53 * (d * 2 ^ excess (n / d)) := by
    have := (Nat.div_lt_iff_lt_mul positive).mp (lt_pow_excess (n / d))
    calc n < 2 ^ 53 * 2 ^ excess (n / d) * d := this
      _ = 2 ^ 53 * (d * 2 ^ excess (n / d)) := by ring
  rw [roundUnits_of_excess rfl positive nearest]
  have low := nearest.low
  have place := Nat.mul_pos positive (Nat.two_pow_pos (excess (n / d)))
  generalize divideToEven n (d * 2 ^ excess (n / d)) = k at low ⊢
  rcases Nat.lt_or_eq_of_le small with less | same
  · have most : k ≤ 2 ^ 53 := by
      by_contra more
      have := Nat.mul_le_mul_right (d * 2 ^ excess (n / d)) (Nat.lt_of_not_le more)
      rw [Nat.succ_mul] at this
      omega
    calc k * 2 ^ excess (n / d) ≤ 2 ^ 53 * 2 ^ s :=
          Nat.mul_le_mul most (Nat.pow_le_pow_right Nat.two_pos (by omega))
      _ < 2 ^ 54 * 2 ^ s := Nat.mul_lt_mul_of_pos_right (by decide) (Nat.two_pow_pos s)
  · -- The last place is the one of the power itself, and half of it is missing.
    rw [same] at low place ⊢
    have half : d * 2 ^ (s + 1) = 2 * (d * 2 ^ s) := by ring
    have bound : d * ((2 ^ 54 - 1) * 2 ^ s) = (2 ^ 54 - 1) * (d * 2 ^ s) := by ring
    have less : k < 2 ^ 53 := by
      by_contra more
      have := Nat.mul_le_mul_right (d * 2 ^ (s + 1)) (Nat.le_of_not_lt more)
      omega
    calc k * 2 ^ (s + 1) < 2 ^ 53 * 2 ^ (s + 1) :=
          Nat.mul_lt_mul_of_pos_right less (Nat.two_pow_pos _)
      _ = 2 ^ 54 * 2 ^ s := by ring

/-! ### Scaling -/

variable {m power : Nat}

private theorem ofUnits?_some (negative : Bool) (positive : 0 < d) (limit : s + 54 = 2098)
    (below : n < d * ((2 ^ 54 - 1) * 2 ^ s)) :
    ofUnits? negative n d = some ⟨negative, roundUnits n d⟩ := by
  have top : 2 ^ 54 * 2 ^ s = Nat.pow 2 2098 := by
    rw [← limit, Nat.pow_eq, ← Nat.pow_add, Nat.add_comm]
  unfold ofUnits?
  dsimp only
  rw [if_pos (top ▸ roundUnits_lt positive below)]

theorem wide (few : m < 2 ^ 64) (limit : s + 54 = 2098) : m * one < 2 ^ 2 * 2 ^ s := by
  calc m * one < 2 ^ 64 * one := Nat.mul_lt_mul_of_pos_right few one_pos
    _ ≤ 2 ^ 2 * 2 ^ s := by
      rw [one_eq (e := s - 970) (by omega), ← Nat.pow_add, ← Nat.pow_add]
      exact Nat.pow_le_pow_right Nat.two_pos (by omega)

private theorem ofNat?_some (few : m < 2 ^ 64) :
    ofNat? m = some ⟨false, roundUnits (m * one) 1⟩ := by
  obtain ⟨s, limit⟩ : ∃ s, s + 54 = 2098 := ⟨2044, rfl⟩
  refine ofUnits?_some false Nat.one_pos limit ?_
  rw [Nat.one_mul]
  exact Nat.lt_of_lt_of_le (wide few limit) (Nat.mul_le_mul_right _ (by decide))

private theorem power_le (limit : s + 54 = 2098) (below : 10 ^ power * one ≤ 2 ^ 54 * 2 ^ s) :
    power ≤ 308 := by
  by_contra more
  obtain ⟨c, eleven⟩ : ∃ c, c = 11 := ⟨_, rfl⟩
  obtain ⟨i, same⟩ : ∃ i, power = 28 * c + 1 + i := ⟨power - 309, by omega⟩
  have top : 2 * (2 ^ 93) ^ c < 10 * (10 ^ 28) ^ c :=
    Nat.mul_lt_mul_of_lt_of_le (by decide) (Nat.pow_le_pow_left (by decide) c)
      (Nat.pow_pos (by decide))
  have many : 10 * (10 ^ 28) ^ c ≤ 10 ^ power := by
    rw [same, Nat.pow_add, Nat.pow_add, Nat.pow_mul, Nat.pow_one, Nat.mul_comm 10]
    exact Nat.le_mul_of_pos_right _ (Nat.pow_pos (by decide))
  have bits : 2 ^ 54 * 2 ^ s = 2 * (2 ^ 93) ^ c * one := by
    have exponent : 54 + s = 93 * c + 1 + (s - 970) := by omega
    rw [← Nat.pow_add, exponent, Nat.pow_add, Nat.pow_add, Nat.pow_mul, Nat.pow_one,
      Nat.mul_comm _ 2, one_eq (by omega : s - 970 = 1074)]
  rw [bits] at below
  exact Nat.lt_irrefl _ (Nat.lt_of_lt_of_le top
    (Nat.le_trans many (Nat.le_of_mul_le_mul_right below one_pos)))

private theorem tenTo_eq (limit : s + 54 = 2098) (below : 10 ^ power * one < (2 ^ 54 - 1) * 2 ^ s) :
    tenTo power = ⟨false, roundUnits (10 ^ power * one) 1⟩ := by
  rw [tenTo, ofNat?, Nat.pow_eq, ofUnits?_some false Nat.one_pos limit (by rwa [Nat.one_mul])]
  rfl

/-- A significand that is scaled up stays a number if its decimal keeps three places and a half from
the limit. -/
theorem ofScaled?_up (negative : Bool) (few : m < 2 ^ 64) (limit : s + 54 = 2098)
    (below : m * 10 ^ power * one ≤ (2 ^ 54 - 7) * 2 ^ s) :
    ∃ y, ofScaled? negative m power = some y := by
  unfold ofScaled?
  rw [ofNat?_some few]
  dsimp only [Option.bind_eq_bind, Option.bind_some]
  rw [if_pos (Int.natCast_nonneg power), Int.toNat_natCast]
  rcases Nat.eq_zero_or_pos m with rfl | positive
  · rw [roundUnits_whole (by decide), Nat.zero_mul]
    split
    next =>
      rw [mul?, ofUnits?_some _ one_pos limit (by
        rw [Nat.zero_mul]
        exact Nat.mul_pos one_pos (Nat.mul_pos (by decide) (Nat.two_pow_pos s)))]
      exact ⟨_, rfl⟩
    next => exact ⟨_, rfl⟩
  have place := Nat.two_pow_pos s
  have tens : 10 ^ power * one ≤ m * 10 ^ power * one :=
    Nat.mul_le_mul_right _ (Nat.le_mul_of_pos_left _ positive)
  have inside : power ≤ 308 := power_le limit (by omega)
  have large {i : Nat} (positive : 0 < i) : 2 ^ 52 ≤ i * one / 1 := by
    rw [Nat.div_one]
    refine Nat.le_trans ?_ (Nat.le_mul_of_pos_left one positive)
    rw [one_eq (e := s - 970) (by omega)]
    exact Nat.pow_le_pow_right Nat.two_pos (by omega)
  -- Half a place may be lost where each of the factors is rounded, and one where the product is.
  have first := roundUnits_relative Nat.one_pos (large positive)
  have second := roundUnits_relative Nat.one_pos
    (large (Nat.pow_pos (n := power) (by decide : 0 < 10)))
  rw [if_pos (by omega), tenTo_eq limit (by omega), mul?]
  generalize roundUnits (m * one) 1 = x at *
  generalize roundUnits (10 ^ power * one) 1 = y at *
  rw [Nat.mul_one] at first second
  have product : x * y < one * ((2 ^ 54 - 1) * 2 ^ s) := by
    refine Nat.lt_of_mul_lt_mul_left (a := 2 ^ 106) ?_
    calc 2 ^ 106 * (x * y) = 2 ^ 53 * x * (2 ^ 53 * y) := by ring
      _ ≤ (2 ^ 53 + 1) * (m * one) * ((2 ^ 53 + 1) * (10 ^ power * one)) :=
        Nat.mul_le_mul first second
      _ = (2 ^ 53 + 1) ^ 2 * (m * 10 ^ power * one) * one := by ring
      _ ≤ (2 ^ 53 + 1) ^ 2 * ((2 ^ 54 - 7) * 2 ^ s) * one :=
        Nat.mul_le_mul_right _ (Nat.mul_le_mul_left _ below)
      _ = (2 ^ 53 + 1) ^ 2 * (2 ^ 54 - 7) * (one * 2 ^ s) := by ring
      _ < 2 ^ 106 * (2 ^ 54 - 1) * (one * 2 ^ s) :=
        Nat.mul_lt_mul_of_pos_right (by decide) (Nat.mul_pos one_pos place)
      _ = 2 ^ 106 * (one * ((2 ^ 54 - 1) * 2 ^ s)) := by ring
  rw [ofUnits?_some _ one_pos limit product]
  exact ⟨_, rfl⟩

/-- A significand that is scaled down stays a number. -/
theorem ofScaled?_nonpos (negative : Bool) (few : m < 2 ^ 64) (c : Nat) :
    ∃ y, ofScaled? negative m (-(c : Int)) = some y := by
  rcases Nat.eq_zero_or_pos c with rfl | positive
  · obtain ⟨s, limit⟩ : ∃ s, s + 54 = 2098 := ⟨2044, rfl⟩
    rw [show -((0 : Nat) : Int) = (0 : Nat) from rfl]
    refine ofScaled?_up negative few limit ?_
    rw [Nat.pow_zero, Nat.mul_one]
    exact Nat.le_of_lt (Nat.lt_of_lt_of_le (wide few limit) (Nat.mul_le_mul_right _ (by decide)))
  · unfold ofScaled?
    rw [ofNat?_some few]
    dsimp only [Option.bind_eq_bind, Option.bind_some]
    rw [if_neg (by omega)]
    exact ⟨_, rfl⟩

/-! ### The shortest decimal -/

variable {x : Decimal} {e : Int}

/-- A decimal in the interval of a number is not zero, and at most half a place above it. -/
theorem Decimal.IsIn.bounds (isIn : x.IsIn units) (positive : 0 < units) :
    0 < x.digits ∧ x.digits * (gridStep x.exponent).1 ≤
      (4 * units + 2 * 2 ^ excess units) * (gridStep x.exponent).2 := by
  have scale := (gridStep_pos x.exponent).2
  have quantum := pow_excess_le positive
  unfold IsIn Interval.contains roundingInterval at isIn
  dsimp only [Nat.pow_eq] at isIn
  have low : 0 < (4 * units -
      (if (decide (units = 2 ^ units.log2) && decide (53 ≤ units.log2)) = true
        then 2 ^ excess units else 2 * 2 ^ excess units)) * (gridStep x.exponent).2 := by
    refine Nat.mul_pos ?_ scale
    split <;> omega
  generalize (4 * units - _) * (gridStep x.exponent).2 = bound at isIn low
  have inside : bound ≤ x.digits * (gridStep x.exponent).1 ∧ x.digits * (gridStep x.exponent).1 ≤
      (4 * units + 2 * 2 ^ excess units) * (gridStep x.exponent).2 := by
    split at isIn
    all_goals
      rw [Bool.and_eq_true, decide_eq_true_eq, decide_eq_true_eq] at isIn
      omega
  refine ⟨Nat.pos_of_ne_zero fun zero => ?_, inside.2⟩
  rw [zero, Nat.zero_mul] at inside
  omega

/-- The search gives a decimal in the interval of the number, or the one below the number on the
last grid. -/
theorem searchGrids_cases (units fuel : Nat) (e : Int) :
    e - fuel ≤ (searchGrids units fuel e).exponent ∧ (searchGrids units fuel e).exponent ≤ e ∧
      ((searchGrids units fuel e).IsIn units ∨ searchGrids units fuel e =
        ⟨4 * units * (gridStep (e - fuel)).2 / (gridStep (e - fuel)).1, e - fuel⟩) := by
  induction fuel generalizing e with
  | zero => exact ⟨by simp [searchGrids], by simp [searchGrids], Or.inr (by simp [searchGrids])⟩
  | succ fuel ih =>
    rw [searchGrids]
    split
    next x found =>
      obtain ⟨rfl, isIn⟩ := onGrid?_isIn found
      exact ⟨by omega, Int.le_refl _, Or.inl isIn⟩
    next =>
      obtain ⟨low, high, cases_⟩ := ih (e - 1)
      have last : e - 1 - (fuel : Nat) = e - (fuel + 1 : Nat) := by omega
      rw [last] at low cases_
      exact ⟨low, by omega, cases_⟩

def lastGrid (bits : Nat) : Int := ((bits : Int) - 1074 + 1) * 30103 / 100000 + 1 - 24

private theorem lastGrid_fine {bits : Nat} (few : bits < 2098) :
    (gridStep (lastGrid bits)).1 ≤ 4 * 2 ^ bits * (gridStep (lastGrid bits)).2 := by
  have all : (List.range 2098).all (fun bits => decide ((gridStep (lastGrid bits)).1 ≤
      4 * 2 ^ bits * (gridStep (lastGrid bits)).2)) = true := by
    decide +kernel
  exact of_decide_eq_true (List.all_eq_true.mp all bits (List.mem_range.mpr few))

private theorem shortest_bounds (positive : 0 < units) (bits : units.log2 < 2098) :
    0 < (shortest units).digits ∧
      (shortest units).digits * (gridStep (shortest units).exponent).1 ≤
        (4 * units + 2 * 2 ^ excess units) * (gridStep (shortest units).exponent).2 ∧
      -350 ≤ (shortest units).exponent ∧ (shortest units).exponent ≤ 350 := by
  have start : startExponent units - (24 : Nat) = lastGrid units.log2 := rfl
  have range : -326 ≤ startExponent units ∧ startExponent units ≤ 326 := by
    unfold startExponent
    omega
  obtain ⟨low, high, isIn | last⟩ := searchGrids_cases units 24 (startExponent units)
  · obtain ⟨some_, most⟩ := isIn.bounds positive
    exact ⟨some_, most, by unfold shortest; omega, by unfold shortest; omega⟩
  · rw [← shortest, start] at last
    rw [last]
    have fine := lastGrid_fine bits
    have least := Nat.log2_self_le (Nat.ne_of_gt positive)
    have step := (gridStep_pos (lastGrid units.log2)).1
    refine ⟨Nat.div_pos (Nat.le_trans fine ?_) step, ?_, ?_, ?_⟩
    · exact Nat.mul_le_mul_right _ (Nat.mul_le_mul_left 4 least)
    · refine Nat.le_trans (Nat.div_mul_le_self _ _) (Nat.mul_le_mul_right _ ?_)
      omega
    all_goals
      rw [← start]
      dsimp only
      omega

private theorem length_shortest (positive : 0 < units) (bits : units.log2 < 2098) :
    (digits (shortest units).digits).length ≤ 1100 := by
  obtain ⟨_, most, low, high⟩ := shortest_bounds positive bits
  obtain ⟨a, same⟩ : ∃ a, a = 700 := ⟨_, rfl⟩
  obtain ⟨b, same'⟩ : ∃ b, b = 350 := ⟨_, rfl⟩
  have step := (gridStep_pos (shortest units).exponent).1
  have scale : (gridStep (shortest units).exponent).2 ≤ 10 ^ b := by
    unfold gridStep
    split
    next => exact Nat.pow_pos (by decide)
    next => exact Nat.pow_le_pow_right (by decide) (by omega)
  have below : units < 10 ^ a := by
    calc units < 2 ^ (units.log2 + 1) := Nat.lt_log2_self
      _ ≤ 2 ^ (3 * a) := Nat.pow_le_pow_right Nat.two_pos (by omega)
      _ = (2 ^ 3) ^ a := Nat.pow_mul 2 3 a
      _ ≤ 10 ^ a := Nat.pow_le_pow_left (by decide) a
  have quantum := pow_excess_le positive
  refine Nat.le_trans (length_digits_le (show 0 < 1 + a + b by omega) ?_) (by omega)
  calc (shortest units).digits ≤ (shortest units).digits * _ := Nat.le_mul_of_pos_right _ step
    _ ≤ _ := most
    _ ≤ (4 * units + 2 * 2 ^ excess units) * 10 ^ b := Nat.mul_le_mul_left _ scale
    _ < 10 * 10 ^ a * 10 ^ b := Nat.mul_lt_mul_of_pos_right (by omega) (Nat.pow_pos (by decide))
    _ = 10 ^ (1 + a + b) := by rw [Nat.pow_add, Nat.pow_add, Nat.pow_one]

/-- Far from its point, a decimal is written with one digit before the point and an exponent. -/
theorem decimalChars_scientific
    (far : ¬(-5 < (digits x.digits).length + x.exponent ∧
      (digits x.digits).length + x.exponent ≤ 16)) :
    ∃ c rest, digits x.digits = c :: rest ∧
      decimalChars x = c :: ((if rest = [] then [] else '.' :: rest) ++
        'e' :: (intText (rest.length + x.exponent)).toList) := by
  obtain ⟨c, rest, first⟩ := List.exists_cons_of_ne_nil (digits_ne_nil x.digits)
  have point : ((rest.length + 1 : Nat) : Int) + x.exponent - 1 = rest.length + x.exponent := by
    omega
  refine ⟨c, rest, first, ?_⟩
  rw [first, List.length_cons] at far
  unfold decimalChars
  dsimp only
  rw [first, List.length_cons, point, if_neg, if_neg, if_neg]
  · cases rest <;> simp
  all_goals
    simp only [Bool.and_eq_true, decide_eq_true_eq]
    omega

end Rota.Binary64

namespace Rota.Json.Numeral
open Rota.Text Rota.Binary64

variable {n : Numeral} {c : Char} {rest : List Char}

/-! ### Reading -/

private theorem scanExponent_int (n : Numeral) (i : Int) :
    scanExponent n ('e' :: (intText i).toList) =
    .done { n with exponent := some (decide (i < 0), digits i.natAbs) } [] := by
  have run : (digits i.natAbs).takeWhile isDigit = digits i.natAbs := by
    have all : (digits i.natAbs ++ []).takeWhile isDigit = digits i.natAbs :=
      takeWhile_isDigit (isDigit_of_mem_digits i.natAbs) (by simp)
    rwa [List.append_nil] at all
  have some_ := digits_ne_nil i.natAbs
  by_cases negative : i < 0
  · have text : (intText i).toList = '-' :: digits i.natAbs := by
      simp [intText, negative, natText]
    simp [scanExponent, text, run, some_, negative]
  · have text : (intText i).toList = digits i.natAbs := by
      simp [intText, negative, natText]
    obtain ⟨d, tail, same⟩ := List.exists_cons_of_ne_nil some_
    have isDigit := isDigit_of_mem_digits i.natAbs d (by simp [same])
    have sign : d ≠ '-' ∧ d ≠ '+' := by
      constructor
      all_goals
        rintro rfl
        cases isDigit
    rw [same] at run
    simp [scanExponent, text, same, run, sign, negative]

private theorem scanWhole_scientific (negative : Bool) (all : ∀ d ∈ c :: rest, isDigit d = true)
    (i : Int) :
    scanWhole negative (c :: ((if rest = [] then [] else '.' :: rest) ++
        'e' :: (intText i).toList)) =
      .done ⟨negative, [c], if rest = [] then none else some rest,
        some (decide (i < 0), digits i.natAbs)⟩ [] := by
  have run {tail : List Char} (stops : ∀ d ∈ tail.head?, isDigit d = false) :
      (c :: tail).takeWhile isDigit = [c] :=
    takeWhile_isDigit (s := [c]) (by simpa using all c List.mem_cons_self) stops
  by_cases single : rest = []
  · rw [if_pos single, if_pos single, List.nil_append]
    unfold scanWhole
    rw [run (by rintro d ⟨⟩; rfl)]
    simp only [List.isEmpty_cons, Bool.false_eq_true, if_false, List.length_singleton,
      Nat.lt_irrefl, decide_false, Bool.and_false, List.drop_one, List.tail_cons]
    rw [scanFraction, if_neg (by decide), scanExponent_int]
  · have run' : (rest ++ 'e' :: (intText i).toList).takeWhile isDigit = rest :=
      takeWhile_isDigit (fun d inside => all d (List.mem_cons_of_mem c inside)) (by
        rintro d ⟨⟩
        rfl)
    rw [if_neg single, if_neg single]
    unfold scanWhole
    rw [run (by rintro d ⟨⟩; rfl)]
    simp only [List.isEmpty_cons, Bool.false_eq_true, if_false, List.length_singleton,
      Nat.lt_irrefl, decide_false, Bool.and_false, List.drop_one, List.tail_cons, List.cons_append]
    rw [scanFraction, if_pos rfl, run']
    dsimp only
    rw [if_neg (by simpa using single), List.drop_left, scanExponent_int]

/-- The digits that have been taken stand for no more than all of them. -/
theorem gather_spec (m : Nat) (ds : List Char) :
    (gather m ds).2 ≤ ds.length ∧ (gather m ds).1 * 10 ^ (gather m ds).2 ≤
      ds.foldl (fun n c => 10 * n + digitValue c) m ∧
      (m < 2 ^ 64 → (gather m ds).1 < 2 ^ 64) := by
  have grows (m : Nat) (ds : List Char) :
      m * 10 ^ ds.length ≤ ds.foldl (fun n c => 10 * n + digitValue c) m := by
    induction ds generalizing m with
    | nil => simp
    | cons c ds ih =>
      refine Nat.le_trans ?_ (ih (10 * m + digitValue c))
      rw [List.length_cons, Nat.pow_succ', ← Nat.mul_assoc, Nat.mul_comm m]
      exact Nat.mul_le_mul_right _ (Nat.le_add_right _ _)
  induction ds generalizing m with
  | nil => simp [gather]
  | cons c ds ih =>
    by_cases fits : 10 * m + digitValue c < 18446744073709551616
    · obtain ⟨count, value, small⟩ := ih (10 * m + digitValue c)
      rw [gather, if_pos fits]
      exact ⟨Nat.le_succ_of_le count, value, fun _ => small fits⟩
    · rw [gather, if_neg fits]
      exact ⟨Nat.le_refl _, grows m (c :: ds), id⟩

/-- Without an exponent, a few digits and a fraction are a number. -/
theorem value?_plain (negative : Bool) {whole fraction : List Char}
    (pointed : IsPointed whole fraction) (short : whole.length ≤ 16) :
    ∃ y, value? ⟨negative, whole, some fraction, none⟩ = some (.real y) := by
  have few : ofDigits whole < 2 ^ 64 := by
    have all : ∀ d ∈ whole, isDigit d = true := fun d inside =>
      pointed.digits d (List.mem_append_left _ inside)
    calc ofDigits whole < 10 ^ whole.length := ofDigits_lt all
      _ ≤ 10 ^ 16 := Nat.pow_le_pow_right (by decide) short
      _ < 2 ^ 64 := by decide
  have front : gather 0 whole = (ofDigits whole, 0) := gather_eq 0 whole few
  obtain ⟨_, _, small⟩ := gather_spec (ofDigits whole) fraction
  unfold value?
  rw [front]
  dsimp only [Option.getD_some, scaled?]
  obtain ⟨y, read⟩ := ofScaled?_nonpos negative (small few)
    (fraction.length - (gather (ofDigits whole) fraction).2)
  exact ⟨y, by simpa using read⟩

private theorem value?_exponent (negative below : Bool) (digit : isDigit c = true)
    (fraction : Option (List Char)) (ds : List Char) :
    value? ⟨negative, [c], fraction, some (below, ds)⟩ =
      (scaled? negative (gather (digitValue c) (fraction.getD [])).1
        (-((fraction.getD []).length - (gather (digitValue c) (fraction.getD [])).2 : Nat))
        (some (below, ds))).map .real := by
  have few : digitValue c < 10 := by
    have bound : ofDigits [c] < 10 ^ [c].length := ofDigits_lt (by simpa using digit)
    simpa [ofDigits_eq] using bound
  have front : gather 0 [c] = (digitValue c, 0) := by
    have all := gather_eq 0 [c] (by simp only [List.foldl_cons, List.foldl_nil]; omega)
    simpa using all
  unfold value?
  rw [front]
  cases fraction <;> simp

/-- With one digit before the point and an exponent, a decimal that keeps its distance from the
limit is a number. -/
theorem value?_scientific (negative : Bool) (fraction : Option (List Char)) {i : Int}
    (digit : isDigit c = true) (near : i.natAbs ≤ 2147483647)
    (scales : ∀ m dropped, m < 2 ^ 64 → m * 10 ^ dropped ≤ ofDigits (c :: fraction.getD []) →
      ∃ y, ofScaled? negative m (i - (fraction.getD []).length + (dropped : Nat)) = some y) :
    ∃ y, value? ⟨negative, [c], fraction, some (decide (i < 0), digits i.natAbs)⟩ =
      some (.real y) := by
  rw [value?_exponent negative _ digit]
  generalize fraction.getD [] = rest at *
  have few : digitValue c < 2 ^ 64 := by
    unfold digitValue
    have := isDigit_iff.mp digit
    omega
  obtain ⟨count, value, small⟩ := gather_spec (digitValue c) rest
  obtain ⟨y, read⟩ := scales _ _ (small few) (by simpa [ofDigits_eq] using value)
  generalize (gather (digitValue c) rest).1 = m at *
  generalize (gather (digitValue c) rest).2 = dropped at *
  have exponent : (if decide (i < 0) = true then -((rest.length - dropped : Nat) : Int) - i.natAbs
      else -((rest.length - dropped : Nat) : Int) + i.natAbs) = i - rest.length + dropped := by
    simp only [decide_eq_true_eq]
    split <;> omega
  refine ⟨y, ?_⟩
  rw [scaled?, ofDigits_digits, if_neg (by omega), exponent, read]
  rfl

end Rota.Json.Numeral

namespace Rota.Binary64
open Rota.Text Rota.Json

variable {m units s dropped : Nat} {x : Decimal}

/-- Leading digits of a decimal in reach of a number that keeps three places and a half from the
limit. -/
theorem ofScaled?_leading (negative : Bool) (few : m < 2 ^ 64) (limit : s + 54 = 2098)
    (leading : m * 10 ^ dropped ≤ x.digits)
    (reach : x.digits * (gridStep x.exponent).1 ≤
      4 * ((2 ^ 54 - 7) * 2 ^ s) * (gridStep x.exponent).2) :
    ∃ y, ofScaled? negative m (x.exponent + (dropped : Nat)) = some y := by
  by_cases up : 0 ≤ x.exponent + (dropped : Nat)
  · obtain ⟨power, same⟩ := Int.eq_ofNat_of_zero_le up
    rw [same]
    refine ofScaled?_up negative few limit ?_
    have shares := Nat.le_trans (Nat.mul_le_mul_right (gridStep x.exponent).1 leading) reach
    unfold gridStep at shares
    split at shares
    next whole =>
      have split : power = dropped + x.exponent.toNat := by omega
      refine Nat.le_of_mul_le_mul_left (c := 4) ?_ (by decide)
      calc 4 * (m * 10 ^ power * one) =
            m * 10 ^ dropped * (4 * one * 10 ^ x.exponent.toNat) := by
            rw [split, Nat.pow_add]
            ring
        _ ≤ 4 * ((2 ^ 54 - 7) * 2 ^ s) * 1 := shares
        _ = 4 * ((2 ^ 54 - 7) * 2 ^ s) := Nat.mul_one _
    next fraction =>
      have split : dropped = power + x.exponent.natAbs := by omega
      refine Nat.le_of_mul_le_mul_left (c := 4 * 10 ^ x.exponent.natAbs) ?_
        (Nat.mul_pos (by decide) (Nat.pow_pos (by decide)))
      calc 4 * 10 ^ x.exponent.natAbs * (m * 10 ^ power * one) =
            m * 10 ^ dropped * (4 * one) := by
            rw [split, Nat.pow_add]
            ring
        _ ≤ 4 * ((2 ^ 54 - 7) * 2 ^ s) * 10 ^ x.exponent.natAbs := shares
        _ = 4 * 10 ^ x.exponent.natAbs * ((2 ^ 54 - 7) * 2 ^ s) := by ring
  · obtain ⟨c, same⟩ : ∃ c : Nat, x.exponent + (dropped : Nat) = -(c : Int) :=
      ⟨(x.exponent + (dropped : Nat)).natAbs, by omega⟩
    rw [same]
    exact ofScaled?_nonpos negative few c

private theorem scan_signed (negative : Bool) {c : Char} {body : List Char} {n : Numeral}
    (digit : isDigit c = true) (scanned : Numeral.scanWhole negative (c :: body) = .done n []) :
    Numeral.scan (if negative then '-' :: c :: body else c :: body) = .done n [] := by
  cases negative with
  | true => exact scanned
  | false =>
    have sign : c ≠ '-' := by
      rintro rfl
      cases digit
    rw [← scanned]
    exact Numeral.scan_unsigned sign

private theorem read?_of_scan {text : List Char} {n : Numeral}
    (scanned : Numeral.scan text = .done n []) :
    Numeral.read? text = n.value? := by
  rw [Numeral.read?, scanned]

private theorem read?_decimal (negative : Bool) (positive : 0 < units) (limit : s + 54 = 2098)
    (below : 2 * units + 2 ^ excess units ≤ 2 * ((2 ^ 54 - 7) * 2 ^ s)) :
    ∃ y, Numeral.read? (if negative then '-' :: decimalChars (shortest units)
      else decimalChars (shortest units)) = some (.real y) := by
  have bits : units.log2 < 2098 := by
    rw [Nat.log2_lt (Nat.ne_of_gt positive), ← limit, Nat.pow_add, Nat.mul_comm]
    have := Nat.two_pow_pos s
    have := Nat.two_pow_pos (excess units)
    omega
  obtain ⟨some_, most, low, high⟩ := shortest_bounds positive bits
  have length := length_shortest positive bits
  have reach := Nat.le_trans most (Nat.mul_le_mul_right _
    (show 4 * units + 2 * 2 ^ excess units ≤ 4 * ((2 ^ 54 - 7) * 2 ^ s) by omega))
  generalize shortest units = x at *
  by_cases close : -5 < (digits x.digits).length + x.exponent ∧
      (digits x.digits).length + x.exponent ≤ 16
  · obtain ⟨whole, fraction, text, pointed, short, _, _⟩ := decimalChars_eq some_ close.1 close.2
    obtain ⟨y, value⟩ := Numeral.value?_plain negative pointed short
    exact ⟨y, by rw [text, read?_of_scan (Numeral.scan_pointed negative pointed), value]⟩
  · obtain ⟨c, rest, split, text⟩ := decimalChars_scientific close
    have all : ∀ d ∈ c :: rest, isDigit d = true := split ▸ isDigit_of_mem_digits x.digits
    have scanned := scan_signed negative (all c List.mem_cons_self)
      (Numeral.scanWhole_scientific negative all (rest.length + x.exponent))
    have count : (digits x.digits).length = rest.length + 1 := by rw [split, List.length_cons]
    have fraction : (if rest = [] then none else some rest).getD [] = rest := by
      cases rest <;> simp
    have near : ((rest.length : Int) + x.exponent).natAbs ≤ 2147483647 := by omega
    obtain ⟨y, value⟩ := Numeral.value?_scientific negative (if rest = [] then none else some rest)
      (all c List.mem_cons_self) near (by
        intro m dropped few leading
        rw [fraction, ← split, ofDigits_digits] at leading
        rw [fraction, add_sub_cancel_left]
        exact ofScaled?_leading negative few limit leading reach)
    exact ⟨y, by rw [text, read?_of_scan scanned, value]⟩

private theorem chars_pos {x : Binary64} (positive : 0 < x.units) : x.chars =
    if x.negative then '-' :: decimalChars (shortest x.units)
    else decimalChars (shortest x.units) := by
  rw [chars, if_neg (Nat.ne_of_gt positive)]

def isReal : Option Number → Bool
  | some (.real _) => true
  | _ => false

private theorem eq_of_isReal {n : Option Number} (real : isReal n = true) :
    ∃ y, n = some (.real y) := by
  unfold isReal at real
  split at real
  next y => exact ⟨y, rfl⟩
  next => cases real

/-- The three greatest numbers come closer to the limit, but their own roundings do not reach it. -/
theorem read?_greatest (negative : Bool) : ∀ i < 3, isReal (Numeral.read?
    (Binary64.mk negative ((2 ^ 53 - 1 - i) * Nat.pow 2 2045)).chars) = true := by
  revert negative
  decide +kernel

/-- Every number is read from its text as a number. -/
theorem IsFinite.reads {x : Binary64} (finite : x.IsFinite) :
    ∃ y, Numeral.read? x.chars = some (.real y) := by
  obtain ⟨k, s, same, significand, exponent⟩ := finite
  obtain ⟨t, limit⟩ : ∃ t, t + 54 = 2098 := ⟨2044, rfl⟩
  rcases Nat.eq_zero_or_pos x.units with zero | positive
  · have plain : x.chars = (Binary64.mk x.negative 0).chars := by rw [chars, zero]; rfl
    refine ⟨⟨x.negative, 0⟩, ?_⟩
    rw [plain]
    cases x.negative <;> decide +kernel
  have quantum : 2 ^ excess x.units ≤ 2 ^ s := by
    refine Nat.pow_le_pow_right Nat.two_pos (excess_le ?_)
    rw [same]
    exact Nat.mul_lt_mul_of_pos_right significand (Nat.two_pow_pos s)
  have reach : 2 * x.units + 2 ^ excess x.units ≤ (2 * k + 1) * 2 ^ s := by
    rw [same] at quantum ⊢
    calc 2 * (k * 2 ^ s) + 2 ^ excess (k * 2 ^ s) ≤ 2 * (k * 2 ^ s) + 2 ^ s :=
          Nat.add_le_add_left quantum _
      _ = (2 * k + 1) * 2 ^ s := by ring
  by_cases far : (2 * k + 1) * 2 ^ s ≤ 2 * ((2 ^ 54 - 7) * 2 ^ t)
  · rw [chars_pos positive]
    exact read?_decimal x.negative positive limit (Nat.le_trans reach far)
  · -- What is left are the numbers with the greatest exponent and almost the greatest significand.
    have greatest : s = t + 1 := by
      by_contra other
      have less : 2 ^ s ≤ 2 ^ t := Nat.pow_le_pow_right Nat.two_pos (by omega)
      have := Nat.mul_le_mul (show 2 * k + 1 ≤ 2 ^ 54 - 1 by omega) less
      omega
    have last : 2 ^ 53 - 4 < k := by
      by_contra other
      have := Nat.mul_le_mul_right (2 ^ s) (show 2 * k + 1 ≤ 2 ^ 54 - 7 by omega)
      rw [greatest, Nat.pow_succ] at this far
      omega
    obtain ⟨i, few, rfl⟩ : ∃ i < 3, k = 2 ^ 53 - 1 - i := ⟨2 ^ 53 - 1 - k, by omega, by omega⟩
    have power : Nat.pow 2 2045 = 2 ^ s := by rw [show 2045 = s by omega, Nat.pow_eq]
    have real := eq_of_isReal (read?_greatest x.negative i few)
    rw [power, ← same] at real
    exact real

/-- What is read of a number is what is read from its text. -/
theorem IsFinite.reread {x : Binary64} (finite : x.IsFinite) :
    Numeral.read? x.chars = some (.real x.reread) := by
  obtain ⟨y, read⟩ := finite.reads
  obtain ⟨n, scanned, value⟩ :
      ∃ n, Numeral.scan x.chars = .done n [] ∧ n.value? = some (.real y) := by
    unfold Numeral.read? at read
    split at read
    next n scanned => exact ⟨n, scanned, read⟩
    next => cases read
  rw [read, reread_of_scan scanned value]

end Rota.Binary64
