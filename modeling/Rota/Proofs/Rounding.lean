import Rota.Binary64.Shortest
import Mathlib.Tactic.Ring
/-! Rounding to the nearest number.
A fraction is rounded to the number in whose interval it lies. This is said of numbers with a
significand of 53 bits, `k * 2^(t + 1)` units; smaller ones are below 2^-1020 and of no concern
here. -/
namespace Rota.Binary64

/-- The whole number is nearest to the fraction; of two that are, it is the even one. -/
structure IsNearest (numerator denominator quotient : Nat) : Prop where
  low : 2 * (quotient * denominator) ≤ 2 * numerator + denominator
  high : 2 * numerator ≤ 2 * (quotient * denominator) + denominator
  even : 2 * (quotient * denominator) = 2 * numerator + denominator ∨
    2 * numerator = 2 * (quotient * denominator) + denominator → quotient % 2 = 0

variable {numerator denominator k l t n d : Nat}

theorem isNearest_divideToEven (numerator : Nat) (positive : 0 < denominator) :
    IsNearest numerator denominator (divideToEven numerator denominator) := by
  have whole := Nat.div_add_mod numerator denominator
  have small := Nat.mod_lt numerator positive
  rw [Nat.mul_comm] at whole
  unfold divideToEven
  generalize numerator / denominator = q at *
  generalize numerator % denominator = r at *
  have next : (q + 1) * denominator = q * denominator + denominator := Nat.succ_mul q denominator
  dsimp only
  split
  next below => constructor <;> omega
  next =>
    split
    next above => constructor <;> omega
    next =>
      split
      next even => constructor <;> omega
      next odd => constructor <;> omega

theorem IsNearest.unique (positive : 0 < denominator) (first : IsNearest numerator denominator k)
    (second : IsNearest numerator denominator l) : k = l := by
  -- The greater of two is one more, and the fraction lies halfway between them.
  have ordered {k l : Nat} (first : IsNearest numerator denominator k)
      (second : IsNearest numerator denominator l) : ¬k < l := by
    intro less
    obtain ⟨_, high, even⟩ := first
    obtain ⟨low', _, even'⟩ := second
    have more : (k + 1) * denominator ≤ l * denominator := Nat.mul_le_mul_right denominator less
    have next : (k + 1) * denominator = k * denominator + denominator := Nat.succ_mul k denominator
    obtain rfl : l = k + 1 := Nat.eq_of_mul_eq_mul_right positive (by omega)
    omega
  exact Nat.le_antisymm (Nat.le_of_not_lt (ordered second first))
    (Nat.le_of_not_lt (ordered first second))

private theorem divideToEven_eq (positive : 0 < denominator)
    (nearest : IsNearest numerator denominator k) :
    divideToEven numerator denominator = k :=
  (isNearest_divideToEven numerator positive).unique positive nearest

/-! ### Numbers with a full significand -/

variable {s : Nat}

theorem log2_scaled (low : 2 ^ 52 ≤ k) (high : k < 2 ^ 53) : (k * 2 ^ s).log2 = 52 + s := by
  have positive := Nat.two_pow_pos s
  refine (Nat.log2_eq_iff (Nat.mul_ne_zero (by omega) (by omega))).mpr ⟨?_, ?_⟩
  · rw [Nat.pow_add]
    exact Nat.mul_le_mul_right _ low
  · rw [Nat.add_right_comm, Nat.pow_add]
    exact Nat.mul_lt_mul_of_pos_right high positive

private theorem excess_of_between {f : Nat} (low : 2 ^ 52 * 2 ^ s ≤ f) (high : f < 2 ^ 53 * 2 ^ s) :
    excess f = s := by
  have positive := Nat.two_pow_pos s
  have log : f.log2 = 52 + s := by
    refine (Nat.log2_eq_iff (by omega)).mpr ⟨?_, ?_⟩
    · rwa [Nat.pow_add]
    · rwa [Nat.add_right_comm, Nat.pow_add]
  rw [excess, log]
  omega

private theorem roundingInterval_scaled (low : 2 ^ 52 ≤ k) (high : k < 2 ^ 53) (large : 0 < s) :
    roundingInterval (k * 2 ^ s) =
      ⟨4 * (k * 2 ^ s) - (if k = 2 ^ 52 then 2 ^ s else 2 * 2 ^ s),
        4 * (k * 2 ^ s) + 2 * 2 ^ s, k % 2 = 0⟩ := by
  have log := log2_scaled (s := s) low high
  have positive := Nat.two_pow_pos s
  have atPower : (k * 2 ^ s = 2 ^ (52 + s) ∧ 53 ≤ 52 + s) ↔ k = 2 ^ 52 := by
    rw [Nat.pow_add]
    constructor
    · exact fun ⟨same, _⟩ => Nat.eq_of_mul_eq_mul_right positive same
    · rintro rfl
      exact ⟨rfl, by omega⟩
  have quantum : excess (k * 2 ^ s) = s := by
    rw [excess, log]
    omega
  unfold roundingInterval
  simp only [quantum, log, Nat.pow_eq, Nat.mul_div_cancel _ positive, Bool.and_eq_true,
    decide_eq_true_eq, atPower]

/-- The interval of a number, in quarters of a unit: the fractions that are nearest to it, where a
power of two has its lower neighbour at half the distance. -/
theorem contains_iff (low : 2 ^ 52 ≤ k) (high : k < 2 ^ 53) (large : 0 < s) :
    (roundingInterval (k * 2 ^ s)).contains (4 * n) d = true ↔
      IsNearest n (d * 2 ^ s) k ∧
        (k = 2 ^ 52 → 4 * (k * (d * 2 ^ s)) ≤ 4 * n + d * 2 ^ s) := by
  have product : k * 2 ^ s * d = k * (d * 2 ^ s) := by ring
  have more : d * 2 ^ s ≤ k * (d * 2 ^ s) := Nat.le_mul_of_pos_left _ (by omega)
  have unit : 2 ^ s * d = d * 2 ^ s := Nat.mul_comm _ _
  have nearest : IsNearest n (d * 2 ^ s) k ↔ 2 * (k * (d * 2 ^ s)) ≤ 2 * n + d * 2 ^ s ∧
      2 * n ≤ 2 * (k * (d * 2 ^ s)) + d * 2 ^ s ∧
      (2 * (k * (d * 2 ^ s)) = 2 * n + d * 2 ^ s ∨ 2 * n = 2 * (k * (d * 2 ^ s)) + d * 2 ^ s →
        k % 2 = 0) := ⟨fun ⟨a, b, c⟩ => ⟨a, b, c⟩, fun ⟨a, b, c⟩ => ⟨a, b, c⟩⟩
  rw [nearest, roundingInterval_scaled low high large, Interval.contains]
  dsimp only
  rw [Nat.sub_mul, Nat.add_mul, Nat.mul_assoc 4, product, Nat.mul_assoc 2, unit]
  generalize k * (d * 2 ^ s) = product at *
  by_cases power : k = 2 ^ 52
  · have even : (2 ^ 52 : Nat) % 2 = 0 := by decide
    simp only [power, if_true, unit, even, decide_true, Bool.and_eq_true, decide_eq_true_eq,
      true_implies, implies_true, and_true]
    omega
  · by_cases even : k % 2 = 0
    · simp only [power, if_false, Nat.mul_assoc, unit, even, decide_true, if_true,
        Bool.and_eq_true, decide_eq_true_eq, false_implies, implies_true, and_true]
      omega
    · simp only [power, if_false, Nat.mul_assoc, unit, even, decide_false, Bool.false_eq_true,
        Bool.and_eq_true, decide_eq_true_eq, false_implies, and_true, imp_false, not_or]
      omega

/-! ### Rounding -/

theorem roundUnits_of_excess (same : excess (n / d) = s) (positive : 0 < d)
    (nearest : IsNearest n (d * 2 ^ s) k) : roundUnits n d = k * 2 ^ s := by
  unfold roundUnits
  dsimp only
  rw [same, Nat.pow_eq, divideToEven_eq (Nat.mul_pos positive (Nat.two_pow_pos s)) nearest]

/-- What lies in the interval of a number is rounded to the number. -/
theorem roundUnits_of_contains (low : 2 ^ 52 ≤ k) (high : k < 2 ^ 53) (positive : 0 < d)
    (inside : (roundingInterval (k * 2 ^ (s + 1))).contains (4 * n) d = true) :
    roundUnits n d = k * 2 ^ (s + 1) := by
  obtain ⟨nearest, power⟩ := (contains_iff (s := s + 1) low high (by omega)).mp inside
  obtain ⟨below, above, _⟩ := id nearest
  have twice : d * 2 ^ (s + 1) = 2 * (d * 2 ^ s) := by ring
  have least : 2 ^ 52 * (d * 2 ^ s) ≤ k * (d * 2 ^ s) := Nat.mul_le_mul_right _ low
  have most : (k + 1) * (d * 2 ^ s) ≤ 2 ^ 53 * (d * 2 ^ s) := Nat.mul_le_mul_right _ high
  have double : k * (2 * (d * 2 ^ s)) = 2 * (k * (d * 2 ^ s)) := by ring
  rw [Nat.succ_mul] at most
  rw [twice, double] at below above power
  have small : 0 < d * 2 ^ s := Nat.mul_pos positive (Nat.two_pow_pos s)
  have upper : n / d < 2 ^ 53 * 2 ^ (s + 1) := by
    rw [Nat.div_lt_iff_lt_mul positive, show 2 ^ 53 * 2 ^ (s + 1) * d =
      2 ^ 54 * (d * 2 ^ s) by ring]
    omega
  by_cases reached : 2 ^ 52 * 2 ^ (s + 1) ≤ n / d
  · exact roundUnits_of_excess (excess_of_between reached upper) positive nearest
  · -- Below a power of two the places are half as wide.
    have under : n < 2 ^ 53 * (d * 2 ^ s) := by
      have := (Nat.div_lt_iff_lt_mul positive).mp (Nat.lt_of_not_le reached)
      rwa [show 2 ^ 52 * 2 ^ (s + 1) * d = 2 ^ 53 * (d * 2 ^ s) by ring] at this
    have isPower : k = 2 ^ 52 := by
      by_contra other
      have next : (2 ^ 52 + 1) * (d * 2 ^ s) ≤ k * (d * 2 ^ s) :=
        Nat.mul_le_mul_right _ (by omega)
      rw [Nat.succ_mul] at next
      omega
    have enough := power isPower
    have between : excess (n / d) = s := by
      refine excess_of_between ?_ ?_
      · rw [Nat.le_div_iff_mul_le positive, show 2 ^ 52 * 2 ^ s * d = 2 ^ 52 * (d * 2 ^ s) by ring]
        omega
      · rw [Nat.div_lt_iff_lt_mul positive, show 2 ^ 53 * 2 ^ s * d = 2 ^ 53 * (d * 2 ^ s) by ring]
        exact under
    have halves : IsNearest n (d * 2 ^ s) (2 * k) := by
      have whole : 2 * k * (d * 2 ^ s) = 2 * (k * (d * 2 ^ s)) := Nat.mul_assoc _ _ _
      rw [isPower] at whole enough ⊢
      constructor <;> omega
    rw [roundUnits_of_excess between positive halves]
    ring

/-- A rounded fraction lies in the interval of the number to which it is rounded. -/
theorem contains_roundUnits (positive : 0 < d) (large : 2 ^ 53 ≤ n / d) :
    ∃ k s, 2 ^ 52 ≤ k ∧ k < 2 ^ 53 ∧ roundUnits n d = k * 2 ^ (s + 1) ∧
      (roundingInterval (k * 2 ^ (s + 1))).contains (4 * n) d = true := by
  have nonzero : n / d ≠ 0 := by omega
  have log : 53 ≤ (n / d).log2 := (Nat.le_log2 nonzero).mpr large
  obtain ⟨s, same⟩ : ∃ s, excess (n / d) = s + 1 := ⟨excess (n / d) - 1, by unfold excess; omega⟩
  have exponent : (n / d).log2 = 52 + (s + 1) := by
    unfold excess at same
    omega
  have least : 2 ^ 52 * (d * 2 ^ (s + 1)) ≤ n := by
    have bound := Nat.log2_self_le nonzero
    rw [exponent, Nat.le_div_iff_mul_le positive] at bound
    rwa [show 2 ^ (52 + (s + 1)) * d = 2 ^ 52 * (d * 2 ^ (s + 1)) by ring] at bound
  have most : n < 2 ^ 53 * (d * 2 ^ (s + 1)) := by
    have bound := Nat.lt_log2_self (n := n / d)
    rw [exponent, Nat.div_lt_iff_lt_mul positive] at bound
    rwa [show 2 ^ (52 + (s + 1) + 1) * d = 2 ^ 53 * (d * 2 ^ (s + 1)) by ring] at bound
  have small : 0 < d * 2 ^ (s + 1) := Nat.mul_pos positive (Nat.two_pow_pos _)
  have nearest := isNearest_divideToEven n small
  have rounded := roundUnits_of_excess same positive nearest
  generalize divideToEven n (d * 2 ^ (s + 1)) = k at nearest rounded
  have low : 2 ^ 52 ≤ k := by
    by_contra below
    have few : (k + 1) * (d * 2 ^ (s + 1)) ≤ 2 ^ 52 * (d * 2 ^ (s + 1)) :=
      Nat.mul_le_mul_right _ (by omega)
    have := nearest.high
    rw [Nat.succ_mul] at few
    omega
  have high : k ≤ 2 ^ 53 := by
    by_contra above
    have many : (2 ^ 53 + 1) * (d * 2 ^ (s + 1)) ≤ k * (d * 2 ^ (s + 1)) :=
      Nat.mul_le_mul_right _ (by omega)
    have := nearest.low
    rw [Nat.succ_mul] at many
    omega
  rcases Nat.lt_or_eq_of_le high with less | rfl
  · refine ⟨k, s, low, less, rounded, (contains_iff (s := s + 1) low less (by omega)).mpr ⟨nearest, ?_⟩⟩
    rintro rfl
    omega
  · -- The fraction is rounded up to a power of two.
    have twice : d * 2 ^ (s + 1 + 1) = 2 * (d * 2 ^ (s + 1)) := by ring
    have power : IsNearest n (d * 2 ^ (s + 1 + 1)) (2 ^ 52) := by
      obtain ⟨above, _, _⟩ := nearest
      rw [twice]
      constructor <;> omega
    refine ⟨2 ^ 52, s + 1, Nat.le_refl _, by decide, ?_,
      (contains_iff (s := s + 1 + 1) (Nat.le_refl _) (by decide) (by omega)).mpr ⟨power, fun _ => ?_⟩⟩
    · rw [rounded]
      ring
    · have := nearest.low
      rw [twice]
      omega

/-- A number is in its own interval. -/
theorem contains_self (low : 2 ^ 52 ≤ k) (high : k < 2 ^ 53) :
    (roundingInterval (k * 2 ^ (s + 1))).contains (4 * (k * 2 ^ (s + 1))) 1 = true := by
  have positive := Nat.two_pow_pos (s + 1)
  refine (contains_iff (s := s + 1) low high (by omega)).mpr ⟨?_, fun _ => ?_⟩
  · rw [Nat.one_mul]
    constructor <;> omega
  · rw [Nat.one_mul]
    omega

end Rota.Binary64
