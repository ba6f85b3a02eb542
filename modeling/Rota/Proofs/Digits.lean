import Rota.Text.Digits
import Rota.Text.Quoted
import Mathlib.Algebra.GroupWithZero.Nat
/-! Numbers and their digits.
A number is written with digits only, without zeros in front unless they are asked for, and reading
the digits gives the number back. -/
namespace Rota.Text

variable {n width : Nat} {s rest : List Char}

theorem hexValue?_hexDigit (n : Nat) : hexValue? (hexDigit n) = some (n % 16) := by
  have all : ∀ d < 16, hexValue? (hexDigit d) = some d := by decide
  have same : hexDigit (n % 16) = hexDigit n := by simp [hexDigit]
  rw [← same]
  exact all (n % 16) (Nat.mod_lt n (by decide))

/-! ### Reading -/

theorem isDigit_iff {c : Char} : isDigit c = true ↔ 48 ≤ c.toNat ∧ c.toNat ≤ 57 :=
  Char.isDigit_iff_toNat

theorem ofDigits_eq (s : List Char) : ofDigits s = s.foldl (fun n c => 10 * n + digitValue c) 0 :=
  rfl

theorem ofDigits_concat (s : List Char) (c : Char) :
    ofDigits (s ++ [c]) = 10 * ofDigits s + digitValue c := by
  rw [ofDigits_eq, List.foldl_append, ← ofDigits_eq]
  rfl

theorem ofDigits_zeros (count : Nat) (s : List Char) :
    ofDigits (List.replicate count '0' ++ s) = ofDigits s := by
  rw [ofDigits, Nat.ofDigitChars_append, Nat.ofDigitChars_replicate_zero, Nat.mul_zero]

theorem ofDigits_lt (all : ∀ c ∈ s, isDigit c = true) : ofDigits s < 10 ^ s.length := by
  have bound (m : Nat) :
      s.foldl (fun n c => 10 * n + digitValue c) m < (m + 1) * 10 ^ s.length := by
    induction s generalizing m with
    | nil => simp
    | cons c s ih =>
      have last : digitValue c ≤ 9 := by
        have digit := all c List.mem_cons_self
        unfold digitValue
        have := isDigit_iff.mp digit
        omega
      calc _ < (10 * m + digitValue c + 1) * 10 ^ s.length :=
            ih (fun d inside => all d (List.mem_cons_of_mem c inside)) _
        _ ≤ ((m + 1) * 10) * 10 ^ s.length := Nat.mul_le_mul_right _ (by omega)
        _ = (m + 1) * 10 ^ (s.length + 1) := by rw [Nat.pow_succ', Nat.mul_assoc]
  exact Nat.lt_of_lt_of_eq (bound 0) (by rw [Nat.zero_add, Nat.one_mul])

/-- Reading digits goes on where a run of digits ends. -/
theorem takeWhile_isDigit (all : ∀ c ∈ s, isDigit c = true)
    (stops : ∀ c ∈ rest.head?, isDigit c = false) : (s ++ rest).takeWhile isDigit = s := by
  rw [List.takeWhile_append_of_pos all]
  cases rest with
  | nil => simp
  | cons c rest => simp [stops c rfl]

theorem dropWhile_isDigit (all : ∀ c ∈ s, isDigit c = true)
    (stops : ∀ c ∈ rest.head?, isDigit c = false) : (s ++ rest).dropWhile isDigit = rest := by
  rw [List.dropWhile_append_of_pos all]
  cases rest with
  | nil => rfl
  | cons c rest => simp [stops c rfl]

/-! ### Writing -/

theorem digits_ne_nil (n : Nat) : digits n ≠ [] := Nat.toDigits_ne_nil

theorem isDigit_of_mem_digits (n : Nat) : ∀ c ∈ digits n, isDigit c = true :=
  fun _ => Nat.isDigit_of_mem_toDigits (by decide) (by decide)

theorem ofDigits_digits (n : Nat) : ofDigits (digits n) = n :=
  Nat.ofDigitChars_toDigits (by decide) (by decide)

theorem head?_digits (positive : 0 < n) : (digits n).head? ≠ some '0' := by
  induction n using Nat.strongRecOn with
  | _ n ih =>
    rw [digits, Nat.toDigits_eq_if (by decide)]
    split
    next small =>
      intro zero
      have value := Nat.toNat_digitChar_sub_48_of_lt_ten small
      rw [Option.some.inj zero] at value
      exact Nat.ne_of_gt positive value.symm
    next large =>
      have front := ih (n / 10) (by omega) (by omega)
      rw [List.head?_append]
      cases first : (digits (n / 10)).head? with
      | none => exact absurd (List.head?_eq_none_iff.mp first) (digits_ne_nil _)
      | some c =>
        rw [first] at front
        exact front

/-- No zero stands in front of other digits. -/
theorem length_digits_of_head? (zero : (digits n).head? = some '0') : (digits n).length = 1 := by
  have none_ : n = 0 := Nat.eq_zero_of_not_pos fun positive => head?_digits positive zero
  subst none_
  decide +kernel

theorem length_digits_le (positive : 0 < width) (small : n < 10 ^ width) :
    (digits n).length ≤ width :=
  (Nat.length_toDigits_le_iff (by decide) positive).mpr small

theorem padded_ne_nil (width n : Nat) : padded width n ≠ [] := by
  simp [padded]

theorem isDigit_of_mem_padded (width n : Nat) : ∀ c ∈ padded width n, isDigit c = true := by
  intro c member
  rcases List.mem_append.mp member with zero | behind
  · rw [List.eq_of_mem_replicate zero]
    decide
  · exact isDigit_of_mem_digits n c behind

theorem ofDigits_padded (width n : Nat) : ofDigits (padded width n) = n :=
  (ofDigits_zeros _ _).trans (ofDigits_digits n)

theorem length_padded (positive : 0 < width) (small : n < 10 ^ width) :
    (padded width n).length = width := by
  have fits := length_digits_le positive small
  rw [padded, List.length_append, List.length_replicate]
  omega

end Rota.Text
