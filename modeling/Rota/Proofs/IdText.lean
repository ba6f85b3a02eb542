import Rota.Id
import Rota.Proofs.Digits
import Mathlib.Data.List.Basic
/-! Identifiers and their text.
The text of an identifier holds its 32 digits in five groups, and is read as the identifier. -/
namespace Rota.Id
open Rota.Text

variable {s : List Char} {ns : List Nat}

private theorem length_hex (count n : Nat) : (hex count n).length = count := by
  induction count generalizing n with
  | zero => rfl
  | succ count ih => simp [hex, ih]

/-- The digits stand for the low bits of the number. -/
theorem hexValues_hex (count n : Nat) : ∃ values, (hex count n).mapM hexValue? = some values ∧
    values.foldl (fun n v => n * 16 + v) 0 = n % 16 ^ count := by
  induction count generalizing n with
  | zero => exact ⟨[], rfl, (Nat.mod_one n).symm⟩
  | succ count ih =>
    obtain ⟨values, read, value⟩ := ih (n / 16)
    refine ⟨values ++ [n % 16], ?_, ?_⟩
    · rw [hex, List.mapM_append, read]
      simp [hexValue?_hexDigit]
    · rw [List.foldl_append, value, Nat.pow_succ', Nat.mod_mul]
      simp only [List.foldl_cons, List.foldl_nil]
      omega

private theorem ofHex?_hex (id : Id) : ofHex? (hex 32 id.bits.toNat) = some id := by
  obtain ⟨values, read, value⟩ := hexValues_hex 32 id.bits.toNat
  have fits : id.bits.toNat % 16 ^ 32 = id.bits.toNat := Nat.mod_eq_of_lt id.bits.isLt
  unfold ofHex?
  rw [read]
  simp [length_hex, value.trans fits]

private theorem intercalate_splitGroups (n m : Nat) (rest : List Nat) (s : List Char) :
    ['-'].intercalate (splitGroups (n :: m :: rest) s) =
      s.take n ++ '-' :: ['-'].intercalate (splitGroups (m :: rest) (s.drop n)) := by
  simp [splitGroups, List.intercalate]

/-- Joining takes the hyphens away that stand between the groups. -/
theorem joinGroups?_intercalate (some_ : ns ≠ []) (length : s.length = ns.sum) :
    joinGroups? ns (['-'].intercalate (splitGroups ns s)) = some s := by
  induction ns generalizing s with
  | nil => exact absurd rfl some_
  | cons n rest ih =>
    cases rest with
    | nil =>
      have whole : s.length = n := by simpa using length
      simp [splitGroups, joinGroups?, List.intercalate,
        List.take_of_length_le (Nat.le_of_eq whole), whole]
    | cons m rest =>
      rw [List.sum_cons] at length
      have first : (s.take n).length = n := by rw [List.length_take]; omega
      have behind := ih (s := s.drop n) (by simp) (by rw [List.length_drop]; omega)
      rw [intercalate_splitGroups, joinGroups?, List.drop_left' first]
      · simp [behind, List.take_left' first]
      · simp

private theorem length_intercalate (some_ : ns ≠ []) (length : s.length = ns.sum) :
    (['-'].intercalate (splitGroups ns s)).length + 1 = ns.sum + ns.length := by
  induction ns generalizing s with
  | nil => exact absurd rfl some_
  | cons n rest ih =>
    cases rest with
    | nil => simp_all [splitGroups, List.intercalate]
    | cons m rest =>
      rw [List.sum_cons] at length
      have behind := ih (s := s.drop n) (by simp) (by rw [List.length_drop]; omega)
      rw [intercalate_splitGroups, List.length_append, List.length_take, List.length_cons]
      simp only [List.sum_cons, List.length_cons] at *
      omega

private theorem length_text (id : Id) : id.text.toList.length = 36 := by
  have length := length_intercalate (by decide : groups ≠ []) (length_hex 32 id.bits.toNat)
  rw [text, String.toList_ofList]
  exact Nat.succ.inj length

theorem parse?_text (id : Id) : parse? id.text = some id := by
  have joined : joinGroups? groups id.text.toList = some (hex 32 id.bits.toNat) := by
    rw [text, String.toList_ofList]
    exact joinGroups?_intercalate (by decide) (length_hex _ _)
  unfold parse?
  simp [length_text, joined, ofHex?_hex]

end Rota.Id
