import Rota.Id
import Mathlib.Algebra.Group.Nat.Defs
/-! Identifiers that are issued.
They are numbered, and as long as there are no more than 2^122 of them no two are the same. -/
namespace Rota

namespace Id

def IsIssued (n : Nat) (id : Id) : Prop := ∃ m < n, id = issued m

/-- No two of the first `n` identifiers that are issued are the same. -/
def Distinct (n : Nat) : Prop := ∀ l m, l < m → m < n → issued l ≠ issued m

variable {n m : Nat} {id : Id}

theorem IsIssued.mono (is : IsIssued n id) (le : n ≤ m) : IsIssued m id := by
  obtain ⟨k, lt, same⟩ := is
  exact ⟨k, Nat.lt_of_lt_of_le lt le, same⟩

theorem isIssued_of_lt (lt : m < n) : IsIssued n (issued m) := ⟨m, lt, rfl⟩

theorem Distinct.mono (distinct : Distinct n) (le : m ≤ n) : Distinct m :=
  fun l k lt below => distinct l k lt (Nat.lt_of_lt_of_le below le)

theorem Distinct.inj {l : Nat} (distinct : Distinct n) (below : l < n) (below' : m < n)
    (same : issued l = issued m) : l = m := by
  rcases Nat.lt_trichotomy l m with lt | eq | gt
  · exact absurd same (distinct l m lt below')
  · exact eq
  · exact absurd same.symm (distinct m l gt below)

/-- The next identifiers have not been issued yet. -/
theorem Distinct.fresh {k : Nat} (distinct : Distinct n) (le : m ≤ k) (lt : k < n) :
    ¬IsIssued m (issued k) := by
  rintro ⟨l, below, same⟩
  exact distinct l k (Nat.lt_of_lt_of_le below le) lt same.symm

/-- The three parts of a number lie apart from each other. -/
theorem parts_inj {a b c a' b' c' : Nat} (ha : a < 2 ^ 48) (hb : b < 2 ^ 12) (hc : c < 2 ^ 62)
    (ha' : a' < 2 ^ 48) (hb' : b' < 2 ^ 12) (hc' : c' < 2 ^ 62)
    (same : (a * 2 ^ 80 + 4 * 2 ^ 76 + b * 2 ^ 64 + 2 * 2 ^ 62 + c) % 2 ^ 128 =
      (a' * 2 ^ 80 + 4 * 2 ^ 76 + b' * 2 ^ 64 + 2 * 2 ^ 62 + c') % 2 ^ 128) :
    a = a' ∧ b = b' ∧ c = c' := by
  rw [Nat.mod_eq_of_lt (by omega), Nat.mod_eq_of_lt (by omega)] at same
  omega

private theorem issued_inj {l m : Nat} (below : l < 2 ^ 122) (below' : m < 2 ^ 122)
    (same : issued l = issued m) : l = m := by
  have bits := congrArg (fun id => id.bits.toNat) same
  simp only [issued, bitsOf, BitVec.toNat_ofNat, Nat.pow_eq, Nat.pow_zero, Nat.div_one] at bits
  have part (n high : Nat) : n % 2 ^ high < 2 ^ high := Nat.mod_lt _ (Nat.two_pow_pos high)
  obtain ⟨high, middle, low⟩ := parts_inj (part _ 48) (part _ 12) (part _ 62) (part _ 48)
    (part _ 12) (part _ 62) bits
  omega

theorem distinct_of_le {n : Nat} (le : n ≤ 2 ^ 122) : Distinct n := by
  intro l m lt below same
  exact absurd (issued_inj (by omega) (by omega) same) (Nat.ne_of_lt lt)

end Id

end Rota
