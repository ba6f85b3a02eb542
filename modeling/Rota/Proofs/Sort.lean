import Rota.Sort
import Mathlib.Data.List.Sort
/-! A sorted list has the same elements in order, and what is in order already stays as it is. -/
namespace Rota

variable {α : Type} {le : α → α → Bool}

private theorem insertBy_eq (le : α → α → Bool) (a : α) (xs : List α) :
    insertBy le a xs = xs.orderedInsert (fun a b => le a b = true) a := by
  induction xs with
  | nil => rfl
  | cons b rest ih => rw [insertBy, ih, List.orderedInsert_cons]

/-- Sorting is insertion sort of the library. -/
theorem sortBy_eq_insertionSort (le : α → α → Bool) (xs : List α) :
    sortBy le xs = xs.insertionSort fun a b => le a b = true := by
  induction xs with
  | nil => rfl
  | cons a rest ih => rw [sortBy, ih, insertBy_eq, List.insertionSort_cons]

theorem sortBy_perm (le : α → α → Bool) (xs : List α) : (sortBy le xs).Perm xs := by
  rw [sortBy_eq_insertionSort]
  exact List.perm_insertionSort _ xs

theorem sortBy_pairwise (total : ∀ a b, le a b = true ∨ le b a = true)
    (trans : ∀ a b c, le a b = true → le b c = true → le a c = true) (xs : List α) :
    (sortBy le xs).Pairwise fun a b => le a b = true := by
  have : Std.Total fun a b => le a b = true := ⟨total⟩
  have : IsTrans α fun a b => le a b = true := ⟨trans⟩
  rw [sortBy_eq_insertionSort]
  exact List.pairwise_insertionSort _ xs

theorem sortBy_of_pairwise {xs : List α} (ordered : xs.Pairwise fun a b => le a b = true) :
    sortBy le xs = xs := by
  rw [sortBy_eq_insertionSort]
  exact ordered.insertionSort_eq

/-- What the order determines is what sorting gives. -/
theorem sortBy_eq {xs ys : List α} (total : ∀ a b, le a b = true ∨ le b a = true)
    (trans : ∀ a b c, le a b = true → le b c = true → le a c = true) (perm : xs.Perm ys)
    (ordered : ys.Pairwise fun a b => le a b = true)
    (antisymm : ∀ a ∈ ys, ∀ b ∈ ys, le a b = true → le b a = true → a = b) :
    sortBy le xs = ys := by
  have sorted := (sortBy_perm le xs).trans perm
  refine List.Perm.eq_of_pairwise (fun a b first second => ?_)
    (sortBy_pairwise total trans xs) ordered sorted
  exact antisymm a (sorted.mem_iff.mp first) b second

/-- An order that only looks at an image of the elements sorts the images. -/
theorem map_sortBy {β : Type} {le' : β → β → Bool} {f : α → β}
    (same : ∀ a b, le' (f a) (f b) = le a b) (xs : List α) :
    (sortBy le xs).map f = sortBy le' (xs.map f) := by
  rw [sortBy_eq_insertionSort, sortBy_eq_insertionSort]
  exact List.map_insertionSort _ _ f xs fun a _ b _ => by rw [same]

end Rota
