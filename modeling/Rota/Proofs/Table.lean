import Rota.Table
import Mathlib.Data.List.Nodup
/-! What a table holds after each of its operations.
A table is used through `get?`; its rows are listed by `values`, which agrees with `get?` as long
as no identifier has two rows. -/
namespace Rota.Table

variable {α : Type} {t : Table α} {id other : Id} {v : α}

@[simp] theorem get?_empty : (empty : Table α).get? id = none := rfl

theorem contains_eq : t.contains id = (t.get? id).isSome := rfl

theorem not_contains (absent : ¬t.contains id = true) : t.get? id = none := by
  simpa [contains_eq] using absent

private theorem find_replaced (rows : List (Id × α)) (id other : Id) (v : α) :
    ((rows.map fun row => if row.1 = id then (id, v) else row).find? fun row => row.1 = other) =
      if other = id then (rows.find? fun row => row.1 = id).map fun _ => (id, v)
      else rows.find? fun row => row.1 = other := by
  induction rows with
  | nil => simp
  | cons row rows ih =>
    rw [List.map_cons, List.find?_cons, ih]
    by_cases same : row.1 = id
    · by_cases found : other = id
      · simp [same, found]
      · simp [same, found, Ne.symm found]
    · by_cases found : other = id
      · subst other
        simp [same]
      · by_cases here : row.1 = other <;> simp [same, found, here]

theorem get?_put (t : Table α) (id : Id) (v : α) (other : Id) :
    (t.put id v).get? other = if other = id then some v else t.get? other := by
  unfold put
  split
  next present =>
    simp only [get?, find_replaced]
    split
    next =>
      obtain ⟨row, found⟩ := Option.isSome_iff_exists.mp
        (by simpa [contains, get?] using present : (t.rows.find? fun row => row.1 = id).isSome)
      simp [found]
    next => rfl
  next absent =>
    have missing : (t.rows.find? fun row => row.1 = id) = none := by
      have none := not_contains absent
      simpa only [get?, Option.map_eq_none_iff] using none
    simp only [get?, List.find?_append]
    by_cases same : other = id
    · subst other
      simp [missing]
    · cases found : t.rows.find? fun row => row.1 = other <;> simp [same, Ne.symm same]

@[simp] theorem get?_put_self (t : Table α) (id : Id) (v : α) :
    (t.put id v).get? id = some v := by simp [get?_put]

theorem get?_put_ne (t : Table α) (v : α) (different : other ≠ id) :
    (t.put id v).get? other = t.get? other := by simp [get?_put, different]

theorem get?_put_cases {w : α} (found : (t.put id v).get? other = some w) :
    other = id ∧ w = v ∨ other ≠ id ∧ t.get? other = some w := by
  rw [get?_put] at found
  split at found
  next same => exact Or.inl ⟨same, (Option.some.inj found).symm⟩
  next different => exact Or.inr ⟨different, found⟩

/-- Of two records that are put under one identifier, the second stays. -/
theorem put_put (t : Table α) (id : Id) (v w : α) : (t.put id v).put id w = t.put id w := by
  have present : (t.put id v).contains id = true := by
    rw [contains_eq, get?_put_self]
    rfl
  rw [put, if_pos present]
  cases known : t.contains id with
  | true =>
    simp only [put, known, if_true, List.map_map]
    congr 1
    apply List.map_congr_left
    intro row _
    by_cases same : row.1 = id <;> simp [same]
  | false =>
    have others : ∀ row ∈ t.rows, row.1 ≠ id := by
      simpa [contains, get?] using known
    have kept : (t.rows.map fun row => if row.1 = id then (id, w) else row) = t.rows :=
      (List.map_congr_left fun row member => if_neg (others row member)).trans (List.map_id _)
    simp [put, known, kept]

theorem get?_erase (t : Table α) (id other : Id) :
    (t.erase id).get? other = if other = id then none else t.get? other := by
  simp only [erase, get?, List.find?_filter]
  split
  next same =>
    subst other
    simp
  next different =>
    congr 2
    funext row
    by_cases here : row.1 = other <;> simp [here, different]

theorem get?_eraseAll (ids : List Id) (t : Table α) (other : Id) :
    (ids.foldl erase t).get? other = if other ∈ ids then none else t.get? other := by
  induction ids generalizing t with
  | nil => simp
  | cons id ids ih =>
    rw [List.foldl_cons, ih, get?_erase]
    by_cases first : other = id <;> by_cases later : other ∈ ids <;> simp [first, later]

theorem get?_of_erase (found : (t.erase id).get? other = some v) :
    other ≠ id ∧ t.get? other = some v := by
  rw [get?_erase] at found
  split at found
  next => cases found
  next different => exact ⟨different, found⟩

theorem get?_of_eraseAll {ids : List Id} (found : (ids.foldl erase t).get? other = some v) :
    other ∉ ids ∧ t.get? other = some v := by
  rw [get?_eraseAll] at found
  split at found
  next => cases found
  next outside => exact ⟨outside, found⟩

def Keyed (t : Table α) : Prop := (t.rows.map (·.1)).Nodup

theorem keyed_empty : (empty : Table α).Keyed := List.nodup_nil

theorem Keyed.put (keyed : t.Keyed) (id : Id) (v : α) : (t.put id v).Keyed := by
  unfold Keyed Table.put
  split
  next =>
    have same : (t.rows.map fun row => if row.1 = id then (id, v) else row).map (·.1) =
        t.rows.map (·.1) := by
      rw [List.map_map]
      apply List.map_congr_left
      intro row _
      by_cases here : row.1 = id <;> simp [here]
    rw [same]
    exact keyed
  next absent =>
    have missing := not_contains absent
    simp only [get?, Option.map_eq_none_iff, List.find?_eq_none, decide_eq_true_eq] at missing
    rw [List.map_append]
    refine List.Nodup.append keyed (by simp) ?_
    intro key member
    obtain ⟨row, inside, rfl⟩ := List.mem_map.mp member
    simpa using missing row inside

theorem Keyed.erase (keyed : t.Keyed) (id : Id) : (t.erase id).Keyed :=
  List.Nodup.sublist (List.Sublist.map _ List.filter_sublist) keyed

theorem Keyed.eraseAll (ids : List Id) (keyed : t.Keyed) : (ids.foldl Table.erase t).Keyed := by
  induction ids generalizing t with
  | nil => exact keyed
  | cons id ids ih => exact ih (keyed.erase id)

theorem Keyed.get?_of_mem (keyed : t.Keyed) (row : Id × α) (member : row ∈ t.rows) :
    t.get? row.1 = some row.2 := by
  obtain ⟨rows⟩ := t
  induction rows with
  | nil => cases member
  | cons first rows ih =>
    obtain ⟨fresh, rest⟩ := List.nodup_cons.mp keyed
    rcases List.mem_cons.mp member with rfl | later
    · simp [get?]
    · have different : first.1 ≠ row.1 := by
        intro same
        exact fresh (List.mem_map.mpr ⟨row, later, same.symm⟩)
      have found := ih rest later
      simpa [get?, different] using found

theorem Keyed.get?_of_mem_values (keyed : t.Keyed) (member : v ∈ t.values) :
    ∃ id, t.get? id = some v := by
  obtain ⟨row, inside, rfl⟩ := List.mem_map.mp member
  exact ⟨row.1, keyed.get?_of_mem row inside⟩

theorem mem_values_of_get? (found : t.get? id = some v) : v ∈ t.values := by
  obtain ⟨row, first, rfl⟩ := Option.map_eq_some_iff.mp found
  exact List.mem_map_of_mem (List.mem_of_find?_eq_some first)

/-! ### Taking back what was put -/

theorem rows_eraseAll (ids : List Id) (t : Table α) :
    (ids.foldl erase t).rows = t.rows.filter fun row => row.1 ∉ ids := by
  induction ids generalizing t with
  | nil => simp
  | cons id ids ih =>
    rw [List.foldl_cons, ih, erase, List.filter_filter]
    congr 1
    funext row
    simp [Bool.and_comm]

/-- Records under erased identifiers do not matter. -/
theorem eraseAll_put {ids : List Id} (t : Table α) (v : α) (erased : id ∈ ids) :
    ids.foldl erase (t.put id v) = ids.foldl erase t := by
  have rows : (t.put id v).rows.filter (fun row => row.1 ∉ ids) =
      t.rows.filter fun row => row.1 ∉ ids := by
    unfold put
    split
    next =>
      rw [List.filter_map]
      have same : ((fun row : Id × α => decide (row.1 ∉ ids)) ∘
          fun row => if row.1 = id then (id, v) else row) = fun row => decide (row.1 ∉ ids) := by
        funext row
        by_cases here : row.1 = id <;> simp [here]
      rw [same]
      refine (List.map_congr_left fun row kept => ?_).trans (List.map_id _)
      have outside := (List.mem_filter.mp kept).2
      have different : row.1 ≠ id := by
        rintro rfl
        simp [erased] at outside
      simp [different]
    next => simp [erased]
  have left := rows_eraseAll ids (t.put id v)
  have right := rows_eraseAll ids t
  rw [rows, ← right] at left
  cases first : ids.foldl erase (t.put id v)
  cases second : ids.foldl erase t
  rw [first, second] at left
  exact congrArg _ left

theorem eraseAll_absent {ids : List Id} (absent : ∀ id ∈ ids, t.get? id = none) :
    ids.foldl erase t = t := by
  induction ids with
  | nil => rfl
  | cons id ids ih =>
    have missing := absent id (by simp)
    simp only [get?, Option.map_eq_none_iff, List.find?_eq_none, decide_eq_true_eq] at missing
    have same : t.erase id = t := by
      have kept : t.rows.filter (fun row => row.1 ≠ id) = t.rows := by
        simpa [List.filter_eq_self] using missing
      exact congrArg Table.mk kept
    rw [List.foldl_cons, same]
    exact ih fun id' member => absent id' (by simp [member])

/-- To put a record where there is none and to erase it changes nothing. -/
theorem erase_put (t : Table α) (v : α) (absent : t.get? id = none) :
    (t.put id v).erase id = t := by
  have taken : [id].foldl erase (t.put id v) = [id].foldl erase t :=
    eraseAll_put t v (List.mem_singleton_self id)
  have same : [id].foldl erase t = t := eraseAll_absent (by simpa using absent)
  exact taken.trans same

end Rota.Table
