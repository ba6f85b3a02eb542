import Rota.Proofs.JsonText
import Rota.Record.Layout
import Mathlib.Data.String.Basic
/-! Records come back from their JSON form.
What a field writes is read as its value, and what it leaves out is what is read where nothing
stands. Then a record of such fields is read from what it is written as. -/
namespace Rota

namespace Json

/-! ### Objects in normal form -/

private theorem insertField_last {name : String} (v : Json) {fields : List (String × Json)}
    (before : ∀ field ∈ fields, field.1 < name) :
    insertField name v fields = fields ++ [(name, v)] := by
  induction fields with
  | nil => rfl
  | cons field rest ih =>
    obtain ⟨less, behind⟩ := List.forall_mem_cons.mp before
    rw [insertField, if_neg (lt_asymm less), if_neg (ne_of_gt less), ih behind]
    rfl

private theorem foldl_insertField {fields : List (String × Json)} (done : List (String × Json))
    (sorted : ((done ++ fields).map (·.1)).Pairwise (· < ·)) :
    fields.foldl (fun done (name, v) => insertField name v done) done = done ++ fields := by
  induction fields generalizing done with
  | nil => simp
  | cons field rest ih =>
    obtain ⟨name, v⟩ := field
    have before : ∀ other ∈ done, other.1 < name := by
      rw [List.map_append, List.pairwise_append] at sorted
      exact fun other member => sorted.2.2 _ (List.mem_map_of_mem member) _ (by simp)
    rw [List.foldl_cons]
    dsimp only
    rw [insertField_last v before, ih _ (by simpa using sorted)]
    simp

/-- Fields in normal form stay as they are. -/
theorem normalFields_of_sorted {fields : List (String × Json)}
    (sorted : (fields.map (·.1)).Pairwise (· < ·)) : normalFields fields = fields :=
  foldl_insertField [] sorted

private theorem insertField_perm {name : String} (v : Json) {fields : List (String × Json)}
    (absent : name ∉ fields.map (·.1)) :
    (insertField name v fields).Perm ((name, v) :: fields) := by
  induction fields with
  | nil => exact .refl _
  | cons field rest ih =>
    rw [List.map_cons, List.mem_cons, not_or] at absent
    unfold insertField
    split
    next => exact .refl _
    next =>
      rw [if_neg absent.1]
      exact ((ih absent.2).cons _).trans (.swap _ _ _)

private theorem foldl_insertField_perm {fields : List (String × Json)} (done : List (String × Json))
    (distinct : ((done ++ fields).map (·.1)).Nodup) :
    (fields.foldl (fun done (name, v) => insertField name v done) done).Perm (done ++ fields) := by
  induction fields generalizing done with
  | nil => simp
  | cons field rest ih =>
    have absent : field.1 ∉ done.map (·.1) := by
      rw [List.map_append, List.nodup_append] at distinct
      exact fun member => distinct.2.2 _ member _ (by simp) rfl
    have inserted := insertField_perm field.2 absent
    have moved : (done ++ field :: rest).Perm (insertField field.1 field.2 done ++ rest) :=
      List.perm_middle.trans (inserted.symm.append_right rest)
    rw [List.foldl_cons]
    exact (ih _ ((moved.map _).nodup_iff.mp distinct)).trans moved.symm

/-- The normal form of fields with different names holds the same fields. -/
theorem normalFields_perm {fields : List (String × Json)} (distinct : (fields.map (·.1)).Nodup) :
    (normalFields fields).Perm fields :=
  foldl_insertField_perm [] distinct

mutual

def Normal : Json → Prop
  | array items => NormalItems items
  | object fields => NormalFields fields ∧ (fields.map (·.1)).Pairwise (· < ·)
  | _ => True

def NormalItems : List Json → Prop
  | [] => True
  | v :: rest => Normal v ∧ NormalItems rest

def NormalFields : List (String × Json) → Prop
  | [] => True
  | (_, v) :: rest => Normal v ∧ NormalFields rest

end

end Json

namespace Record
open Json

variable {α : Type} {read : Reader α} {w : Json} {v v' : α}

/-- The text of the JSON form `w` is read as `v` if there is room for its nesting. -/
structure Restores (read : Reader α) (w : Json) (v : α) : Prop where
  legible : w.Legible
  reads : ∀ room, w.depth ≤ room → read (.text room) (Document.ofJson w) = .ok v

theorem Restores.readText (restores : Restores read w v) (flat : w.depth ≤ maxNesting) :
    readText read w.render = .ok v := by
  unfold Record.readText
  dsimp only
  rw [Document.ofText_render restores.legible, restores.reads maxNesting flat]
  rfl

/-! ### Readers -/

private theorem enter_text {depth room : Nat} (flat : depth + 1 ≤ room) :
    ∃ inner, (Source.text room).enter = .ok (.text inner) ∧ depth ≤ inner := by
  cases room with
  | zero => exact absurd flat (Nat.not_succ_le_zero depth)
  | succ inner => exact ⟨inner, rfl, Nat.le_of_succ_le_succ flat⟩

mutual

private theorem readJson_ofJson : ∀ (v : Json) {room : Nat}, v.Normal → v.depth ≤ room →
    readJson (.text room) (Document.ofJson v) = .ok v
  | .null, _, _, _ => rfl
  | .bool _, _, _, _ => rfl
  | .number _, _, _, _ => rfl
  | .string _, _, _, _ => rfl
  | .array items, room, normal, flat => by
    obtain ⟨inner, entered, room⟩ := enter_text flat
    simp [Document.ofJson, readJson, entered, readJsonItems_ofItems items normal room, bind,
      Except.bind, readEnding]
  | .object fields, room, normal, flat => by
    obtain ⟨inner, entered, room⟩ := enter_text flat
    simp [Document.ofJson, readJson, entered, readJsonFields_ofFields fields normal.1 room, bind,
      Except.bind, readEnding, normalFields_of_sorted normal.2]

private theorem readJsonItems_ofItems : ∀ (items : List Json) {room : Nat}, NormalItems items →
    depthOfItems items ≤ room → readJsonItems (.text room) (Document.ofItems items) = .ok items
  | [], _, _, _ => rfl
  | v :: rest, room, normal, flat => by
    obtain ⟨first, behind⟩ := max_le_iff.mp flat
    simp [Document.ofItems, readJsonItems, readJson_ofJson v normal.1 first,
      readJsonItems_ofItems rest normal.2 behind, bind, Except.bind]

private theorem readJsonFields_ofFields : ∀ (fields : List (String × Json)) {room : Nat},
    NormalFields fields → depthOfFields fields ≤ room →
    readJsonFields (.text room) (Document.ofFields fields) = .ok fields
  | [], _, _, _ => rfl
  | (name, v) :: rest, room, normal, flat => by
    obtain ⟨first, behind⟩ := max_le_iff.mp flat
    simp [Document.ofFields, readJsonFields, readQuoted, readJson_ofJson v normal.1 first,
      readJsonFields_ofFields rest normal.2 behind, bind, Except.bind]

end

theorem restores_readJson {v : Json} (legible : v.Legible) (normal : v.Normal) :
    Restores readJson v v :=
  ⟨legible, fun _ flat => readJson_ofJson v normal flat⟩

theorem restores_readMap {fields : List (String × Json)} (legible : LegibleFields fields)
    (normal : NormalFields fields) : Restores readMap (.object fields) (normalFields fields) := by
  refine ⟨legible, fun room flat => ?_⟩
  obtain ⟨inner, entered, room⟩ := enter_text flat
  simp [Document.ofJson, readMap, entered, readJsonFields_ofFields fields normal room, bind,
    Except.bind, readEnding]

theorem restores_readBool (b : Bool) : Restores readBool (.bool b) b := ⟨trivial, fun _ _ => rfl⟩

theorem restores_readString (s : String) : Restores readString (.string s) s :=
  ⟨trivial, fun _ _ => rfl⟩

theorem restores_readReal {x : Binary64} (readsBack : x.ReadsBack) :
    Restores readReal (.real x) x :=
  ⟨readsBack, fun _ _ => rfl⟩

theorem restores_readParsed {parse : String → Option α} {s expected : String}
    (parsed : parse s = some v) : Restores (readParsed parse expected) (.string s) v := by
  refine ⟨trivial, fun room _ => ?_⟩
  simp [Document.ofJson, readParsed, readQuoted, parsed, bind, Except.bind]

theorem restores_readVariant {known : List (String × α)} {name : String}
    (listed : known.lookup name = some v) : Restores (readVariant known) (.string name) v := by
  refine ⟨trivial, fun room _ => ?_⟩
  simp [Document.ofJson, readVariant, readQuoted, listed, bind, Except.bind]

private theorem restores_readNat {bound n : Nat} (expected : String) (small : n < bound)
    (fits : n < 18446744073709551616) : Restores (readNat bound expected) (.nat n) n := by
  refine ⟨⟨by omega, Int.ofNat_lt.mpr fits⟩, fun room _ => ?_⟩
  simp [Document.ofJson, Json.nat, readNat, readNumber, small, bind, Except.bind]

theorem restores_readUInt32 (n : UInt32) : Restores readUInt32 (.nat n.toNat) n := by
  have small := n.toNat_lt_size
  obtain ⟨legible, reads⟩ := restores_readNat "u32" small
    (Nat.lt_trans small (by decide))
  refine ⟨legible, fun room flat => ?_⟩
  unfold readUInt32
  rw [reads room flat]
  exact congrArg Except.ok UInt32.ofNat_toNat

theorem restores_readUInt64 (n : UInt64) : Restores readUInt64 (.nat n.toNat) n := by
  have small := n.toNat_lt_size
  obtain ⟨legible, reads⟩ := restores_readNat "u64" small small
  refine ⟨legible, fun room flat => ?_⟩
  unfold readUInt64
  rw [reads room flat]
  exact congrArg Except.ok UInt64.ofNat_toNat

private theorem restores_items {write : α → Json} {vs vs' : List α}
    (each : List.Forall₂ (fun v v' => Restores read (write v) v') vs vs') :
    LegibleItems (vs.map write) ∧ ∀ room, depthOfItems (vs.map write) ≤ room →
      readItems read (.text room) (Document.ofItems (vs.map write)) = .ok vs' := by
  induction each with
  | nil => exact ⟨trivial, fun _ _ => rfl⟩
  | cons restores _ ih =>
    refine ⟨⟨restores.legible, ih.1⟩, fun room flat => ?_⟩
    obtain ⟨first, behind⟩ := max_le_iff.mp flat
    simp [Document.ofItems, readItems, restores.reads room first, ih.2 room behind, bind,
      Except.bind]

theorem restores_readList {write : α → Json} {vs vs' : List α}
    (each : List.Forall₂ (fun v v' => Restores read (write v) v') vs vs') :
    Restores (readList read) (.array (vs.map write)) vs' := by
  obtain ⟨legible, reads⟩ := restores_items each
  refine ⟨legible, fun room flat => ?_⟩
  obtain ⟨inner, entered, room⟩ := enter_text flat
  simp [Document.ofJson, readList, entered, reads inner room, bind, Except.bind, readEnding]

theorem restores_null : Restores (readOptional read) .null none := ⟨trivial, fun _ _ => rfl⟩

theorem restores_some (restores : Restores read w v) (some_ : w ≠ .null) :
    Restores (readOptional read) w (some v) := by
  refine ⟨restores.legible, fun room flat => ?_⟩
  have reads := restores.reads room flat
  cases w with
  | null => exact absurd rfl some_
  | _ => simp_all [Document.ofJson, readOptional, bind, Except.bind]

/-! ### Fields -/

/-- A field of value `v` is read as `v'`: from what it writes or, left out, from nothing. -/
def Field.Keeps (f : Field α) (v v' : α) : Prop :=
  if f.isOmitted v then f.whenMissing = some v' else Restores f.read (f.write v) v'

namespace Fields

def names : Fields τ σ → List String
  | nil => []
  | cons f rest => f.name :: rest.names

def Keeps : Fields τ σ → τ → τ → Prop
  | nil, _, _ => True
  | cons f rest, (v, vs), (v', vs') => f.Keeps v v' ∧ rest.Keeps vs vs'

def filled : Fields τ σ → τ → τ → σ
  | nil, _, _ => ()
  | cons f rest, (v, vs), (v', vs') => (if f.isOmitted v then none else some v', rest.filled vs vs')

variable {β τ σ : Type} {fields : Fields τ σ} {vs vs' : τ} {source : Source}

private theorem name_of_mem_write (vs : τ) : ∀ item ∈ fields.write vs, item.1 ∈ fields.names := by
  induction fields with
  | nil => simp [write]
  | cons f rest ih =>
    obtain ⟨v, vs⟩ := vs
    intro item member
    unfold write at member
    split at member
    next => exact List.mem_cons_of_mem _ (ih vs item member)
    next =>
      rcases List.mem_cons.mp member with rfl | behind
      · exact List.mem_cons_self
      · exact List.mem_cons_of_mem _ (ih vs item behind)

/-- Items of other names leave the slot of a field alone. -/
theorem readObject_cons {field : Field β} {slot : Option β} {slots : σ}
    {items : List (String × Json)} (other : ∀ item ∈ items, item.1 ≠ field.name) :
    (cons field fields).readObject source (slot, slots) (Document.ofFields items) =
      (fields.readObject source slots (Document.ofFields items)).map
        fun slots => (slot, slots) := by
  induction items generalizing slots with
  | nil => rfl
  | cons item items ih =>
    obtain ⟨name, w⟩ := item
    obtain ⟨unlike, behind⟩ := List.forall_mem_cons.mp other
    have passes : fill? source name (Document.ofJson w) (cons field fields) (slot, slots) =
        (fill? source name (Document.ofJson w) fields slots).map fun r =>
          r.map fun slots => (slot, slots) := if_neg (Ne.symm unlike)
    rw [Document.ofFields, readObject, readObject]
    simp only [readQuoted, bind, Except.bind, passes]
    cases fill? source name (Document.ofJson w) fields slots with
    | none =>
      cases skip (Document.ofJson w) with
      | error _ => rfl
      | ok _ => exact ih behind
    | some filled =>
      cases filled with
      | error _ => rfl
      | ok slots => exact ih behind

private theorem readObject_write {room : Nat} (keeps : fields.Keeps vs vs')
    (distinct : fields.names.Nodup)
    (flat : depthOfFields (fields.write vs) ≤ room) :
    fields.readObject (.text room) fields.empty (Document.ofFields (fields.write vs)) =
      .ok (fields.filled vs vs') := by
  induction fields with
  | nil => rfl
  | cons field rest ih =>
    obtain ⟨v, vs⟩ := vs
    obtain ⟨v', vs'⟩ := vs'
    obtain ⟨kept, keeps⟩ := keeps
    obtain ⟨absent, distinct⟩ := List.nodup_cons.mp distinct
    have other : ∀ item ∈ rest.write vs, item.1 ≠ field.name := fun item member same =>
      absent (same ▸ name_of_mem_write vs item member)
    unfold Field.Keeps at kept
    unfold write at flat ⊢
    unfold filled empty
    split at kept
    next omitted =>
      rw [if_pos omitted] at flat ⊢
      rw [if_pos omitted, readObject_cons other, ih keeps distinct flat]
      rfl
    next written =>
      rw [if_neg written] at flat ⊢
      obtain ⟨first, behind⟩ := max_le_iff.mp flat
      have fills : fill? (.text room) field.name (Document.ofJson (field.write v))
          (cons field rest) (none, rest.empty) = some (.ok (some v', rest.empty)) := by
        unfold fill?
        rw [if_pos rfl, kept.reads room first]
        rfl
      rw [if_neg written, Document.ofFields, readObject]
      simp only [readQuoted, bind, Except.bind, fills]
      rw [readObject_cons other, ih keeps distinct behind]
      rfl

private theorem legible_write (keeps : fields.Keeps vs vs') : LegibleFields (fields.write vs) := by
  induction fields with
  | nil => exact trivial
  | cons field rest ih =>
    obtain ⟨v, vs⟩ := vs
    obtain ⟨v', vs'⟩ := vs'
    obtain ⟨kept, keeps⟩ := keeps
    unfold Field.Keeps at kept
    unfold write
    split at kept
    next omitted =>
      rw [if_pos omitted]
      exact ih keeps
    next written =>
      rw [if_neg written]
      exact ⟨kept.legible, ih keeps⟩

private theorem finish_filled (keeps : fields.Keeps vs vs') :
    fields.finish (fields.filled vs vs') = .ok vs' := by
  induction fields with
  | nil => rfl
  | cons field rest ih =>
    obtain ⟨v, vs⟩ := vs
    obtain ⟨v', vs'⟩ := vs'
    obtain ⟨kept, keeps⟩ := keeps
    unfold Field.Keeps at kept
    unfold filled finish
    split at kept
    next omitted => simp [omitted, kept, ih keeps, bind, Except.bind]
    next written => simp [written, ih keeps, bind, Except.bind]

end Fields

/-- A record of fields that are kept is read from what it is written as. -/
theorem Layout.restores {l : Layout α} {v : α} (vs : l.τ) (distinct : l.fields.names.Nodup)
    (keeps : l.fields.Keeps (l.toTuple v) vs) : Restores l.read (l.write v) (l.ofTuple vs) := by
  refine ⟨Fields.legible_write keeps, fun room flat => ?_⟩
  obtain ⟨inner, entered, room⟩ := enter_text flat
  unfold Layout.read Layout.write
  simp [Document.ofJson, entered, Fields.readObject_write keeps distinct room,
    Fields.finish_filled keeps, bind, Except.bind, readEnding]

end Record

end Rota
