import Rota.Json.Document
import Rota.Json.Printer
import Rota.Proofs.Digits
/-! The text of a JSON value is taken apart into the value.
Strings come back from their escapes, numerals end where the next part begins, and the text of a
value is long enough to be walked through. -/
namespace Rota

def Json.Numeral.read? (s : List Char) : Option Number :=
  match scan s with
  | .done n [] => n.value?
  | _ => none

/-- Whether the text of the number means the number. -/
def Binary64.ReadsBack (x : Binary64) : Prop := Json.Numeral.read? x.chars = some (.real x)

instance (x : Binary64) : Decidable x.ReadsBack := inferInstanceAs (Decidable (_ = _))

def Number.Legible : Number → Prop
  | .int i => -9223372036854775808 ≤ i ∧ i < 18446744073709551616
  | .real x => x.ReadsBack

namespace Json
open Rota.Text

variable {s rest : List Char}

/-! ### Strings -/

namespace Quoted

variable {p : Partial} {c : Char}

private theorem hexValue4?_control (small : c.toNat < 32) :
    hexValue4? '0' '0' (hexDigit (c.toNat / 16)) (hexDigit c.toNat) = some c.toNat := by
  have all : ∀ n < 32, hexValue4? '0' '0' (hexDigit (n / 16)) (hexDigit n) = some n := by decide
  exact all c.toNat small

private theorem char_eq {n : Nat} (same : c.toNat = n) : Char.ofNat n = c := by
  rw [← same, Char.ofNat_toNat]

private theorem push_idle (idle : p.pending = none) : p.push c =
    { p with chars := c :: p.chars } := by
  simp [Partial.push, idle]

private theorem pushUnit_control (idle : p.pending = none) (small : c.toNat < 32) :
    p.pushUnit c.toNat = { p with chars := c :: p.chars } := by
  unfold Partial.pushUnit
  rw [idle]
  dsimp only
  rw [if_neg (by simp; omega), if_neg (by simp; omega), Char.ofNat_toNat]

/-- Reading behind an escape has read the character. -/
theorem scan_escape (idle : p.pending = none) :
    scan p (escape c ++ rest) = scan { p with chars := c :: p.chars } rest := by
  unfold escape
  split
  next same => subst same; simp [scan, shortEscape?, push_idle idle]
  split
  next same => subst same; simp [scan, shortEscape?, push_idle idle]
  split
  next same => subst same; simp [scan, shortEscape?, push_idle idle]
  split
  next same => subst same; simp [scan, shortEscape?, push_idle idle]
  split
  next same => subst same; simp [scan, shortEscape?, push_idle idle]
  split
  next same => rw [← char_eq same]; simp [scan, shortEscape?, push_idle idle]
  split
  next same => rw [← char_eq same]; simp [scan, shortEscape?, push_idle idle]
  split
  next small =>
    simp [scan, hexValue4?_control small, pushUnit_control idle small]
  next notQuote notBackslash _ _ _ _ _ large =>
    rw [List.singleton_append, scan]
    · rw [if_neg large, push_idle idle]
    all_goals simp_all

private theorem scan_flatMap (idle : p.pending = none) (sound : p.fault = none) (s : List Char) :
    scan p (s.flatMap escape ++ '"' :: rest) =
      (.text (String.ofList (p.chars.reverse ++ s)), some rest) := by
  induction s generalizing p with
  | nil => simp [scan, Partial.close, idle, sound]
  | cons c s ih =>
    rw [List.flatMap_cons, List.append_assoc, scan_escape idle,
      ih (p := { p with chars := c :: p.chars }) idle sound]
    simp

private theorem scan_render (s : String) (rest : List Char) :
    ∃ inside, render s ++ rest = '"' :: inside ∧ scan .start inside = (.text s, some rest) := by
  refine ⟨s.toList.flatMap escape ++ '"' :: rest, by simp [render], ?_⟩
  rw [scan_flatMap rfl rfl]
  simp [Partial.start]

end Quoted

/-! ### Numbers -/

namespace Numeral

variable {n m : Numeral} {left : List Char}

def Ends (rest : List Char) : Prop :=
  ∀ c ∈ rest.head?, isDigit c = false ∧ c ≠ '.' ∧ c ≠ 'e' ∧ c ≠ 'E'

theorem Ends.digits (ends : Ends rest) : ∀ c ∈ rest.head?, isDigit c = false :=
  fun c first => (ends c first).1

private theorem ends_cons {c : Char} (mark : isDigit c = false ∧ c ≠ '.' ∧ c ≠ 'e' ∧ c ≠ 'E') :
    Ends (c :: rest) := by
  rintro d ⟨⟩
  exact mark

private theorem takeWhile_ends (ends : Ends rest) :
    (s ++ rest).takeWhile isDigit = s.takeWhile isDigit := by
  induction s with
  | nil => simpa using takeWhile_isDigit (s := []) (by simp) ends.digits
  | cons c s ih => simp [List.takeWhile_cons, ih]

private theorem drop_run (s rest : List Char) :
    (s ++ rest).drop (s.takeWhile isDigit).length =
      s.drop (s.takeWhile isDigit).length ++ rest :=
  List.drop_append_of_le_length (List.takeWhile_sublist _).length_le

private theorem stop_ne_done : stop s ≠ .done n left := by
  unfold stop
  split <;> simp

private theorem scanExponent_append (ends : Ends rest) (done : scanExponent n s = .done m left) :
    scanExponent n (s ++ rest) = .done m (left ++ rest) := by
  cases s with
  | nil =>
    cases done
    cases rest with
    | nil => rfl
    | cons c rest =>
      obtain ⟨_, _, small, capital⟩ := ends c rfl
      simp [scanExponent, small, capital]
  | cons c s =>
    rw [scanExponent] at done
    rw [List.cons_append, scanExponent]
    split at done
    next mark =>
      rw [if_pos mark]
      cases s with
      | nil => exact absurd done (stop_ne_done (s := []))
      | cons d s =>
        have body (signed : Bool) : (if signed then (d :: s ++ rest).tail else d :: s ++ rest) =
            (if signed then (d :: s).tail else d :: s) ++ rest := by cases signed <;> rfl
        have first : (d :: s ++ rest).head? = (d :: s).head? := rfl
        dsimp only at done ⊢
        rw [first, body, takeWhile_ends ends, drop_run]
        generalize (decide ((d :: s).head? = some '-') || decide ((d :: s).head? = some '+')) =
          signed at done ⊢
        generalize (if signed = true then (d :: s).tail else d :: s) = t at done ⊢
        split at done
        next => exact absurd done stop_ne_done
        next some_ =>
          rw [if_neg some_]
          cases done
          rfl
    next other =>
      rw [if_neg other]
      cases done
      rfl

private theorem scanFraction_append (ends : Ends rest) (done : scanFraction n s = .done m left) :
    scanFraction n (s ++ rest) = .done m (left ++ rest) := by
  cases s with
  | nil =>
    cases done
    cases rest with
    | nil => rfl
    | cons c rest =>
      obtain ⟨_, point, small, capital⟩ := ends c rfl
      simp [scanFraction, scanExponent, point, small, capital]
  | cons c s =>
    rw [List.cons_append]
    unfold scanFraction at done ⊢
    dsimp only at done ⊢
    split at done
    next point =>
      rw [if_pos point, takeWhile_ends ends, drop_run]
      split at done
      next => exact absurd done stop_ne_done
      next some_ =>
        rw [if_neg some_]
        exact scanExponent_append ends done
    next other =>
      rw [if_neg other]
      exact scanExponent_append ends done

private theorem scanWhole_append {negative : Bool} (ends : Ends rest)
    (done : scanWhole negative s = .done m left) :
    scanWhole negative (s ++ rest) = .done m (left ++ rest) := by
  unfold scanWhole at done ⊢
  dsimp only at done ⊢
  rw [takeWhile_ends ends, drop_run]
  split at done
  next => exact absurd done stop_ne_done
  next some_ =>
    split at done
    next => cases done
    next plain =>
      rw [if_neg some_, if_neg plain]
      exact scanFraction_append ends done

theorem scan_unsigned {c : Char} (sign : c ≠ '-') : scan (c :: s) = scanWhole false (c :: s) := by
  unfold scan
  split
  next same =>
    cases same
    exact absurd rfl sign
  next => rfl

/-- What is taken of a text does not depend on what stands behind the numeral. -/
theorem scan_append (ends : Ends rest) (done : scan s = .done m left) :
    scan (s ++ rest) = .done m (left ++ rest) := by
  cases s with
  | nil => exact absurd done (stop_ne_done (s := []))
  | cons c s =>
    by_cases sign : c = '-'
    · subst sign
      exact scanWhole_append ends done
    · rw [scan_unsigned sign] at done
      rw [List.cons_append, scan_unsigned sign]
      exact scanWhole_append ends done

private theorem head_of_scan (done : scan s = .done m left) :
    ∃ c tail, s = c :: tail ∧ (c = '-' ∨ isDigit c = true) := by
  cases s with
  | nil => exact absurd done (stop_ne_done (s := []))
  | cons c s =>
    refine ⟨c, s, rfl, Decidable.or_iff_not_imp_left.mpr fun sign => ?_⟩
    cases digit : isDigit c with
    | true => rfl
    | false =>
      rw [scan_unsigned sign] at done
      simp [scanWhole, digit, stop] at done

theorem le_foldl_digits (n : Nat) (s : List Char) :
    n ≤ s.foldl (fun n c => 10 * n + digitValue c) n := by
  induction s generalizing n with
  | nil => exact Nat.le_refl n
  | cons c s ih => exact Nat.le_trans (by omega) (ih (10 * n + digitValue c))

/-- Digits of a number that fits 64 bits are all taken. -/
theorem gather_eq (significand : Nat) (s : List Char)
    (small : s.foldl (fun n c => 10 * n + digitValue c) significand < 18446744073709551616) :
    gather significand s = (s.foldl (fun n c => 10 * n + digitValue c) significand, 0) := by
  induction s generalizing significand with
  | nil => rfl
  | cons c s ih =>
    have next := Nat.lt_of_le_of_lt (le_foldl_digits (10 * significand + digitValue c) s) small
    rw [gather, if_pos next]
    exact ih _ small

private theorem gather_digits {n : Nat} (small : n < 18446744073709551616) :
    gather 0 (digits n) = (n, 0) := by
  have value := ofDigits_digits n
  rw [ofDigits_eq] at value
  rw [gather_eq 0 (digits n) (by rwa [value]), value]

/-- The text of a number without its sign. -/
theorem scanWhole_digits (negative : Bool) (n : Nat) :
    scanWhole negative (digits n) = .done ⟨negative, digits n, none, none⟩ [] := by
  have run : (digits n ++ []).takeWhile isDigit = digits n :=
    takeWhile_isDigit (isDigit_of_mem_digits n) (by simp)
  rw [List.append_nil] at run
  unfold scanWhole
  simp only [run, List.drop_length, List.isEmpty_iff, digits_ne_nil, if_false]
  rw [if_neg]
  · rfl
  · intro zeros
    simp only [Bool.and_eq_true, decide_eq_true_eq] at zeros
    have := length_digits_of_head? zeros.1
    omega

/-- A numeral without point and exponent is an integer where integers have their place. -/
theorem value?_whole {negative : Bool} {n : Nat}
    (fits : if negative then 0 < n ∧ n ≤ 9223372036854775808 else n < 18446744073709551616) :
    value? ⟨negative, digits n, none, none⟩ = some (.int (if negative then -n else n)) := by
  have small : n < 18446744073709551616 := by split at fits <;> omega
  unfold value?
  rw [gather_digits small]
  cases negative with
  | true =>
    simp only [if_true] at fits
    have kept : ¬ (n = 0 ∨ 9223372036854775808 < n) := by omega
    simp [kept]
  | false => simp

private theorem scan_int {i : Int} (fits : -9223372036854775808 ≤ i ∧ i < 18446744073709551616) :
    ∃ n, scan (intText i).toList = .done n [] ∧ n.value? = some (.int i) := by
  unfold intText
  split
  next below =>
    refine ⟨⟨true, digits i.natAbs, none, none⟩, ?_, ?_⟩
    · simpa [natText, scan] using scanWhole_digits true i.natAbs
    · rw [value?_whole (by simp only [if_true]; omega)]
      have same : -(i.natAbs : Int) = i := by omega
      rw [if_pos rfl, same]
  next above =>
    refine ⟨⟨false, digits i.natAbs, none, none⟩, ?_, ?_⟩
    · obtain ⟨c, s, same⟩ := List.exists_cons_of_ne_nil (digits_ne_nil i.natAbs)
      have digit := isDigit_of_mem_digits i.natAbs c (same ▸ List.mem_cons_self)
      have sign : c ≠ '-' := by
        rintro rfl
        exact absurd digit (by decide)
      rw [natText, String.toList_ofList, same, scan_unsigned sign, ← same]
      exact scanWhole_digits false i.natAbs
    · rw [value?_whole (by simp only [Bool.false_eq_true, if_false]; omega)]
      have same : (i.natAbs : Int) = i := by omega
      rw [if_neg (by decide), same]

end Numeral

private theorem scan_numberChars {n : Number} (legible : n.Legible) :
    ∃ m, Numeral.scan (numberChars n) = .done m [] ∧ m.value? = some n := by
  cases n with
  | int i => exact Numeral.scan_int legible
  | real x =>
    have means : Numeral.read? x.chars = some (.real x) := legible
    unfold Numeral.read? at means
    split at means
    next m scanned => exact ⟨m, scanned, means⟩
    next => cases means

mutual

def Legible : Json → Prop
  | number n => n.Legible
  | array items => LegibleItems items
  | object fields => LegibleFields fields
  | _ => True

def LegibleItems : List Json → Prop
  | [] => True
  | v :: rest => Legible v ∧ LegibleItems rest

def LegibleFields : List (String × Json) → Prop
  | [] => True
  | (_, v) :: rest => Legible v ∧ LegibleFields rest

end

namespace Document

private theorem scanNumeral_chars {n : Number} (legible : n.Legible) (ends : Numeral.Ends rest) :
    scanNumeral (numberChars n ++ rest) = (.number (some n), some rest) := by
  obtain ⟨m, scanned, value⟩ := scan_numberChars legible
  unfold scanNumeral
  rw [Numeral.scan_append ends scanned]
  simp [value]

private theorem visible_of_isDigit {c : Char} (digit : isDigit c = true) :
    isBlank c = false ∧ c ≠ ']' := by
  constructor
  · cases blank : isBlank c with
    | false => rfl
    | true =>
      simp only [isBlank, Bool.or_eq_true, decide_eq_true_eq] at blank
      rcases blank with ((rfl | rfl) | rfl) | rfl <;> exact absurd digit (by decide)
  · rintro rfl
    exact absurd digit (by decide)

/-- A value begins with a character that is neither blank nor a closing bracket. -/
theorem head_chars {v : Json} (legible : v.Legible) :
    ∃ c tail, v.chars = c :: tail ∧ isBlank c = false ∧ c ≠ ']' := by
  cases v with
  | null => exact ⟨_, _, rfl, by decide, by decide⟩
  | bool b => cases b <;> exact ⟨_, _, rfl, by decide, by decide⟩
  | number n =>
    obtain ⟨m, scanned, _⟩ := scan_numberChars legible
    obtain ⟨c, tail, same, first⟩ := Numeral.head_of_scan scanned
    refine ⟨c, tail, same, ?_⟩
    rcases first with rfl | digit
    · exact ⟨by decide, by decide⟩
    · exact visible_of_isDigit digit
  | string s => exact ⟨_, _, rfl, by decide, by decide⟩
  | array items => exact ⟨_, _, rfl, by decide, by decide⟩
  | object fields => exact ⟨_, _, rfl, by decide, by decide⟩

private theorem scan_numeral {c : Char} {fuel : Nat} (first : c = '-' ∨ isDigit c = true) :
    scan (fuel + 1) (c :: s) = scanNumeral (c :: s) := by
  have visible : isBlank c = false := by
    rcases first with rfl | digit
    · decide
    · exact (visible_of_isDigit digit).1
  have other (d : Char) (same : c = d) : d = '-' ∨ isDigit d = true := same ▸ first
  unfold scan
  rw [List.dropWhile_cons, visible]
  simp only [Bool.false_eq_true, if_false]
  split
  next same => cases same
  next same => cases same; exact absurd first (by decide)
  next same => cases same; exact absurd first (by decide)
  next same => cases same; exact absurd first (by decide)
  next same => cases same; exact absurd first (by decide)
  next same => cases same; exact absurd first (by decide)
  next same => cases same; exact absurd first (by decide)
  next same =>
    cases same
    rw [if_pos (by simpa using first)]

private theorem ends_mark {c : Char}
    (mark : c = ',' ∨ c = ']' ∨ c = '}') : Numeral.Ends (c :: rest) := by
  refine Numeral.ends_cons ?_
  rcases mark with rfl | rfl | rfl <;> decide

/-- Behind an opening bracket or a comma the next item follows at once. -/
theorem head_charsOfItems {v : Json} (items : List Json) (rest : List Char) (legible : v.Legible) :
    ∃ c tail, charsOfItems (v :: items) ++ rest = c :: tail ∧ isBlank c = false ∧ c ≠ ']' := by
  obtain ⟨c, tail, same, visible, more⟩ := head_chars legible
  cases items with
  | nil => exact ⟨c, tail ++ [']'] ++ rest, by simp [charsOfItems, same], visible, more⟩
  | cons w items =>
    exact ⟨c, tail ++ ',' :: charsOfItems (w :: items) ++ rest, by simp [charsOfItems, same],
      visible, more⟩

private theorem head_charsOfFields (name : String) (v : Json) (fields : List (String × Json))
    (rest : List Char) : ∃ tail, charsOfFields ((name, v) :: fields) ++ rest = '"' :: tail := by
  cases fields with
  | nil => exact ⟨_, rfl⟩
  | cons field fields => exact ⟨_, rfl⟩

mutual

/-- A value is read from its text, in which every part takes two steps at most. -/
theorem scan_chars : ∀ (v : Json) (rest : List Char) (fuel : Nat), v.Legible → Numeral.Ends rest →
    2 * v.chars.length ≤ fuel → scan fuel (v.chars ++ rest) = (ofJson v, some rest)
  | .null, rest, fuel + 1, _, _, _ => by simp [scan, chars, scanWord, ofJson, isBlank]
  | .bool true, rest, fuel + 1, _, _, _ => by simp [scan, chars, scanWord, ofJson, isBlank]
  | .bool false, rest, fuel + 1, _, _, _ => by simp [scan, chars, scanWord, ofJson, isBlank]
  | .number n, rest, fuel, legible, ends, enough => by
    have scanned := scanNumeral_chars legible ends
    obtain ⟨_, done, _⟩ := scan_numberChars legible
    obtain ⟨c, tail, same, first⟩ := Numeral.head_of_scan done
    rw [chars, same] at enough ⊢
    rw [same] at scanned
    obtain ⟨fuel, rfl⟩ := Nat.exists_eq_add_of_le' (Nat.le_trans (by simp; omega) enough : 1 ≤ fuel)
    exact (scan_numeral first).trans scanned
  | .string s, rest, fuel + 1, _, _, _ => by
    obtain ⟨inside, text, scanned⟩ := Quoted.scan_render s rest
    simp [scan, chars, text, scanned, ofJson, isBlank]
  | .array [], rest, fuel + 1, _, _, _ => by
    simp [scan, chars, charsOfItems, ofJson, ofItems, isBlank]
  | .array (v :: items), rest, fuel + 1, legible, _, enough => by
    have scanned := scanItems_chars (v :: items) rest fuel (by simp) legible
      (by simp [chars] at enough; omega)
    obtain ⟨c, tail, same, visible, more⟩ := head_charsOfItems items rest legible.1
    rw [same] at scanned
    rw [chars, List.cons_append, same, scan]
    have plain : (c :: tail).dropWhile isBlank = c :: tail := by simp [visible]
    simp only [List.dropWhile_cons_of_neg, (by decide : isBlank '[' = false), plain,
      Bool.false_eq_true,
      not_false_eq_true]
    split
    next none_ => cases none_
    next same => cases same; exact absurd rfl more
    next => simp [scanned, ofJson]
  | .object [], rest, fuel + 1, _, _, _ => by
    simp [scan, chars, charsOfFields, ofJson, ofFields, isBlank]
  | .object ((name, v) :: fields), rest, fuel + 1, legible, _, enough => by
    have scanned := scanFields_chars ((name, v) :: fields) rest fuel (by simp)
      legible (by simp [chars] at enough; omega)
    obtain ⟨tail, same⟩ := head_charsOfFields name v fields rest
    rw [same] at scanned
    rw [chars, List.cons_append, same]
    simp [scan, scanned, ofJson, isBlank]

private theorem scanItems_chars : ∀ (items : List Json) (rest : List Char) (fuel : Nat), items ≠
    [] →
    LegibleItems items → 2 * (charsOfItems items).length ≤ fuel →
    scanItems fuel (charsOfItems items ++ rest) = (ofItems items, .closed, some rest)
  | v :: items, _, 0, _, _, enough => by cases items <;> simp [charsOfItems] at enough
  | [v], rest, fuel + 1, _, legible, enough => by
    have scanned := scan_chars v (']' :: rest) fuel legible.1
      (ends_mark (by simp)) (by simp [charsOfItems] at enough; omega)
    simp [charsOfItems, scanItems, scanned, ofItems, isBlank]
  | v :: w :: items, rest, fuel + 1, _, legible, enough => by
    have scanned := scan_chars v (',' :: (charsOfItems (w :: items) ++ rest)) fuel
      legible.1 (ends_mark (by simp)) (by simp [charsOfItems] at enough; omega)
    have behind := scanItems_chars (w :: items) rest fuel (by simp) legible.2
      (by simp [charsOfItems] at enough ⊢; omega)
    obtain ⟨c, tail, same, visible, more⟩ := head_charsOfItems items rest legible.2.1
    rw [same] at scanned behind
    have plain : (c :: tail).dropWhile isBlank = c :: tail := by simp [visible]
    simp [charsOfItems, scanItems, scanned, same, ofItems, isBlank, plain]
    split
    next none_ => cases none_
    next same => cases same; exact absurd rfl more
    next => simp [behind, ofItems]

private theorem scanFields_chars : ∀ (fields : List (String × Json)) (rest : List Char)
    (fuel : Nat),
    fields ≠ [] → LegibleFields fields → 2 * (charsOfFields fields).length ≤ fuel →
    scanFields fuel (charsOfFields fields ++ rest) = (ofFields fields, .closed, some rest)
  | (name, v) :: fields, _, 0, _, _, enough => by cases fields <;> simp [charsOfFields] at enough
  | [(name, v)], rest, fuel + 1, _, legible, enough => by
    have scanned := scan_chars v ('}' :: rest) fuel legible.1
      (ends_mark (by simp)) (by simp [charsOfFields] at enough; omega)
    obtain ⟨inside, text, named⟩ := Quoted.scan_render name (':' :: (v.chars ++ '}' :: rest))
    simp [charsOfFields, text, scanFields, named, scanned, ofFields, isBlank]
  | (name, v) :: (name', w) :: fields, rest, fuel + 1, _, legible, enough => by
    have scanned := scan_chars v (',' :: (charsOfFields ((name', w) :: fields) ++ rest)) fuel
      legible.1 (ends_mark (by simp)) (by simp [charsOfFields] at enough; omega)
    have behind := scanFields_chars ((name', w) :: fields) rest fuel (by simp)
      legible.2 (by simp [charsOfFields] at enough ⊢; omega)
    obtain ⟨tail, same⟩ := head_charsOfFields name' w fields rest
    rw [same] at scanned behind
    obtain ⟨inside, text, named⟩ := Quoted.scan_render name (':' :: (v.chars ++ ',' :: '"' :: tail))
    simp [charsOfFields, same, text, scanFields, named, scanned, behind, ofFields, isBlank]

end

/-- The whole text of a value is this value and nothing behind it. -/
theorem ofText_render {v : Json} (legible : v.Legible) : ofText v.render = ⟨ofJson v, true⟩ := by
  have scanned := scan_chars v [] (2 * v.render.length + 2) legible
    (by rintro c ⟨⟩) (by rw [render, String.length_ofList]; omega)
  rw [List.append_nil] at scanned
  unfold ofText
  rw [show v.render.toList = v.chars from String.toList_ofList, scanned]
  rfl

end Document

end Json

end Rota
