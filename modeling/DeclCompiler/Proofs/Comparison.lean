import DeclCompiler.Literal.Fold
import DeclCompiler.Proofs.Doubles

/-!
Equality and order of constants. Whatever two constants are, one comparison of theirs decides all six relations: of
strings by their code units, and of the numbers that they convert to otherwise. So the relations agree with each
other, and only what is not a number leaves two constants without an order.
-/

namespace DeclCompiler

open Binary64

/-! ### Code units -/

namespace Text

/-- Reads characters from code units. A unit between `0xD800` and `0xDFFF` is one of a pair. -/
def decodeUnits : List Nat → Option (List Char)
  | [] => some []
  | [u] => if u < 0xD800 ∨ 0xDFFF < u then some [Char.ofNat u] else none
  | u :: v :: rest =>
    if u < 0xD800 ∨ 0xDFFF < u then (decodeUnits (v :: rest)).map (Char.ofNat u :: ·)
    else if u < 0xDC00 ∧ 0xDC00 ≤ v ∧ v ≤ 0xDFFF then
      (decodeUnits rest).map (Char.ofNat (0x10000 + (u - 0xD800) * 0x400 + (v - 0xDC00)) :: ·)
    else none

theorem toNat_valid (c : Char) : c.toNat < 0xD800 ∨ (0xDFFF < c.toNat ∧ c.toNat < 0x110000) := c.valid

theorem decodeUnits_charUnits (c : Char) (rest : List Nat) :
    decodeUnits (charUnits c ++ rest) = (decodeUnits rest).map (c :: ·) := by
  have hvalid := toNat_valid c
  unfold charUnits
  split
  · have hunit : c.toNat < 0xD800 ∨ 0xDFFF < c.toNat := by omega
    cases rest with
    | nil => simp [decodeUnits, hunit]
    | cons v rest => simp [decodeUnits, hunit]
  · have hcode : 0x10000 + (0xD800 + (c.toNat - 0x10000) / 0x400 - 0xD800) * 0x400 +
        (0xDC00 + (c.toNat - 0x10000) % 0x400 - 0xDC00) = c.toNat := by omega
    change decodeUnits (_ :: _ :: rest) = _
    rw [decodeUnits, if_neg (by omega), if_pos (by omega), hcode, Char.ofNat_toNat]

theorem decodeUnits_units (s : String) : decodeUnits (units s) = some s.toList := by
  unfold units
  induction s.toList with
  | nil => rfl
  | cons c cs ih => rw [List.flatMap_cons, decodeUnits_charUnits, ih, Option.map_some]

theorem units_inj {s t : String} : units s = units t ↔ s = t := by
  refine ⟨fun h => ?_, congrArg units⟩
  have hread := decodeUnits_units s
  rw [h, decodeUnits_units] at hread
  exact String.toList_injective (Option.some.inj hread).symm

theorem compareLists_eq_iff (l m : List Nat) : compareLists l m = .eq ↔ l = m := by
  fun_induction compareLists l m with
  | case1 => simp
  | case2 => simp
  | case3 => simp
  | case4 a as b bs h => simp [h.ne]
  | case5 a as bs h ih => simp [ih]
  | case6 a as b bs hlt hne => simp [hne]

theorem compareLists_lt_iff (l m : List Nat) : compareLists l m = .lt ↔ l < m := by
  fun_induction compareLists l m with
  | case1 => simp
  | case2 => simp
  | case3 => simp
  | case4 a as b bs h => simp [List.cons_lt_cons_iff, h]
  | case5 a as bs h ih => simp [ih]
  | case6 a as b bs hlt hne => simp [List.cons_lt_cons_iff, hlt, hne]

theorem compareLists_swap (l m : List Nat) : compareLists m l = (compareLists l m).swap := by
  fun_induction compareLists l m with
  | case1 => rfl
  | case2 => rfl
  | case3 => rfl
  | case4 a as b bs h => rw [compareLists, if_neg h.not_gt, if_neg h.ne']; rfl
  | case5 a as bs h ih => rw [compareLists, if_neg h, if_pos rfl, ih]
  | case6 a as b bs hlt hne => rw [compareLists, if_pos (by omega)]; rfl

end Text

namespace Literal

/-! ### Numbers -/

theorem compareNumbers?_of_isNumber {x y : Float} (hx : IsNumber x) (hy : IsNumber y) :
    compareNumbers? x y = some (compare (rank x) (rank y)) := by
  unfold compareNumbers?
  rcases lt_trichotomy (rank x) (rank y) with h | h | h
  · rw [if_pos (lt_iff.2 ⟨hx, hy, h⟩), compare_lt_iff_lt.2 h]
  · rw [if_neg (fun hlt => (lt_iff.1 hlt).2.2.ne h), if_pos (beq_iff.2 ⟨hx, hy, h⟩), compare_eq_iff_eq.2 h]
  · rw [if_neg (fun hlt => (lt_iff.1 hlt).2.2.not_gt h), if_neg (fun heq => h.ne' (beq_iff.1 heq).2.2),
      if_pos (lt_iff.2 ⟨hy, hx, h⟩), compare_gt_iff_gt.2 h]

theorem compareNumbers?_of_not {x y : Float} (h : ¬ (IsNumber x ∧ IsNumber y)) : compareNumbers? x y = none := by
  unfold compareNumbers?
  rw [if_neg fun hlt => h ⟨(lt_iff.1 hlt).1, (lt_iff.1 hlt).2.1⟩,
    if_neg fun heq => h ⟨(beq_iff.1 heq).1, (beq_iff.1 heq).2.1⟩,
    if_neg fun hgt => h ⟨(lt_iff.1 hgt).2.1, (lt_iff.1 hgt).1⟩]

theorem compareNumbers?_eq_iff {x y : Float} : compareNumbers? x y = some .eq ↔ (x == y) = true := by
  by_cases h : IsNumber x ∧ IsNumber y
  · rw [compareNumbers?_of_isNumber h.1 h.2, Option.some_inj, compare_eq_iff_eq, beq_iff]
    exact ⟨fun heq => ⟨h.1, h.2, heq⟩, fun heq => heq.2.2⟩
  · rw [compareNumbers?_of_not h]
    exact ⟨nofun, fun heq => absurd ⟨(beq_iff.1 heq).1, (beq_iff.1 heq).2.1⟩ h⟩

theorem compareNumbers?_swap (x y : Float) : compareNumbers? y x = (compareNumbers? x y).map .swap := by
  by_cases h : IsNumber x ∧ IsNumber y
  · rw [compareNumbers?_of_isNumber h.1 h.2, compareNumbers?_of_isNumber h.2 h.1, Option.map_some]
    exact congrArg some Std.OrientedOrd.eq_swap
  · rw [compareNumbers?_of_not h, compareNumbers?_of_not fun h' => h h'.symm]
    rfl

theorem isSome_compareNumbers? {x y : Float} :
    (compareNumbers? x y).isSome = true ↔ x.isNaN = false ∧ y.isNaN = false := by
  have hnan : ∀ z : Float, z.isNaN = false ↔ IsNumber z := fun z => by
    rw [← Bool.not_eq_true, isNaN_iff, not_not]
  rw [hnan, hnan]
  by_cases h : IsNumber x ∧ IsNumber y
  · rw [compareNumbers?_of_isNumber h.1 h.2]
    exact iff_of_true rfl h
  · rw [compareNumbers?_of_not h]
    exact iff_of_false nofun h

/-! ### Constants -/

/-- Constants that are compared as numbers. -/
structure Numeric (a b : Literal) : Prop where
  strings : ¬ (a.isString = true ∧ b.isString = true)
  compare?_eq : a.compare? b = compareNumbers? a.toNumber b.toNumber
  compare?_swapped : b.compare? a = compareNumbers? b.toNumber a.toNumber
  looseEq_eq : looseEq a b = (a.toNumber == b.toNumber)

theorem numeric_bool (b c : Bool) : Numeric (.bool b) (.bool c) := by
  refine ⟨nofun, rfl, rfl, ?_⟩
  cases b <;> cases c <;> decide +kernel

/-- Two constants are strings or are compared as numbers. -/
theorem strings_or_numeric (a b : Literal) : (∃ s t, a = .string s ∧ b = .string t) ∨ Numeric a b := by
  cases a with
  | number x => cases b <;> exact .inr ⟨nofun, rfl, rfl, rfl⟩
  | string s =>
    cases b with
    | string t => exact .inl ⟨s, t, rfl, rfl⟩
    | number y => exact .inr ⟨nofun, rfl, rfl, rfl⟩
    | bool c => exact .inr ⟨nofun, rfl, rfl, rfl⟩
  | bool c =>
    cases b with
    | number y => exact .inr ⟨nofun, rfl, rfl, rfl⟩
    | string t => exact .inr ⟨nofun, rfl, rfl, rfl⟩
    | bool d => exact .inr (numeric_bool c d)

theorem compare?_swap (a b : Literal) : b.compare? a = (a.compare? b).map .swap := by
  rcases strings_or_numeric a b with ⟨s, t, rfl, rfl⟩ | h
  · exact congrArg some (Text.compareLists_swap _ _)
  · rw [h.compare?_eq, h.compare?_swapped, compareNumbers?_swap]

theorem looseEq_iff (a b : Literal) : looseEq a b = true ↔ a.compare? b = some .eq := by
  rcases strings_or_numeric a b with ⟨s, t, rfl, rfl⟩ | h
  · change (s == t) = true ↔ some (Text.compareUnits s t) = some .eq
    rw [beq_iff_eq, Option.some_inj, Text.compareUnits, Text.compareLists_eq_iff, Text.units_inj]
  · rw [h.looseEq_eq, h.compare?_eq, compareNumbers?_eq_iff]

theorem isSome_compare? (a b : Literal) : (a.compare? b).isSome = true ↔
    (a.isString = true ∧ b.isString = true) ∨ (a.toNumber.isNaN = false ∧ b.toNumber.isNaN = false) := by
  rcases strings_or_numeric a b with ⟨s, t, rfl, rfl⟩ | h
  · exact iff_of_true rfl (.inl ⟨rfl, rfl⟩)
  · rw [h.compare?_eq, isSome_compareNumbers?, or_iff_right h.strings]

/-- An operator applied to two constants yields true. -/
def Holds (op : BinaryOp) (a b : Literal) : Prop := a.foldBinary? op b = some (.bool true)

instance (op : BinaryOp) (a b : Literal) : Decidable (Holds op a b) :=
  inferInstanceAs (Decidable (_ = _))

theorem holds_iff {op : BinaryOp} {a b : Literal} {r : Bool} (h : a.foldBinary? op b = some (.bool r)) :
    Holds op a b ↔ r = true := by
  rw [Holds, h, Option.some_inj, Literal.bool.injEq]

theorem holds_lt (a b : Literal) : Holds .lt a b ↔ a.compare? b = some .lt := by
  rw [holds_iff rfl, beq_iff_eq]

theorem holds_gt (a b : Literal) : Holds .gt a b ↔ a.compare? b = some .gt := by
  rw [holds_iff rfl, beq_iff_eq]

theorem holds_le (a b : Literal) : Holds .le a b ↔ a.compare? b = some .lt ∨ a.compare? b = some .eq := by
  rw [holds_iff rfl, Bool.or_eq_true, beq_iff_eq, beq_iff_eq]

theorem holds_ge (a b : Literal) : Holds .ge a b ↔ a.compare? b = some .gt ∨ a.compare? b = some .eq := by
  rw [holds_iff rfl, Bool.or_eq_true, beq_iff_eq, beq_iff_eq]

theorem holds_eq (a b : Literal) : Holds .eq a b ↔ a.compare? b = some .eq := by
  rw [holds_iff rfl, looseEq_iff]

theorem holds_strictEq (s t : String) : Holds .strictEq (.string s) (.string t) ↔ s = t := by
  rw [holds_iff rfl]
  exact beq_iff_eq

/-- The order of strings is that of their code units. -/
theorem holds_lt_string (s t : String) : Holds .lt (.string s) (.string t) ↔ Text.units s < Text.units t := by
  rw [holds_lt]
  change some (Text.compareUnits s t) = some .lt ↔ _
  rw [Option.some_inj, Text.compareUnits, Text.compareLists_lt_iff]

def AtMostOne (p q r : Prop) : Prop := ¬ (p ∧ q) ∧ ¬ (p ∧ r) ∧ ¬ (q ∧ r)

def ExactlyOne (p q r : Prop) : Prop := (p ∨ q ∨ r) ∧ AtMostOne p q r

theorem atMostOne_holds (a b : Literal) : AtMostOne (Holds .lt a b) (Holds .eq a b) (Holds .gt a b) := by
  unfold AtMostOne
  rw [holds_lt, holds_eq, holds_gt]
  cases a.compare? b with
  | none => simp
  | some o => cases o <;> simp

theorem exists_holds_iff (a b : Literal) :
    (Holds .lt a b ∨ Holds .eq a b ∨ Holds .gt a b) ↔ (a.compare? b).isSome = true := by
  rw [holds_lt, holds_eq, holds_gt]
  cases a.compare? b with
  | none => simp
  | some o => cases o <;> simp

theorem exactlyOne_holds_iff (a b : Literal) : ExactlyOne (Holds .lt a b) (Holds .eq a b) (Holds .gt a b) ↔
    (a.isString = true ∧ b.isString = true) ∨ (a.toNumber.isNaN = false ∧ b.toNumber.isNaN = false) := by
  rw [ExactlyOne, exists_holds_iff, isSome_compare?, and_iff_left (atMostOne_holds a b)]

theorem holds_lt_iff_gt (a b : Literal) : Holds .lt a b ↔ Holds .gt b a := by
  rw [holds_lt, holds_gt, compare?_swap a b]
  cases a.compare? b with
  | none => simp
  | some o => cases o <;> simp

theorem holds_le_iff_ge (a b : Literal) : Holds .le a b ↔ Holds .ge b a := by
  rw [holds_le, holds_ge, compare?_swap a b]
  cases a.compare? b with
  | none => simp
  | some o => cases o <;> simp

/-- Two strings are the same or one comes before the other. -/
theorem exactlyOne_holds_string (s t : String) :
    ExactlyOne (Holds .lt (.string s) (.string t)) (Holds .strictEq (.string s) (.string t))
      (Holds .lt (.string t) (.string s)) := by
  have heq : Holds .strictEq (.string s) (.string t) ↔ Holds .eq (.string s) (.string t) := Iff.rfl
  rw [heq, holds_lt_iff_gt (.string t), exactlyOne_holds_iff]
  exact .inl ⟨rfl, rfl⟩

/-- The relations between constants agree with each other. Constants have no order only where one of them is not a
number, and strings are ordered strictly and totally, by their code units. -/
theorem comparisons_cohere :
    (∀ a b : Literal, ∀ op ∈ [BinaryOp.lt, .le, .gt, .ge, .eq], ∃ r, a.foldBinary? op b = some (.bool r)) ∧
    (∀ a b : Literal, (Holds .lt a b ↔ Holds .gt b a) ∧ (Holds .le a b ↔ Holds .ge b a) ∧
      (Holds .le a b ↔ Holds .lt a b ∨ Holds .eq a b) ∧ (Holds .ge a b ↔ Holds .gt a b ∨ Holds .eq a b) ∧
      AtMostOne (Holds .lt a b) (Holds .eq a b) (Holds .gt a b) ∧
      (ExactlyOne (Holds .lt a b) (Holds .eq a b) (Holds .gt a b) ↔
        (a.isString = true ∧ b.isString = true) ∨ (a.toNumber.isNaN = false ∧ b.toNumber.isNaN = false))) ∧
    (∀ s : String, Text.decodeUnits (Text.units s) = some s.toList) ∧
    (∀ s t : String, (Holds .lt (.string s) (.string t) ↔ List.Lex (· < ·) (Text.units s) (Text.units t)) ∧
      (Holds .strictEq (.string s) (.string t) ↔ s = t) ∧
      ExactlyOne (Holds .lt (.string s) (.string t)) (Holds .strictEq (.string s) (.string t))
        (Holds .lt (.string t) (.string s))) ∧
    (∀ s : String, ¬ Holds .lt (.string s) (.string s)) ∧
    ∀ s t u : String, Holds .lt (.string s) (.string t) → Holds .lt (.string t) (.string u) →
      Holds .lt (.string s) (.string u) := by
  refine ⟨fun a b op hop => ?_, fun a b => ⟨holds_lt_iff_gt a b, holds_le_iff_ge a b, ?_, ?_, atMostOne_holds a b,
    exactlyOne_holds_iff a b⟩, Text.decodeUnits_units, fun s t => ⟨holds_lt_string s t, holds_strictEq s t,
    exactlyOne_holds_string s t⟩, fun s h => ?_, fun s t u hst htu => ?_⟩
  · fin_cases hop <;> exact ⟨_, rfl⟩
  · rw [holds_le, holds_lt, holds_eq]
  · rw [holds_ge, holds_gt, holds_eq]
  · exact List.lt_irrefl _ ((holds_lt_string s s).1 h)
  · exact (holds_lt_string s u).2 (List.lt_trans ((holds_lt_string s t).1 hst) ((holds_lt_string t u).1 htu))

/-- A character written as two units comes before a private one of a single unit, and that before the last one. -/
theorem surrogates_comparisons_cohere :
    Holds .lt (.string "😀") (.string "\ue000") ∧ Holds .lt (.string "\ue000") (.string "\uffff") ∧
    Holds .lt (.string "😀") (.string "\uffff") ∧
    ∃ r, (Literal.string "😀").foldBinary? .le (.string "\uffff") = some (.bool r) := by
  have hfirst : Holds .lt (.string "😀") (.string "\ue000") := by decide +kernel
  have hsecond : Holds .lt (.string "\ue000") (.string "\uffff") := by decide +kernel
  exact ⟨hfirst, hsecond, comparisons_cohere.2.2.2.2.2 _ _ _ hfirst hsecond, comparisons_cohere.1 _ _ .le (by decide)⟩

end Literal

end DeclCompiler
