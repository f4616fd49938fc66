import DeclCompiler.Proofs.Rounding
import Mathlib

/-!
Doubles by sign and magnitude. The library describes a double by a sign, a significand and an exponent, which it
takes from the pattern. Sign and magnitude determine the description, and the other way round. Numbers are then
compared as their magnitudes with signs are, and what is not a number is not compared at all.

Mathlib is imported as a whole here, since none of its parts has the library's lemmas about patterns (`unpackSign_def`,
`Float.ofBits_toBits`).
-/

namespace DeclCompiler.Binary64

open Float.Model Float.Model.UnpackedFloat

/-! ### Significand and scale -/

theorem twoPow_52 : twoPow 52 = 4503599627370496 := rfl

theorem significand_lt (b : Nat) : significand b < twoPow 53 := by
  unfold significand
  rw [twoPow_53, twoPow_52]
  split <;> omega

theorem significand_pos {b : Nat} (h : b ≠ 0) : 0 < significand b := by
  unfold significand
  rw [twoPow_52]
  split <;> omega

theorem composes (b : Nat) : Composes (scale b) (significand b) := by
  refine ⟨Nat.le_max_left .., ?_, Nat.le_of_lt (significand_lt b)⟩
  unfold scale significand
  rw [twoPow_52]
  split <;> omega

theorem scale_compose {s k : Nat} (h : Composes s k) (hk : k < twoPow 53) : scale (compose s k) = s := by
  obtain ⟨hs, hlow, -⟩ := h
  unfold scale compose
  rw [twoPow_53, twoPow_52] at *
  omega

theorem significand_compose {s k : Nat} (h : Composes s k) (hk : k < twoPow 53) : significand (compose s k) = k := by
  obtain ⟨hs, hlow, -⟩ := h
  unfold significand compose
  rw [twoPow_53, twoPow_52] at *
  split <;> omega

/-- Magnitudes are ordered by scale first and then by significand. -/
theorem lt_iff_scale (a b : Nat) :
    a < b ↔ scale a < scale b ∨ (scale a = scale b ∧ significand a < significand b) := by
  unfold scale significand
  rw [twoPow_52]
  split <;> split <;> omega

/-! ### Descriptions -/

def signOf (negative : Bool) : Sign := if negative then .negative else .positive

/-- The description of the double with a sign and a magnitude. -/
def described (negative : Bool) (b : Nat) : UnpackedFloat :=
  if infinity < b then .notANumber
  else if b = infinity then .infinity (signOf negative)
  else if h : b = 0 then .zero (signOf negative)
  else .finite (signOf negative) (significand b) (scale b - 1075) (significand_pos h)

@[simp] theorem described_infinity (negative : Bool) : described negative infinity = .infinity (signOf negative) := by
  rw [described, if_neg (Nat.lt_irrefl _), if_pos rfl]

@[simp] theorem described_zero (negative : Bool) : described negative 0 = .zero (signOf negative) := rfl

theorem described_finite (negative : Bool) {b : Nat} (hb : b ≠ 0) (hfinite : b < infinity) :
    described negative b = .finite (signOf negative) (significand b) (scale b - 1075) (significand_pos hb) := by
  rw [described, if_neg (by omega), if_neg (by omega), dif_neg hb]

theorem neg_described (negative : Bool) (b : Nat) : (described negative b).neg = described (!negative) b := by
  have hsign : -signOf negative = signOf (!negative) := by cases negative <;> rfl
  unfold described
  split
  · rfl
  split
  · simp [UnpackedFloat.neg, hsign]
  split
  · simp [UnpackedFloat.neg, hsign]
  · simp [UnpackedFloat.neg, hsign]

/-! ### Patterns -/

section

variable (p : BitVec Format.binary64.numBits)

theorem toNat_unpackMantissa : (unpackMantissa p).toNat = p.toNat % 2 ^ 52 := by
  simp [unpackMantissa_def]

theorem toNat_unpackExponent : (unpackExponent p).toNat = p.toNat / 2 ^ 52 % 2 ^ 11 := by
  simp [unpackExponent_def, Nat.shiftRight_eq_div_pow]

theorem ofBitVec_unpackSign : Sign.ofBitVec (unpackSign p) = signOf (decide (twoPow 63 ≤ p.toNat)) := by
  have hlt : p.toNat < 2 ^ 64 := p.isLt
  have h63 : twoPow 63 = 2 ^ 63 := rfl
  have hsign : (unpackSign p).toNat = p.toNat / 2 ^ 63 % 2 := by
    simp [unpackSign_def, Nat.shiftRight_eq_div_pow]
  have hzero : unpackSign p = 0#1 ↔ ¬ twoPow 63 ≤ p.toNat := by
    rw [← BitVec.toNat_inj, hsign, h63]
    change _ = 0 ↔ _
    omega
  by_cases h : twoPow 63 ≤ p.toNat
  · simp [Sign.ofBitVec, signOf, hzero, h]
  · simp [Sign.ofBitVec, signOf, hzero, h]

/-- A pattern is described by its sign and its magnitude. -/
theorem unpack_eq :
    UnpackedFloat.unpack Format.binary64 p = described (decide (twoPow 63 ≤ p.toNat)) (p.toNat % twoPow 63) := by
  have h63 : twoPow 63 = 2 ^ 63 := rfl
  have hinfinity : infinity = 2047 * 2 ^ 52 := rfl
  obtain ⟨b, hb⟩ : ∃ b, p.toNat % 2 ^ 63 = b := ⟨_, rfl⟩
  have hlt : b < 2 ^ 63 := hb ▸ Nat.mod_lt _ (by decide)
  have hexponent : (unpackExponent p).toNat = b / 2 ^ 52 := by
    rw [toNat_unpackExponent]
    omega
  have hmantissa : (unpackMantissa p).toNat = b % 2 ^ 52 := by
    rw [toNat_unpackMantissa]
    omega
  have hones : unpackExponent p = -1#_ ↔ b / 2 ^ 52 = 2047 := hexponent ▸ BitVec.toNat_inj.symm
  have hnone : unpackExponent p = 0#_ ↔ b / 2 ^ 52 = 0 := hexponent ▸ BitVec.toNat_inj.symm
  have hempty : unpackMantissa p = 0#_ ↔ b % 2 ^ 52 = 0 := hmantissa ▸ BitVec.toNat_inj.symm
  have hfilled : (1#1 ++ unpackMantissa p).toNat = 2 ^ 52 + b % 2 ^ 52 := by
    rw [BitVec.toNat_append, ← Nat.shiftLeft_add_eq_or_of_lt (unpackMantissa p).isLt, hmantissa]
    simp [Nat.shiftLeft_eq]
  rw [h63, hb, UnpackedFloat.unpack]
  simp only [ofBitVec_unpackSign, hones, hnone, hempty, h63]
  generalize decide (2 ^ 63 ≤ p.toNat) = negative
  by_cases hfull : b / 2 ^ 52 = 2047
  · rw [if_pos hfull, described]
    by_cases hzero : b % 2 ^ 52 = 0
    · rw [if_pos hzero, if_neg (by omega), if_pos (by omega)]
    · rw [if_neg hzero, if_pos (by omega)]
  rw [if_neg hfull]
  by_cases hsmall : b / 2 ^ 52 = 0
  · rw [if_pos hsmall]
    by_cases hzero : b % 2 ^ 52 = 0
    · rw [dif_pos hzero, described, if_neg (by omega), if_neg (by omega), dif_pos (by omega)]
    · -- a subnormal number has the scale of the least normal ones
      have hlow : b < twoPow 52 := by rw [twoPow_52]; omega
      have hmod : b % 2 ^ 52 = b := Nat.mod_eq_of_lt hlow
      rw [dif_neg hzero, described_finite negative (b := b) (by omega) (by omega)]
      simp only [hexponent, hmantissa, significand, scale_of_lt hlow, if_pos hlow, hsmall, hmod]
      rfl
  · have hhigh : ¬ b < twoPow 52 := by rw [twoPow_52]; omega
    have hscale : scale b = b / 2 ^ 52 := Nat.max_eq_right (by rw [twoPow_52]; omega)
    rw [if_neg hsmall, described_finite negative (b := b) (by omega) (by omega)]
    simp only [hexponent, hfilled, significand, if_neg hhigh, hscale]
    rfl

theorem isNaNBits_iff : isNaNBits p = true ↔ infinity < p.toNat % twoPow 63 := by
  have h63 : twoPow 63 = 2 ^ 63 := rfl
  have hinfinity : infinity = 2047 * 2 ^ 52 := rfl
  have hones : unpackExponent p = -1#_ ↔ (unpackExponent p).toNat = 2047 := BitVec.toNat_inj.symm
  have hempty : unpackMantissa p = 0#_ ↔ (unpackMantissa p).toNat = 0 := BitVec.toNat_inj.symm
  simp only [isNaNBits, ne_eq, decide_eq_true_eq, hones, hempty, toNat_unpackExponent, toNat_unpackMantissa, h63,
    hinfinity]
  omega

end

/-- The pattern with a sign and a magnitude. -/
def pattern (negative : Bool) (b : Nat) : UInt64 := UInt64.ofNat (if negative then b + twoPow 63 else b)

section

variable (negative : Bool) {b : Nat}

theorem toNat_pattern (hb : b < twoPow 63) : (pattern negative b).toNat = if negative then b + twoPow 63 else b := by
  have h63 : twoPow 63 = 2 ^ 63 := rfl
  rw [pattern, UInt64.toNat_ofNat']
  refine Nat.mod_eq_of_lt ?_
  split <;> omega

theorem isNegative_pattern (hb : b < twoPow 63) : decide (twoPow 63 ≤ (pattern negative b).toNat) = negative := by
  rw [toNat_pattern negative hb]
  cases negative <;> simp [hb]

theorem magnitude_pattern (hb : b < twoPow 63) : (pattern negative b).toNat % twoPow 63 = b := by
  rw [toNat_pattern negative hb]
  cases negative <;> simp [Nat.mod_eq_of_lt hb]

/-! ### Doubles -/

theorem infinity_lt : infinity < twoPow 63 := by decide

/-- The description of a sign and a magnitude is that of their double. -/
theorem ofModel_pack_described (hb : b < twoPow 63) :
    Float.ofModel (Float.Model.pack (described negative b)) = ofMagnitude negative b := by
  have hunpack : UnpackedFloat.unpack Format.binary64 (pattern negative b).toBitVec = described negative b := by
    rw [unpack_eq]
    congr 1
    · exact isNegative_pattern negative hb
    · exact magnitude_pattern negative hb
  rw [← hunpack]
  rfl

theorem toBits_ofMagnitude (hb : b ≤ infinity) : (ofMagnitude negative b).toBits = pattern negative b := by
  have hnumber : ¬ @isNaNBits Format.binary64 (pattern negative b).toBitVec = true := by
    rw [isNaNBits_iff]
    exact Nat.not_lt.2 ((magnitude_pattern negative (Nat.lt_of_le_of_lt hb infinity_lt)).symm ▸ hb)
  apply UInt64.toBitVec_inj.1
  exact (@pack_unpack Format.binary64 (pattern negative b).toBitVec (by decide)).trans (if_neg hnumber)

theorem isNegative_ofMagnitude (hb : b ≤ infinity) : isNegative (ofMagnitude negative b) = negative := by
  rw [isNegative, toBits_ofMagnitude negative hb]
  exact isNegative_pattern negative (Nat.lt_of_le_of_lt hb infinity_lt)

theorem magnitude_ofMagnitude (hb : b ≤ infinity) : magnitude (ofMagnitude negative b) = b := by
  rw [magnitude, toBits_ofMagnitude negative hb]
  exact magnitude_pattern negative (Nat.lt_of_le_of_lt hb infinity_lt)

end

theorem unpack_toModel (x : Float) : x.toModel.unpack = described (isNegative x) (magnitude x) :=
  unpack_eq x.toBits.toBitVec

theorem unpack_ofMagnitude (negative : Bool) {b : Nat} (hb : b ≤ infinity) :
    (ofMagnitude negative b).toModel.unpack = described negative b := by
  rw [unpack_toModel, isNegative_ofMagnitude negative hb, magnitude_ofMagnitude negative hb]

/-- A double is its sign and its magnitude. -/
theorem ofMagnitude_magnitude (x : Float) : ofMagnitude (isNegative x) (magnitude x) = x := by
  have hlt : x.toBits.toNat < 2 ^ 64 := x.toBits.toBitVec.isLt
  have h63 : twoPow 63 = 2 ^ 63 := rfl
  have hnat : (if isNegative x then magnitude x + twoPow 63 else magnitude x) = x.toBits.toNat := by
    unfold isNegative magnitude
    rw [h63]
    split
    next h =>
      simp only [decide_eq_true_eq] at h
      omega
    next h =>
      simp only [decide_eq_true_eq] at h
      omega
  rw [ofMagnitude, hnat, UInt64.ofNat_toNat, Float.ofBits_toBits]

theorem neg_eq (x : Float) : -x = ofMagnitude (!isNegative x) (magnitude x) := by
  have hlt : magnitude x < twoPow 63 := Nat.mod_lt _ (twoPow_pos 63)
  rw [← ofModel_pack_described _ hlt, ← neg_described, ← unpack_toModel]
  rfl

/-- What is not a number has one pattern. -/
theorem eq_nan {x : Float} (h : infinity < magnitude x) : x = nan := by
  have hvalid := pack_unpack_of_valid x.toModel.valid
  have hpattern : @isNaNBits Format.binary64 x.toModel.toBits.toBitVec = true := (isNaNBits_iff _).2 h
  have hbits := @pack_unpack Format.binary64 x.toModel.toBits.toBitVec (by decide)
  rw [if_pos hpattern, hvalid] at hbits
  rw [← x.ofBits_toBits, nan]
  exact congrArg Float.ofBits (UInt64.toBitVec_inj.1 hbits)

/-- Doubles that are numbers, infinities included. -/
def IsNumber (x : Float) : Prop := magnitude x ≤ infinity

theorem isNumber_iff {x : Float} : IsNumber x ↔ x ≠ nan := by
  constructor
  · rintro h rfl
    exact absurd h (by unfold IsNumber; decide +kernel)
  · intro h
    exact Nat.not_lt.1 fun hlt => h (eq_nan hlt)

theorem isNaN_iff {x : Float} : x.isNaN = true ↔ ¬ IsNumber x := by
  have hnan : Float.nan = nan := by decide +kernel
  simp [isNumber_iff, hnan]

/-! ### Order -/

/-- A magnitude with a sign. -/
def signed (negative : Bool) (b : Nat) : Int := if negative then -b else b

/-- The position of a number among all numbers. -/
def rank (x : Float) : Int := signed (isNegative x) (magnitude x)

/-- Only the two zeros share their rank. -/
theorem rank_eq_iff {x y : Float} : rank x = rank y ↔ x = y ∨ (magnitude x = 0 ∧ magnitude y = 0) := by
  constructor
  · intro h
    have hx := ofMagnitude_magnitude x
    have hy := ofMagnitude_magnitude y
    unfold rank at h
    cases hs : isNegative x <;> cases hs' : isNegative y <;> rw [hs] at hx h <;> rw [hs'] at hy h <;>
      simp only [signed, Bool.false_eq_true, if_true, if_false] at h
    · exact .inl (by rw [← hx, ← hy, Int.ofNat_inj.1 h])
    · exact .inr (by omega)
    · exact .inr (by omega)
    · exact .inl (by rw [← hx, ← hy, Int.ofNat_inj.1 (Int.neg_inj.1 h)])
  · rintro (rfl | ⟨hx, hy⟩)
    · rfl
    · simp [rank, signed, hx, hy]

theorem compare_scale (a b : Nat) :
    (compare ((scale a : Int) - 1075) (scale b - 1075)).then (compare (significand a) (significand b)) =
      compare (a : Int) b := by
  have hlt := lt_iff_scale a b
  have hgt := lt_iff_scale b a
  rcases Nat.lt_trichotomy a b with h | rfl | h
  · rw [Int.compare_eq_lt.2 (Int.ofNat_lt.2 h), Ordering.then_eq_lt, Int.compare_eq_lt, Int.compare_eq_eq,
      Nat.compare_eq_lt]
    omega
  · simp
  · rw [Int.compare_eq_gt.2 (Int.ofNat_lt.2 h), Ordering.then_eq_gt, Int.compare_eq_gt, Int.compare_eq_eq,
      Nat.compare_eq_gt]
    omega

theorem compare_neg_neg (i j : Int) : compare (-i) (-j) = (compare i j).swap := by
  rw [Int.compare_swap]
  rcases Int.lt_trichotomy i j with h | rfl | h
  · rw [Int.compare_eq_gt.2 h, Int.compare_eq_gt.2 (by omega)]
  · simp
  · rw [Int.compare_eq_lt.2 h, Int.compare_eq_lt.2 (by omega)]

/-- Numbers are compared as their magnitudes with signs are. -/
theorem compare_described (negative negative' : Bool) {a b : Nat} (ha : a ≤ infinity) (hb : b ≤ infinity) :
    (described negative a).compare (described negative' b) =
      some (compare (signed negative a) (signed negative' b)) := by
  have hpos : 0 < infinity := by decide
  have hlt : ∀ i j : Int, Ordering.lt = compare i j ↔ i < j := fun i j => eq_comm.trans Int.compare_eq_lt
  have hgt : ∀ i j : Int, Ordering.gt = compare i j ↔ j < i := fun i j => eq_comm.trans Int.compare_eq_gt
  have regions : ∀ {b : Nat}, b ≤ infinity → b = infinity ∨ b = 0 ∨ (b ≠ 0 ∧ b < infinity) := by
    intro b hb
    omega
  rcases regions ha with rfl | rfl | ha <;> rcases regions hb with rfl | rfl | hb
  case inr.inr.inr.inr =>
    -- of two finite numbers with one sign, scale and significand tell which is the larger
    rw [described_finite negative ha.1 ha.2, described_finite negative' hb.1 hb.2]
    cases negative <;> cases negative' <;>
      simp [signOf, signed, UnpackedFloat.compare, hlt, hgt, compare_scale, compare_neg_neg] <;> omega
  case inl.inr.inr | inr.inl.inr.inr =>
    rw [described_finite negative' hb.1 hb.2]
    cases negative <;> cases negative' <;> simp [signOf, signed, UnpackedFloat.compare, hlt, hgt] <;> omega
  case inr.inr.inl | inr.inr.inr.inl =>
    rw [described_finite negative ha.1 ha.2]
    cases negative <;> cases negative' <;> simp [signOf, signed, UnpackedFloat.compare, hlt, hgt] <;> omega
  all_goals cases negative <;> cases negative' <;> decide

theorem unpack_of_not_isNumber {x : Float} (h : ¬ IsNumber x) : x.toModel.unpack = .notANumber := by
  rw [unpack_toModel, described, if_pos (Nat.not_le.1 h)]

theorem compare_eq_some_iff {x y : Float} {o : Ordering} :
    x.toModel.unpack.compare y.toModel.unpack = some o ↔
      IsNumber x ∧ IsNumber y ∧ compare (rank x) (rank y) = o := by
  by_cases hx : IsNumber x
  · by_cases hy : IsNumber y
    · have hcompare := compare_described (isNegative x) (isNegative y) hx hy
      rw [unpack_toModel, unpack_toModel, hcompare, Option.some.injEq]
      exact ⟨fun h => ⟨hx, hy, h⟩, fun h => h.2.2⟩
    · have hnone : x.toModel.unpack.compare .notANumber = none := by
        cases x.toModel.unpack <;> rfl
      rw [unpack_of_not_isNumber hy, hnone]
      simp [hy]
  · have hnone : UnpackedFloat.notANumber.compare y.toModel.unpack = none := rfl
    rw [unpack_of_not_isNumber hx, hnone]
    simp [hx]

theorem lt_iff {x y : Float} : x < y ↔ IsNumber x ∧ IsNumber y ∧ rank x < rank y := by
  have hlt : x < y ↔ x.toModel.unpack.compare y.toModel.unpack = some .lt := by
    change Float.lt x y = true ↔ _
    rw [Float.lt, decide_eq_true_iff]
    exact beq_iff_eq
  rw [hlt, compare_eq_some_iff, Int.compare_eq_lt]

theorem beq_iff {x y : Float} : (x == y) = true ↔ IsNumber x ∧ IsNumber y ∧ rank x = rank y := by
  have hbeq : (x == y) = true ↔ x.toModel.unpack.compare y.toModel.unpack = some .eq := by
    change (x.toModel.unpack.compare y.toModel.unpack == some .eq) = true ↔ _
    exact beq_iff_eq
  rw [hbeq, compare_eq_some_iff, Int.compare_eq_eq]

end DeclCompiler.Binary64
