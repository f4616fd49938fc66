import DeclCompiler.Proofs.Rounding
import Mathlib.Algebra.Order.Field.Power
import Mathlib.Tactic.FieldSimp

/-!
The digits that a double is written by read back as it. The search for them takes a decimal only if it reads back,
and the finest grid holds the double itself. Reading rounds to the nearest double, and no other double has the
decimal in its interval.
-/

namespace DeclCompiler.Decimal

open Binary64

/-- The number that a decimal denotes. -/
def value (d : Decimal) : ℚ := d.digits * 10 ^ d.exponent

theorem denominator_pos (d : Decimal) : 0 < d.denominator := tenPow_pos _

theorem tenPow_le_tenPow {m n : Nat} (h : m ≤ n) : tenPow m ≤ tenPow n := Nat.pow_le_pow_right (by decide) h

theorem twoPow_dvd_tenPow (n : Nat) : twoPow n ∣ tenPow n := pow_dvd_pow_of_dvd (by decide : 2 ∣ 10) n

theorem twoPow_le_tenPow (n : Nat) : twoPow (3 * n) ≤ tenPow n := calc
  twoPow (3 * n) = Nat.pow (2 ^ 3) n := Nat.pow_mul 2 3 n
  _ ≤ tenPow n := Nat.pow_le_pow_left (by decide) n

theorem cast_tenPow (n : Nat) : (tenPow n : ℚ) = 10 ^ n := Nat.cast_pow 10 n

theorem value_eq (d : Decimal) : d.value = d.numerator / d.denominator := by
  obtain ⟨digits, exponent⟩ := d
  unfold value numerator denominator
  rw [Nat.cast_mul, cast_tenPow, cast_tenPow]
  obtain ⟨k, rfl | rfl⟩ := exponent.eq_nat_or_neg
  · have hneg : (-(k : Int)).toNat = 0 := by omega
    simp [hneg]
  · have hneg : (-(k : Int)).toNat = 0 := by omega
    simp [hneg, div_eq_mul_inv]

/-- Decimals that denote the same number read back as the same double. -/
theorem readsBackAs_congr {b : Nat} {d d' : Decimal} (h : d.value = d'.value) :
    readsBackAs b d = readsBackAs b d' := by
  refine readsBack_congr d.denominator_pos d'.denominator_pos ?_
  have hpos : (d.denominator : ℚ) ≠ 0 := by exact_mod_cast d.denominator_pos.ne'
  have hpos' : (d'.denominator : ℚ) ≠ 0 := by exact_mod_cast d'.denominator_pos.ne'
  rw [value_eq, value_eq, div_eq_div_iff hpos hpos'] at h
  exact_mod_cast h

/-! ### The search -/

theorem onGrid?_readsBack {b : Nat} {e : Int} {d : Decimal} (h : onGrid? b e = some d) : readsBackAs b d = true := by
  unfold onGrid? at h
  generalize below b e = low at h
  cases hlow : readsBackAs b low <;> cases hhigh : readsBackAs b low.next <;>
    simp only [hlow, hhigh, Option.some.injEq, reduceCtorEq] at h
  case false.true => exact h ▸ hhigh
  case true.false => exact h ▸ hlow
  case true.true =>
    generalize nearerNext b low = nearer at h
    cases nearer
    · exact h ▸ hlow
    · exact h ▸ hhigh

/-- On the finest grid every double is a whole number. -/
theorem finest_dvd (b : Nat) : twoPow 1075 ∣ units b * tenPow 1074 := by
  have hscale : twoPow 1 ∣ twoPow (scale b) := Nat.pow_dvd_pow 2 (Nat.le_max_left ..)
  have hmul := Nat.mul_dvd_mul (Nat.dvd_mul_left_of_dvd hscale (significand b)) (twoPow_dvd_tenPow 1074)
  rwa [← twoPow_add] at hmul

theorem below_finest_readsBack {b : Nat} (hb : 0 < b) : readsBackAs b (below b (-1074)) = true := by
  have hnone : (-1074 : Int).toNat = 0 := rfl
  have hcount : (-(-1074 : Int)).toNat = 1074 := rfl
  have hone : tenPow 0 = 1 := rfl
  refine readsBack_of_eq hb (denominator_pos _) ?_
  simp only [below, numerator, denominator, hnone, hcount, hone, Nat.mul_one]
  exact Nat.div_mul_cancel (finest_dvd b)

theorem search_readsBack {b : Nat} (hb : 0 < b) (n : Nat) : readsBackAs b (search b n) = true := by
  induction n with
  | zero => exact below_finest_readsBack hb
  | succ n ih =>
    rw [search]
    cases hgrid : onGrid? b ((n + 1 : Nat) - 1074) with
    | none => exact ih
    | some d => exact onGrid?_readsBack hgrid

theorem shortest_readsBack {b : Nat} (hb : 0 < b) : readsBackAs b (shortest b) = true := search_readsBack hb _

/-! ### Reading -/

theorem digits_pos {b : Nat} {d : Decimal} (hb : 0 < b) (h : readsBackAs b d = true) : 0 < d.digits := by
  have hlower := (readsBack_iff.1 h).1
  have hunits : 0 < units b * d.denominator :=
    Nat.mul_pos (Nat.lt_of_le_of_lt (Nat.zero_le _) (units_lt_of_lt hb)) d.denominator_pos
  refine Nat.pos_of_ne_zero fun hzero => ?_
  rw [numerator, hzero, Nat.zero_mul, Nat.zero_mul, Nat.add_mul] at hlower
  omega

theorem units_infinity : units infinity = twoPow 2099 := by
  rw [infinity, Nat.mul_comm, ← Nat.add_zero (twoPow 52 * 2047), units_normal (by decide) (twoPow_pos 52),
    Nat.add_zero, ← twoPow_add]

/-- A decimal that reads back as a finite double is not above the range of doubles. -/
theorem exponent_le {b : Nat} {d : Decimal} (hb : b < infinity) (hd : 0 < d.digits) (h : readsBackAs b d = true) :
    d.exponent ≤ 400 := by
  by_contra hlarge
  have hone : d.denominator = 1 := by
    rw [denominator, show (-d.exponent).toNat = 0 by omega]
    rfl
  have hupper := (readsBack_iff.1 h).2.1
  have hnumerator : tenPow 401 ≤ d.numerator := calc
    tenPow 401 ≤ tenPow d.exponent.toNat := tenPow_le_tenPow (by omega)
    _ ≤ d.numerator := Nat.le_mul_of_pos_left _ hd
  have hunits : units b + units (b + 1) ≤ twoPow 2099 * 2 := by
    have hlow := units_le_of_le (Nat.le_of_lt hb)
    have hhigh : units (b + 1) ≤ units infinity := units_le_of_le hb
    rw [units_infinity] at hlow hhigh
    omega
  -- doubles end at `2 ^ 1024`, far below what the exponent makes of a single digit
  have hlt : twoPow 1024 < tenPow 401 := by decide +kernel
  have hmul : twoPow 1024 * twoPow 1076 < tenPow 401 * twoPow 1076 :=
    Nat.mul_lt_mul_of_pos_right hlt (twoPow_pos 1076)
  have hmul' : tenPow 401 * twoPow 1076 ≤ d.numerator * twoPow 1076 := Nat.mul_le_mul_right _ hnumerator
  have hrange : twoPow 2099 * 2 = twoPow 1024 * twoPow 1076 := by rw [← twoPow_add]; exact (twoPow_succ 2099).symm
  rw [hone, Nat.mul_one] at hupper
  omega

/-- A decimal that reads back as a positive double is not below the range of doubles. -/
theorem le_exponent {b : Nat} {d : Decimal} (hb : 0 < b) (h : readsBackAs b d = true) :
    -(401 + d.digits.log2 : Int) ≤ d.exponent := by
  by_contra hsmall
  have hnumerator : d.numerator = d.digits := by
    rw [numerator, show d.exponent.toNat = 0 by omega]
    exact Nat.mul_one _
  have hdenominator : twoPow (3 * (402 + d.digits.log2)) ≤ d.denominator := calc
    twoPow (3 * (402 + d.digits.log2)) ≤ tenPow (402 + d.digits.log2) := twoPow_le_tenPow _
    _ ≤ d.denominator := tenPow_le_tenPow (by omega)
  have hunits : 2 ≤ units b := units_le_of_le (a := 1) hb
  have hlower := (readsBack_iff.1 h).1
  have hdigits : d.digits < twoPow (d.digits.log2 + 1) := Nat.lt_log2_self
  have hcontradiction : twoPow (3 * (402 + d.digits.log2) + 1) < twoPow (d.digits.log2 + 1 + 1076) := calc
    twoPow (3 * (402 + d.digits.log2) + 1) ≤ d.denominator * 2 := Nat.mul_le_mul_right 2 hdenominator
    _ ≤ (units (b - 1) + units b) * d.denominator := by
      rw [Nat.mul_comm]
      exact Nat.mul_le_mul_right _ (by omega)
    _ ≤ d.digits * twoPow 1076 := hnumerator ▸ hlower
    _ < twoPow (d.digits.log2 + 1) * twoPow 1076 := Nat.mul_lt_mul_of_pos_right hdigits (twoPow_pos 1076)
    _ = twoPow (d.digits.log2 + 1 + 1076) := (twoPow_add ..).symm
  have := lt_of_twoPow_lt hcontradiction
  omega

/-- A decimal is read as the double that it reads back as. -/
theorem magnitude_eq {b : Nat} {d : Decimal} (hb : 0 < b) (hfinite : b < infinity) (h : readsBackAs b d = true) :
    d.magnitude = b := by
  have hdigits := digits_pos hb h
  have hupper := exponent_le hfinite hdigits h
  have hlower := le_exponent hb h
  rw [magnitude, if_neg (by omega), if_neg (by omega), if_neg (by omega)]
  exact nearest_eq_of_readsBack d.denominator_pos (Nat.le_of_lt hfinite) h

end DeclCompiler.Decimal
