import DeclCompiler.Number.Numeral
import Mathlib.Data.Nat.Factorization.Basic

/-!
The text of whole numbers. Up to `2 ^ 53` neighbouring doubles are at most one apart from below, so among the
multiples of ten only the number itself reads back as it. Its fewest digits are then those that are left
without the zeros at its end, and the layout puts the zeros back.
-/

namespace DeclCompiler

/-! ### Powers -/

theorem twoPow_pos (n : Nat) : 0 < twoPow n := Nat.two_pow_pos n

theorem twoPow_add (m n : Nat) : twoPow (m + n) = twoPow m * twoPow n := Nat.pow_add 2 m n

theorem twoPow_succ (n : Nat) : twoPow (n + 1) = twoPow n * 2 := Nat.pow_succ 2 n

theorem lt_of_twoPow_lt {m n : Nat} (h : twoPow m < twoPow n) : m < n := (Nat.pow_lt_pow_iff_right (by decide)).1 h

theorem twoPow_le {m n : Nat} (h : m ≤ n) : twoPow m ≤ twoPow n := Nat.pow_le_pow_right (by decide) h

theorem tenPow_pos (n : Nat) : 0 < tenPow n := Nat.pow_pos (by decide)

theorem tenPow_add (m n : Nat) : tenPow (m + n) = tenPow m * tenPow n := Nat.pow_add 10 m n

namespace Binary64

/-! ### Neighbours -/

theorem scale_of_lt {b : Nat} (h : b < twoPow 52) : scale b = 1 := by
  rw [scale, Nat.div_eq_of_lt h]
  rfl

/-- The least normal number continues the subnormal ones. -/
theorem units_of_le {b : Nat} (h : b ≤ twoPow 52) : units b = b * 2 := by
  rcases Nat.lt_or_eq_of_le h with h | rfl
  · rw [units, scale_of_lt h, significand, if_pos h]
    rfl
  · rfl

theorem units_normal {q r : Nat} (hq : 1 ≤ q) (hr : r < twoPow 52) :
    units (twoPow 52 * q + r) = (twoPow 52 + r) * twoPow q := by
  have hle : twoPow 52 * 1 ≤ twoPow 52 * q := Nat.mul_le_mul_left _ hq
  have hdiv : (twoPow 52 * q + r) / twoPow 52 = q := by
    rw [Nat.mul_add_div (twoPow_pos 52), Nat.div_eq_of_lt hr, Nat.add_zero]
  have hmod : (twoPow 52 * q + r) % twoPow 52 = r := by rw [Nat.mul_add_mod, Nat.mod_eq_of_lt hr]
  rw [units, significand, scale, if_neg (by omega), hdiv, hmod, Nat.max_eq_right hq]

/-- The distance to the next double is one unit of the significand. -/
theorem units_succ (b : Nat) : units (b + 1) = units b + twoPow (scale b) := by
  have hpos := twoPow_pos 52
  rcases Nat.lt_or_ge b (twoPow 52) with h | h
  · have hb : units (b + 1) = (b + 1) * 2 := units_of_le h
    rw [hb, units_of_le (Nat.le_of_lt h), scale_of_lt h, Nat.add_mul]
    rfl
  · have hr := Nat.mod_lt b hpos
    have hq : 1 ≤ b / twoPow 52 := (Nat.one_le_div_iff hpos).2 h
    have hb := Nat.div_add_mod b (twoPow 52)
    have hscale : scale b = b / twoPow 52 := Nat.max_eq_right hq
    rw [hscale]
    generalize b / twoPow 52 = q at hq hb
    generalize b % twoPow 52 = r at hr hb
    subst hb
    rw [units_normal hq hr, ← Nat.succ_mul]
    by_cases hr' : r + 1 < twoPow 52
    · rw [Nat.add_assoc, units_normal hq hr']
      rfl
    · -- the significand is full, and the next double begins a binade
      have hfull : twoPow 52 * q + r + 1 = twoPow 52 * (q + 1) + 0 := by
        rw [Nat.mul_add]
        omega
      have hdouble : (twoPow 52 + r).succ = twoPow 52 * 2 := by omega
      rw [hfull, units_normal (Nat.le_add_left 1 q) hpos, hdouble, twoPow_succ q, Nat.add_zero,
        Nat.mul_comm (twoPow q), Nat.mul_assoc]

theorem eq_zero_of_units {b : Nat} (h : units b = 0) : b = 0 := by
  have hsignificand : significand b = 0 :=
    (Nat.mul_eq_zero.1 h).resolve_right (Nat.ne_of_gt (twoPow_pos _))
  have hpos := twoPow_pos 52
  unfold significand at hsignificand
  split at hsignificand
  · exact hsignificand
  · omega

theorem units_lt_succ (b : Nat) : units b < units (b + 1) := by
  rw [units_succ]
  exact Nat.lt_add_of_pos_right (twoPow_pos _)

theorem scale_le {b k : Nat} (hk : 1 ≤ k) (h : units b < twoPow (53 + k)) : scale b ≤ k := by
  by_cases hb : b < twoPow 52
  · rwa [scale_of_lt hb]
  · have hs : twoPow 52 ≤ significand b := by simp [significand, hb]
    have hlt : twoPow (52 + scale b) < twoPow (53 + k) := calc
      twoPow (52 + scale b) = twoPow 52 * twoPow (scale b) := twoPow_add ..
      _ ≤ units b := Nat.mul_le_mul_right _ hs
      _ < twoPow (53 + k) := h
    have := lt_of_twoPow_lt hlt
    omega

/-- Below a power of two the next double is no further than that power tells. -/
theorem units_succ_le_add {b k : Nat} (hk : 1 ≤ k) (h : units b < twoPow (53 + k)) :
    units (b + 1) ≤ units b + twoPow k := by
  rw [units_succ]
  exact Nat.add_le_add_left (twoPow_le (scale_le hk h)) _

theorem lt_infinity {b : Nat} (h : units b < twoPow (53 + 1076)) : b < infinity := by
  have hdiv : b / twoPow 52 ≤ 1076 := Nat.le_trans (Nat.le_max_right 1 _) (scale_le (by decide) h)
  exact (Nat.div_lt_iff_lt_mul (twoPow_pos 52)).1 (Nat.lt_of_le_of_lt hdiv (by decide))

end Binary64

/-! ### Whole numbers -/

theorem whole_lt {n : Nat} (h : n ≤ twoPow 53) : n * twoPow 1075 < twoPow (53 + 1076) := calc
  n * twoPow 1075 ≤ twoPow 53 * twoPow 1075 := Nat.mul_le_mul_right _ h
  _ < twoPow 53 * twoPow 1075 * 2 := by
    have := Nat.mul_pos (twoPow_pos 53) (twoPow_pos 1075)
    omega
  _ = twoPow (53 + 1076) := by rw [Nat.mul_assoc, ← twoPow_succ 1075, ← twoPow_add]

theorem Decimal.readsBackAs_natCast (b d e : Nat) :
    Decimal.readsBackAs b ⟨d, e⟩ = Binary64.readsBack b (d * tenPow e) 1 := by
  have hneg : (-(e : Int)).toNat = 0 := by omega
  rw [readsBackAs, numerator, denominator, hneg]
  rfl

/-- The magnitude `b` is the positive whole number `n`, which is not beyond those that are all doubles. -/
structure IsWhole (b n : Nat) : Prop where
  pos : 0 < n
  le : n ≤ twoPow 53
  units_eq : Binary64.units b = n * twoPow 1075

namespace IsWhole

open Binary64 Decimal

variable {b n : Nat} (h : IsWhole b n)

include h

theorem ne_zero : b ≠ 0 := by
  rintro rfl
  have hunits : 0 = n * twoPow 1075 := (units_of_le (Nat.zero_le _)).symm.trans h.units_eq
  exact Nat.ne_of_lt (Nat.mul_pos h.pos (twoPow_pos 1075)) hunits

/-- The double before a whole number is at most one below it. -/
theorem units_pred : units (b - 1) < n * twoPow 1075 ∧ n * twoPow 1075 ≤ units (b - 1) + twoPow 1075 := by
  have hunits := h.units_eq
  cases b with
  | zero => exact absurd rfl h.ne_zero
  | succ a =>
    have hlt : units a < twoPow (53 + 1075) := calc
      units a < units (a + 1) := units_lt_succ a
      _ = n * twoPow 1075 := hunits
      _ ≤ twoPow 53 * twoPow 1075 := Nat.mul_le_mul_right _ h.le
      _ = twoPow (53 + 1075) := (twoPow_add ..).symm
    rw [← hunits, Nat.add_sub_cancel]
    exact ⟨units_lt_succ a, units_succ_le_add (by decide) hlt⟩

theorem units_lt : units b < twoPow (53 + 1076) := by
  rw [h.units_eq]
  exact whole_lt h.le

/-- The double after a whole number is at most two above it. -/
theorem units_succ_le : units (b + 1) ≤ n * twoPow 1075 + 2 * twoPow 1075 := by
  rw [← h.units_eq, Nat.mul_comm 2, ← twoPow_succ 1075]
  exact units_succ_le_add (by decide) h.units_lt

/-- Only the last one has a next double that is more than one above it. -/
theorem units_succ_le_of_lt (hn : n < twoPow 53) : units (b + 1) ≤ n * twoPow 1075 + twoPow 1075 := by
  have hlt : units b < twoPow (53 + 1075) := by
    rw [h.units_eq, twoPow_add]
    exact Nat.mul_lt_mul_of_pos_right hn (twoPow_pos 1075)
  rw [← h.units_eq]
  exact units_succ_le_add (by decide) hlt

theorem readsBack_self : readsBack b n 1 = true := by
  have hpred := h.units_pred.1
  have hsucc := units_lt_succ b
  have htwice : n * twoPow 1076 = 2 * (n * twoPow 1075) := by
    rw [twoPow_succ 1075, ← Nat.mul_assoc, Nat.mul_comm]
  rw [h.units_eq] at hsucc
  unfold readsBack
  simp only [h.units_eq, htwice, Nat.mul_one]
  split
  · simp only [Bool.and_eq_true, decide_eq_true_eq]
    omega
  · simp only [Bool.and_eq_true, decide_eq_true_eq]
    omega

/-- A multiple of ten reads back as no other whole number. -/
theorem readsBack_of_ne {p : Nat} (hp : 10 ∣ p) (hne : p ≠ n) : readsBack b p 1 = false := by
  have hpred := h.units_pred.2
  have hsucc := h.units_succ_le
  have htwice : p * twoPow 1076 = 2 * (p * twoPow 1075) := by
    rw [twoPow_succ 1075, ← Nat.mul_assoc, Nat.mul_comm]
  have hpos := twoPow_pos 1075
  -- The decimal is at least one away, and above the last whole number it is not the next one.
  have hfar : p * twoPow 1075 + twoPow 1075 ≤ n * twoPow 1075 ∨
      n * twoPow 1075 + units (b + 1) < 2 * (p * twoPow 1075) := by
    rcases Nat.lt_or_gt_of_ne hne with hlt | hgt
    · refine .inl ?_
      rw [← Nat.succ_mul]
      exact Nat.mul_le_mul_right _ hlt
    · refine .inr ?_
      rcases Nat.lt_or_eq_of_le (Nat.succ_le_of_lt hgt) with hgt | rfl
      · have hmul : (n + 2) * twoPow 1075 ≤ p * twoPow 1075 := Nat.mul_le_mul_right _ hgt
        rw [Nat.add_mul] at hmul
        omega
      · have hlast : n ≠ twoPow 53 := by
          rintro rfl
          exact absurd hp (by decide)
        have hsucc' := h.units_succ_le_of_lt (Nat.lt_of_le_of_ne h.le hlast)
        have hmul : n.succ * twoPow 1075 = n * twoPow 1075 + twoPow 1075 := Nat.succ_mul ..
        omega
  unfold readsBack
  simp only [h.units_eq, htwice, Nat.mul_one]
  split
  · simp only [Bool.and_eq_false_iff, decide_eq_false_iff_not]
    omega
  · simp only [Bool.and_eq_false_iff, decide_eq_false_iff_not]
    omega

/-! ### Grids -/

theorem below_eq (e : Nat) : Decimal.below b e = ⟨n / tenPow e, e⟩ := by
  have hneg : (-(e : Int)).toNat = 0 := by omega
  have hone : tenPow 0 = 1 := rfl
  rw [Decimal.below, hneg, Int.toNat_natCast, hone, Nat.mul_one, h.units_eq, Nat.mul_comm n,
    Nat.mul_div_mul_left _ _ (twoPow_pos 1075)]

/-- A grid that does not hold the number holds nothing that reads back as it. -/
theorem onGrid?_eq_none {e : Nat} (he : ¬ tenPow e ∣ n) : Decimal.onGrid? b e = none := by
  have hten : 10 ∣ tenPow e := by
    cases e with
    | zero => exact absurd (Nat.one_dvd n) he
    | succ e => exact Nat.dvd_mul_left 10 _
  have hreads (d : Nat) : Decimal.readsBackAs b ⟨d, e⟩ = false := by
    rw [readsBackAs_natCast]
    refine h.readsBack_of_ne (Nat.dvd_mul_left_of_dvd hten d) ?_
    rintro rfl
    exact he (Nat.dvd_mul_left ..)
  unfold Decimal.onGrid?
  simp only [h.below_eq, Decimal.next, hreads]

/-- On a grid that holds the number, the number itself is the nearest to read back. -/
theorem onGrid?_eq_some {e : Nat} (he : tenPow e ∣ n) : Decimal.onGrid? b e = some ⟨n / tenPow e, e⟩ := by
  have hexact : n / tenPow e * tenPow e = n := Nat.div_mul_cancel he
  have hreads : Decimal.readsBackAs b ⟨n / tenPow e, e⟩ = true := by
    rw [readsBackAs_natCast, hexact]
    exact h.readsBack_self
  have hnearer : Decimal.nearerNext b ⟨n / tenPow e, e⟩ = false := by
    have hlt : 2 * (n * twoPow 1075) < (2 * (n / tenPow e) + 1) * tenPow e * twoPow 1075 := by
      have hpos := Nat.mul_pos (tenPow_pos e) (twoPow_pos 1075)
      rw [Nat.add_mul, Nat.mul_assoc 2, hexact, Nat.add_mul, Nat.mul_assoc 2, Nat.one_mul]
      omega
    have hneg : (-(e : Int)).toNat = 0 := by omega
    have hone : tenPow 0 = 1 := rfl
    rw [nearerNext, denominator, h.units_eq]
    simpa [hneg, hone] using hlt
  unfold Decimal.onGrid?
  simp only [h.below_eq, hreads, hnearer]
  split <;> simp_all

/-! ### The fewest digits -/

/-- The search stops at the coarsest grid that holds the number. -/
theorem search_eq {d e : Nat} (hn : n = d * tenPow e) (hd : ¬ 10 ∣ d) (k : Nat) :
    search b (1074 + e + k) = ⟨d, e⟩ := by
  induction k with
  | zero =>
    have hcast : ((1073 + e + 1 : Nat) : Int) - 1074 = e := by omega
    have hgrid := h.onGrid?_eq_some (e := e) ⟨d, by rw [hn, Nat.mul_comm]⟩
    have hdiv : n / tenPow e = d := by rw [hn, Nat.mul_div_cancel _ (tenPow_pos e)]
    rw [show 1074 + e + 0 = 1073 + e + 1 by omega, search, hcast, hgrid, hdiv]
    rfl
  | succ k ih =>
    have hcast : ((1074 + e + k + 1 : Nat) : Int) - 1074 = (e + k + 1 : Nat) := by omega
    have hfiner : ¬ tenPow (e + k + 1) ∣ n := by
      intro hdvd
      have : tenPow (e + 1) ∣ n := Nat.dvd_trans (Nat.pow_dvd_pow 10 (by omega)) hdvd
      rw [hn, tenPow_add, Nat.mul_comm d, Nat.mul_dvd_mul_iff_left (tenPow_pos e)] at this
      exact hd this
    rw [← Nat.add_assoc, search, hcast, h.onGrid?_eq_none hfiner]
    exact ih

/-- The search starts above that grid. -/
theorem le_coarsest {d e : Nat} (hn : n = d * tenPow e) : 1074 + e ≤ coarsest b := by
  have hdiv : units b * tenPow 1074 / twoPow 1075 = n * tenPow 1074 := by
    rw [h.units_eq, Nat.mul_right_comm, Nat.mul_div_cancel _ (twoPow_pos 1075)]
  have hd : 0 < d := Nat.pos_of_ne_zero fun hd => by
    have := h.pos
    simp [hn, hd] at this
  rw [coarsest, hdiv]
  have hlog : n * tenPow 1074 < twoPow ((n * tenPow 1074).log2 + 1) := Nat.lt_log2_self
  generalize (n * tenPow 1074).log2 = l at hlog ⊢
  have hle : tenPow (1074 + e) < twoPow (l + 1) := calc
    tenPow (1074 + e) = tenPow e * tenPow 1074 := by rw [tenPow_add, Nat.mul_comm]
    _ ≤ n * tenPow 1074 := Nat.mul_le_mul_right _ (hn ▸ Nat.le_mul_of_pos_left _ hd)
    _ < twoPow (l + 1) := hlog
  have hpow : twoPow (93 * (1074 + e)) < twoPow (28 * (l + 1)) := calc
    twoPow (93 * (1074 + e)) = twoPow 93 ^ (1074 + e) := Nat.pow_mul ..
    _ ≤ tenPow 28 ^ (1074 + e) := Nat.pow_le_pow_left (by decide) _
    _ = tenPow (1074 + e) ^ 28 := Nat.pow_right_comm ..
    _ < twoPow (l + 1) ^ 28 := Nat.pow_lt_pow_left hle (by decide)
    _ = twoPow (28 * (l + 1)) := by rw [Nat.mul_comm]; exact (Nat.pow_mul ..).symm
  have := lt_of_twoPow_lt hpow
  rw [Nat.le_div_iff_mul_le (by decide)]
  omega

theorem shortest_eq {d e : Nat} (hn : n = d * tenPow e) (hd : ¬ 10 ∣ d) : shortest b = ⟨d, e⟩ := by
  obtain ⟨k, hk⟩ := Nat.exists_eq_add_of_le (h.le_coarsest hn)
  rw [shortest, hk, h.search_eq hn hd]

end IsWhole

/-! ### Text -/

namespace Numeral

/-- Digits that reach up to the point are followed by zeros. -/
theorem layout_whole {digits : List Char} {e : Nat} (h : digits.length + e ≤ 21) :
    layout digits ((e : Int) + digits.length - 1) = digits ++ List.replicate e '0' := by
  have hcount : ((e : Int) + digits.length - 1 + 1 - digits.length).toNat = e := by omega
  unfold layout
  dsimp only
  rw [if_pos (by omega), hcount]

theorem toDigits_append_zeros {d : Nat} (hd : 0 < d) (e : Nat) :
    Nat.toDigits 10 d ++ List.replicate e '0' = Nat.toDigits 10 (d * tenPow e) := by
  induction e with
  | zero => simp [tenPow]
  | succ e ih =>
    have hzero : Nat.toDigits 10 0 = ['0'] := rfl
    have happend := Nat.toDigits_append_toDigits (b := 10) (n := d * tenPow e) (d := 0) (by decide)
      (Nat.mul_pos hd (tenPow_pos e)) (by decide)
    rw [List.replicate_succ', ← List.append_assoc, ih, ← hzero, happend, Nat.add_zero, tenPow_add, Nat.mul_comm 10,
      ← Nat.mul_assoc]
    rfl

/-- A whole number is written in full. -/
theorem magnitudeText_whole {b n : Nat} (h : IsWhole b n) : magnitudeText b = Nat.toDigits 10 n := by
  obtain ⟨e, d, hd, hn⟩ := Nat.exists_eq_pow_mul_and_not_dvd (Nat.ne_of_gt h.pos) 10 (by decide)
  have hn' : n = d * tenPow e := by rw [Nat.mul_comm]; exact hn
  have hpos : 0 < d := Nat.pos_of_ne_zero fun hzero => hd (hzero ▸ Nat.dvd_zero 10)
  have hdigits := toDigits_append_zeros hpos e
  have hlength : (Nat.toDigits 10 d).length + e ≤ 21 := by
    have hlt : n < 10 ^ 21 := Nat.lt_of_le_of_lt h.le (by decide)
    have := (Nat.length_toDigits_le_iff (b := 10) (by decide) (by decide)).2 hlt
    rw [hn', ← hdigits, List.length_append, List.length_replicate] at this
    exact this
  rw [magnitudeText, h.shortest_eq hn' hd]
  dsimp only
  rw [layout_whole hlength, hdigits, hn']

end Numeral

/-- The double is the natural number `n`. Both zeros are zero. -/
structure Binary64.IsNat (x : Float) (n : Nat) : Prop where
  sign : isNegative x = true → n = 0
  units_eq : units (magnitude x) = n * twoPow 1075

/-- Up to `2 ^ 53` natural numbers are written as such. -/
theorem Numeral.text_of_isNat {x : Float} {n : Nat} (hx : Binary64.IsNat x n) (hn : n ≤ twoPow 53) :
    text x = n.repr := by
  have hfinite : Binary64.magnitude x < Binary64.infinity := by
    refine Binary64.lt_infinity ?_
    rw [hx.units_eq]
    exact whole_lt hn
  unfold text
  dsimp only
  rw [if_neg (by omega), if_neg (by omega)]
  rcases Nat.eq_zero_or_pos n with rfl | hpos
  · have hzero := Binary64.eq_zero_of_units (hx.units_eq.trans (Nat.zero_mul _))
    rw [if_pos hzero]
    rfl
  · have hwhole : IsWhole (Binary64.magnitude x) n := ⟨hpos, hn, hx.units_eq⟩
    have hsign : ¬ Binary64.isNegative x = true := fun h => Nat.ne_of_gt hpos (hx.sign h)
    rw [if_neg hwhole.ne_zero, if_neg hsign, magnitudeText_whole hwhole]
    rfl

end DeclCompiler
