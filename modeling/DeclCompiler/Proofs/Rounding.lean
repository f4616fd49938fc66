import DeclCompiler.Proofs.WholeNumber

/-!
Rounding to the nearest double. Between the midpoints to its two neighbours every double has the numbers that read
back as it, and these intervals meet only in midpoints, which belong to the even neighbour. The magnitude that
`nearest` computes is one in whose interval the number lies, so it is the only one.
-/

namespace DeclCompiler.Binary64

/-! ### Intervals -/

theorem units_le_of_le {a b : Nat} (h : a ≤ b) : units a ≤ units b := by
  induction h with
  | refl => exact Nat.le_refl _
  | step _ ih => exact Nat.le_trans ih (Nat.le_of_lt (units_lt_succ _))

theorem units_lt_of_lt {a b : Nat} (h : a < b) : units a < units b :=
  Nat.lt_of_lt_of_le (units_lt_succ a) (units_le_of_le h)

/-- A number reads back as `b` if it lies between the two midpoints, and strictly so if `b` is odd. -/
theorem readsBack_iff {b p r : Nat} :
    readsBack b p r = true ↔
      (units (b - 1) + units b) * r ≤ p * twoPow 1076 ∧ p * twoPow 1076 ≤ (units b + units (b + 1)) * r ∧
        (b % 2 = 1 → (units (b - 1) + units b) * r ≠ p * twoPow 1076 ∧
          p * twoPow 1076 ≠ (units b + units (b + 1)) * r) := by
  unfold readsBack
  split
  next h =>
    simp only [Bool.and_eq_true, decide_eq_true_eq]
    omega
  next h =>
    simp only [Bool.and_eq_true, decide_eq_true_eq]
    omega

/-- No number reads back as two doubles. -/
theorem eq_of_readsBack {a b p r : Nat} (hr : 0 < r) (ha : readsBack a p r = true) (hb : readsBack b p r = true) :
    a = b := by
  have hle : ∀ {a b : Nat}, readsBack a p r = true → readsBack b p r = true → ¬ a < b := by
    intro a b ha hb hlt
    obtain ⟨-, hupper, hodd⟩ := readsBack_iff.1 ha
    obtain ⟨hlower, -, hodd'⟩ := readsBack_iff.1 hb
    have hmid : units a + units (a + 1) ≤ units (b - 1) + units b :=
      Nat.add_le_add (units_le_of_le (by omega)) (units_le_of_le hlt)
    have hmid' : (units a + units (a + 1)) * r ≤ (units (b - 1) + units b) * r := Nat.mul_le_mul_right r hmid
    -- the two intervals can only meet in the midpoint between neighbours
    have hsum : units a + units (a + 1) = units (b - 1) + units b := Nat.eq_of_mul_eq_mul_right hr (by omega)
    have hnext : b = a + 1 := by
      by_contra hne
      have hfar : units a < units (b - 1) := units_lt_of_lt (by omega)
      have hfar' : units (a + 1) ≤ units b := units_le_of_le hlt
      omega
    rcases Nat.mod_two_eq_zero_or_one a with heven | hone
    · exact (hodd' (by omega)).1 (by omega)
    · exact (hodd hone).2 (by omega)
  rcases Nat.lt_trichotomy a b with hlt | heq | hgt
  · exact absurd hlt (hle ha hb)
  · exact heq
  · exact absurd hgt (hle hb ha)

theorem twoPow_1076 (p : Nat) : p * twoPow 1076 = 2 * (p * twoPow 1075) := by
  rw [twoPow_succ 1075, ← Nat.mul_assoc, Nat.mul_comm]

/-- The double itself reads back. -/
theorem readsBack_of_eq {b p r : Nat} (hb : 0 < b) (hr : 0 < r) (h : p * twoPow 1075 = units b * r) :
    readsBack b p r = true := by
  have hpred : units (b - 1) * r < units b * r := Nat.mul_lt_mul_of_pos_right (units_lt_of_lt (by omega)) hr
  have hsucc : units b * r < units (b + 1) * r := Nat.mul_lt_mul_of_pos_right (units_lt_succ b) hr
  rw [readsBack_iff, twoPow_1076, h, Nat.add_mul, Nat.add_mul]
  omega

/-- Whether a number reads back does not depend on the fraction that it is given by. -/
theorem readsBack_congr {b p r p' r' : Nat} (hr : 0 < r) (hr' : 0 < r') (h : p * r' = p' * r) :
    readsBack b p r = readsBack b p' r' := by
  have hswap : p * twoPow 1076 * r' = p' * twoPow 1076 * r := by
    rw [Nat.mul_right_comm, h, Nat.mul_right_comm]
  have hle : ∀ x, x * r ≤ p * twoPow 1076 ↔ x * r' ≤ p' * twoPow 1076 := by
    intro x
    rw [← Nat.mul_le_mul_right_iff hr', hswap, Nat.mul_right_comm, Nat.mul_le_mul_right_iff hr]
  have hge : ∀ x, p * twoPow 1076 ≤ x * r ↔ p' * twoPow 1076 ≤ x * r' := by
    intro x
    rw [← Nat.mul_le_mul_right_iff hr', hswap, Nat.mul_right_comm x, Nat.mul_le_mul_right_iff hr]
  rw [Bool.eq_iff_iff, readsBack_iff, readsBack_iff]
  have hlower := hle (units (b - 1) + units b)
  have hlower' := hge (units (b - 1) + units b)
  have hupper := hle (units b + units (b + 1))
  have hupper' := hge (units b + units (b + 1))
  omega

/-! ### Rounding to whole numbers -/

/-- The rounded quotient is within a half of the exact one, and even when it is a half away. -/
theorem roundHalfEven_spec (n : Nat) {d : Nat} (hd : 0 < d) :
    2 * (roundHalfEven n d * d) ≤ 2 * n + d ∧ 2 * n ≤ 2 * (roundHalfEven n d * d) + d ∧
      (roundHalfEven n d % 2 = 1 →
        2 * (roundHalfEven n d * d) ≠ 2 * n + d ∧ 2 * n ≠ 2 * (roundHalfEven n d * d) + d) := by
  have hdiv := Nat.div_add_mod' n d
  have hmod := Nat.mod_lt n hd
  have hsucc : (n / d + 1) * d = n / d * d + d := Nat.succ_mul ..
  unfold roundHalfEven
  split
  next h => omega
  next h =>
    rw [hsucc]
    omega

theorem roundHalfEven_le {n d k : Nat} (hd : 0 < d) (h : n < k * d) : roundHalfEven n d ≤ k := by
  have hlt : n / d < k := (Nat.div_lt_iff_lt_mul hd).2 h
  unfold roundHalfEven
  split <;> omega

theorem le_roundHalfEven {n d k : Nat} (hd : 0 < d) (h : k * d ≤ n) : k ≤ roundHalfEven n d := by
  have hle : k ≤ n / d := (Nat.le_div_iff_mul_le hd).2 h
  unfold roundHalfEven
  split <;> omega

/-! ### Significands -/

/-- The magnitude with the given scale and significand. A significand of `2 ^ 53` carries into the next binade. -/
def compose (s k : Nat) : Nat := (s - 1) * twoPow 52 + k

theorem compose_succ (s k : Nat) : compose s (k + 1) = compose s k + 1 := (Nat.add_assoc ..).symm

/-- Only at the least scale a significand may be short. -/
structure Composes (s k : Nat) : Prop where
  scale : 1 ≤ s
  low : s = 1 ∨ twoPow 52 ≤ k
  high : k ≤ twoPow 53

theorem twoPow_53 : twoPow 53 = 2 * twoPow 52 := by rw [twoPow_succ 52, Nat.mul_comm]

theorem units_compose_of_lt {s k : Nat} (h : Composes s k) (hk : k < twoPow 53) :
    units (compose s k) = k * twoPow s := by
  have hfull := twoPow_53
  rcases Nat.lt_or_ge k (twoPow 52) with hlow | hlow
  · obtain rfl : s = 1 := h.low.resolve_right (by omega)
    rw [compose, Nat.sub_self, Nat.zero_mul, Nat.zero_add, units_of_le (Nat.le_of_lt hlow)]
    rfl
  · obtain ⟨t, rfl⟩ := Nat.exists_eq_add_of_le' h.scale
    obtain ⟨j, rfl⟩ := Nat.exists_eq_add_of_le hlow
    have hcompose : compose (t + 1) (twoPow 52 + j) = twoPow 52 * (t + 1) + j := by
      rw [compose, Nat.add_sub_cancel, Nat.mul_comm t, Nat.mul_succ, Nat.add_assoc]
    rw [hcompose, units_normal (Nat.le_add_left 1 t) (by omega)]

theorem compose_full (s : Nat) (hs : 1 ≤ s) : compose s (twoPow 53) = compose (s + 1) (twoPow 52) := by
  obtain ⟨t, rfl⟩ := Nat.exists_eq_add_of_le' hs
  simp only [compose, Nat.add_sub_cancel, twoPow_53, Nat.succ_mul]
  omega

theorem compose_next (s : Nat) : Composes (s + 1) (twoPow 52) :=
  ⟨Nat.le_add_left 1 s, .inr (Nat.le_refl _), twoPow_le (by decide)⟩

theorem full_mul (s : Nat) : twoPow 53 * twoPow s = twoPow 52 * twoPow (s + 1) := by
  rw [← twoPow_add, ← twoPow_add]
  congr 1
  omega

theorem units_compose {s k : Nat} (h : Composes s k) : units (compose s k) = k * twoPow s := by
  rcases Nat.lt_or_eq_of_le h.high with hk | rfl
  · exact units_compose_of_lt h hk
  · rw [compose_full s h.scale, units_compose_of_lt (compose_next s) (by decide), full_mul]

/-- The next double is at least one unit of the significand away. -/
theorem le_units_compose_succ {s k : Nat} (h : Composes s k) : k * twoPow s + twoPow s ≤ units (compose s k + 1) := by
  have hbelow : ∀ {s k : Nat}, Composes s k → k < twoPow 53 → units (compose s k + 1) = k * twoPow s + twoPow s := by
    intro s k h hk
    have hnext : Composes s (k + 1) := ⟨h.scale, h.low.imp_right Nat.le_succ_of_le, hk⟩
    rw [← compose_succ, units_compose hnext, Nat.succ_mul]
  rcases Nat.lt_or_eq_of_le h.high with hk | rfl
  · exact Nat.le_of_eq (hbelow h hk).symm
  · rw [compose_full s h.scale, hbelow (compose_next s) (by decide), full_mul]
    exact Nat.add_le_add_left (twoPow_le (Nat.le_succ s)) _

/-- The double before is one unit of the significand away, except at the beginning of a binade. Zero has none. -/
theorem units_compose_pred {s k : Nat} (h : Composes s k) :
    units (compose s k - 1) + twoPow s = k * twoPow s ∨
      (s ≠ 1 ∧ k = twoPow 52 ∧ units (compose s k - 1) < k * twoPow s) ∨
      (k = 0 ∧ units (compose s k - 1) = 0) := by
  cases k with
  | zero =>
    obtain rfl : s = 1 := h.low.resolve_right (Nat.not_le_of_lt (twoPow_pos 52))
    exact .inr (.inr ⟨rfl, rfl⟩)
  | succ k =>
    rw [compose_succ, Nat.add_sub_cancel]
    by_cases hk : s = 1 ∨ twoPow 52 ≤ k
    · refine .inl ?_
      rw [units_compose ⟨h.scale, hk, Nat.le_of_succ_le h.high⟩, Nat.succ_mul]
    · have hfull : k + 1 = twoPow 52 := by
        have := h.low
        omega
      refine .inr (.inl ⟨fun hone => hk (.inl hone), hfull, ?_⟩)
      rw [← units_compose h, compose_succ]
      exact units_lt_succ _

/-! ### The nearest double -/

/-- The magnitude that `nearest` computes, before it is cut off at infinity. -/
def uncapped (p r : Nat) : Nat :=
  let s := max 1 ((p * twoPow 1075 / r).log2 - 52)
  compose s (roundHalfEven (p * twoPow 1075) (r * twoPow s))

theorem nearest_eq (p r : Nat) : nearest p r = min infinity (uncapped p r) := rfl

/-- The scale at which the number `n / r`, in units, fills the significand. -/
structure Fills (n r s : Nat) : Prop where
  scale : 1 ≤ s
  below : n < twoPow 53 * (r * twoPow s)
  above : s = 1 ∨ twoPow 52 * (r * twoPow s) ≤ n

theorem fills_scale {n r s : Nat} (hr : 0 < r) (hs : s = max 1 ((n / r).log2 - 52)) : Fills n r s := by
  have hlog : n / r < twoPow ((n / r).log2 + 1) := Nat.lt_log2_self
  have hupper : n < twoPow ((n / r).log2 + 1) * r := (Nat.div_lt_iff_lt_mul hr).1 hlog
  refine ⟨by omega, ?_, ?_⟩
  · calc
      n < twoPow ((n / r).log2 + 1) * r := hupper
      _ ≤ twoPow (53 + s) * r := Nat.mul_le_mul_right r (twoPow_le (by omega))
      _ = twoPow 53 * (r * twoPow s) := by rw [twoPow_add, Nat.mul_right_comm, Nat.mul_assoc]
  · by_cases hone : s = 1
    · exact .inl hone
    · have hne : n / r ≠ 0 := by
        intro hzero
        rw [hzero] at hs
        exact hone hs
      have hlower : twoPow ((n / r).log2) * r ≤ n := (Nat.le_div_iff_mul_le hr).1 (Nat.log2_self_le hne)
      refine .inr ?_
      calc
        twoPow 52 * (r * twoPow s) = twoPow (52 + s) * r := by
          rw [twoPow_add, Nat.mul_right_comm, Nat.mul_assoc]
        _ ≤ twoPow ((n / r).log2) * r := Nat.mul_le_mul_right r (twoPow_le (by omega))
        _ ≤ n := hlower

theorem compose_mod_two (s k : Nat) : compose s k % 2 = k % 2 := by
  have heven : twoPow 52 = 2 * twoPow 51 := by rw [twoPow_succ 51, Nat.mul_comm]
  rw [compose, heven, Nat.mul_left_comm, Nat.mul_add_mod]

theorem Fills.composes {n r s : Nat} (h : Fills n r s) (hr : 0 < r) : Composes s (roundHalfEven n (r * twoPow s)) :=
  have hd : 0 < r * twoPow s := Nat.mul_pos hr (twoPow_pos s)
  ⟨h.scale, h.above.imp_right (le_roundHalfEven hd), roundHalfEven_le hd h.below⟩

/-- Rounded at the scale that it fills, a number lies in the interval of the magnitude. -/
theorem Fills.readsBack {p r s : Nat} (h : Fills (p * twoPow 1075) r s) (hr : 0 < r) :
    readsBack (compose s (roundHalfEven (p * twoPow 1075) (r * twoPow s))) p r = true := by
  have hd : 0 < r * twoPow s := Nat.mul_pos hr (twoPow_pos s)
  obtain ⟨hlower, hupper, hodd⟩ := roundHalfEven_spec (p * twoPow 1075) hd
  have hcomposes := h.composes hr
  generalize roundHalfEven (p * twoPow 1075) (r * twoPow s) = k at hlower hupper hodd hcomposes
  have hmul : ∀ x, x * (r * twoPow s) = x * twoPow s * r := fun x => by rw [Nat.mul_left_comm, Nat.mul_comm]
  have hunit : r * twoPow s = twoPow s * r := Nat.mul_comm ..
  rw [hmul, hunit] at hlower hupper hodd
  have hparity := compose_mod_two s k
  have hnext : (k * twoPow s + twoPow s) * r ≤ units (compose s k + 1) * r :=
    Nat.mul_le_mul_right r (le_units_compose_succ hcomposes)
  rw [Nat.add_mul] at hnext
  rw [readsBack_iff, twoPow_1076, units_compose hcomposes, Nat.add_mul, Nat.add_mul]
  rcases units_compose_pred hcomposes with hpred | ⟨hone, hfull, hpred⟩ | ⟨rfl, hpred⟩
  · have hpred' : units (compose s k - 1) * r + twoPow s * r = k * twoPow s * r := by rw [← Nat.add_mul, hpred]
    omega
  · -- at the beginning of a binade the number is not below the double
    have hpred' : units (compose s k - 1) * r < k * twoPow s * r := Nat.mul_lt_mul_of_pos_right hpred hr
    have hle : k * twoPow s * r ≤ p * twoPow 1075 := by
      rw [← hmul, hfull]
      exact h.above.resolve_left hone
    omega
  · rw [hpred]
    omega

/-- The number lies in the interval of the magnitude that is computed for it. -/
theorem readsBack_uncapped (p : Nat) {r : Nat} (hr : 0 < r) : readsBack (uncapped p r) p r = true :=
  (fills_scale hr rfl).readsBack hr

/-- The nearest double is the one that the number reads back as, unless that is beyond the finite ones. -/
theorem nearest_eq_min {b p r : Nat} (hr : 0 < r) (h : readsBack b p r = true) : nearest p r = min infinity b := by
  rw [nearest_eq, eq_of_readsBack hr (readsBack_uncapped p hr) h]

theorem nearest_eq_of_readsBack {b p r : Nat} (hr : 0 < r) (hb : b ≤ infinity) (h : readsBack b p r = true) :
    nearest p r = b := (nearest_eq_min hr h).trans (Nat.min_eq_right hb)

theorem nearest_congr {p r p' r' : Nat} (hr : 0 < r) (hr' : 0 < r') (h : p * r' = p' * r) :
    nearest p r = nearest p' r' := by
  rw [nearest_eq p', ← nearest_eq_min hr]
  rw [readsBack_congr hr hr' h]
  exact readsBack_uncapped p' hr'

end DeclCompiler.Binary64
