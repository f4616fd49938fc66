import DeclCompiler.Proofs.Arithmetic
import DeclCompiler.Proofs.Grammar

/-!
Strings with digits in a radix. The digits are taken in from the left by products and sums of doubles, each of them
rounded. As long as the number has room in a significand nothing is lost. The digit that fills the significand is the
last one that counts: its sum is rounded, and every further digit is less than half of the distance to the next double.
So the result is the double nearest to the whole number, except where the rounding was a tie that went down while
digits other than zero were still to come.
-/

namespace DeclCompiler.Binary64

/-! ### The nearest double to a whole number -/

/-- Of all magnitudes, with exponents that have no end, `b` is nearest to the whole number `n`, and it is even if
another one is as near. -/
def IsNearest (n b : Nat) : Prop :=
  ∀ c, c ≠ b → Nat.dist (units b) (n * twoPow 1075) < Nat.dist (units c) (n * twoPow 1075) ∨
    (Nat.dist (units b) (n * twoPow 1075) = Nat.dist (units c) (n * twoPow 1075) ∧ b % 2 = 0)

/-- Halfway between two neighbouring doubles, the lower of which is even. -/
def IsTieDown (n : Nat) : Prop := ∃ b, b % 2 = 0 ∧ 2 * (n * twoPow 1075) = units b + units (b + 1)

/-- The interval of a double in units. -/
theorem readsBack_units_iff {b p : Nat} : readsBack b p (twoPow 1075) = true ↔
    units (b - 1) + units b ≤ 2 * p ∧ 2 * p ≤ units b + units (b + 1) ∧
      (b % 2 = 1 → units (b - 1) + units b ≠ 2 * p ∧ 2 * p ≠ units b + units (b + 1)) := by
  have hpos := twoPow_pos 1075
  rw [readsBack_iff, twoPow_1076, ← Nat.mul_assoc, Nat.mul_le_mul_right_iff hpos, Nat.mul_le_mul_right_iff hpos, Ne, Ne,
    Nat.mul_left_inj hpos.ne', Nat.mul_left_inj hpos.ne']

/-- Nearest is what lies between the midpoints to both neighbours. -/
theorem isNearest_iff {n b : Nat} : IsNearest n b ↔ readsBack b (n * twoPow 1075) (twoPow 1075) = true := by
  rw [readsBack_units_iff, IsNearest]
  generalize n * twoPow 1075 = x
  constructor
  · intro h
    have habove := h (b + 1) (by omega)
    have hsucc := units_lt_succ b
    unfold Nat.dist at habove
    cases b with
    | zero =>
      have hzero : units 0 = 0 := rfl
      rw [hzero] at habove hsucc
      rw [Nat.zero_sub, hzero]
      omega
    | succ b =>
      have hbelow := h b (by omega)
      have hpred := units_lt_succ b
      rw [Nat.add_sub_cancel]
      unfold Nat.dist at hbelow
      omega
  · rintro ⟨hlower, hupper, hodd⟩ c hc
    unfold Nat.dist
    rcases Nat.lt_or_gt_of_ne hc with hlt | hgt
    · have hle : units c ≤ units (b - 1) := units_le_of_le (by omega)
      have hpred : units (b - 1) < units b := units_lt_of_lt (by omega)
      omega
    · have hle : units (b + 1) ≤ units c := units_le_of_le hgt
      have hsucc := units_lt_succ b
      omega

theorem IsNearest.nearest_eq {n b : Nat} (h : IsNearest n b) :
    nearest (n * twoPow 1075) (twoPow 1075) = min infinity b :=
  nearest_eq_min (twoPow_pos 1075) (isNearest_iff.1 h)

theorem exists_isNearest (n : Nat) : ∃ b, IsNearest n b :=
  ⟨_, isNearest_iff.2 (readsBack_uncapped (n * twoPow 1075) (twoPow_pos 1075))⟩

theorem IsNearest.eq {n b c : Nat} (hb : IsNearest n b) (hc : IsNearest n c) : b = c :=
  eq_of_readsBack (twoPow_pos 1075) (isNearest_iff.1 hb) (isNearest_iff.1 hc)

theorem isNearest_of_units {n b : Nat} (h : units b = n * twoPow 1075) : IsNearest n b := by
  rw [isNearest_iff, ← h]
  exact readsBack_units b

/-- A tie goes to the even double. -/
theorem isNearest_of_tie {n b : Nat} (heven : b % 2 = 0) (htie : 2 * (n * twoPow 1075) = units b + units (b + 1)) :
    IsNearest n b := by
  have hpred : units (b - 1) ≤ units b := units_le_of_le (Nat.sub_le b 1)
  have hsucc := units_lt_succ b
  rw [isNearest_iff, readsBack_units_iff]
  omega

/-! ### Full significands -/

/-- Binades repeat at twice the scale. -/
theorem units_raise {b : Nat} (hb : twoPow 52 ≤ b) (j : Nat) : units (b + j * twoPow 52) = units b * twoPow j := by
  have hpos := twoPow_pos 52
  have hlt := Nat.mod_lt b hpos
  have hscale : 1 ≤ b / twoPow 52 := (Nat.le_div_iff_mul_le hpos).2 (by omega)
  have hdiv := Nat.div_add_mod b (twoPow 52)
  have hraised : b + j * twoPow 52 = twoPow 52 * (b / twoPow 52 + j) + b % twoPow 52 := by
    rw [Nat.mul_add, Nat.mul_comm j]
    omega
  calc
    units (b + j * twoPow 52) = (twoPow 52 + b % twoPow 52) * twoPow (b / twoPow 52 + j) := by
      rw [hraised, units_normal (Nat.le_add_right_of_le hscale) hlt]
    _ = (twoPow 52 + b % twoPow 52) * twoPow (b / twoPow 52) * twoPow j := by rw [twoPow_add, Nat.mul_assoc]
    _ = units b * twoPow j := by rw [← units_normal hscale hlt, hdiv]

theorem raise_mod_two (b j : Nat) : (b + j * twoPow 52) % 2 = b % 2 := by
  have heven : twoPow 52 = 2 * twoPow 51 := by rw [twoPow_succ 51, Nat.mul_comm]
  rw [heven, Nat.mul_left_comm, Nat.add_mul_mod_self_left]

/-- A distance of two ones grows with a shift. -/
theorem shifted_gap {x y : Nat} (h : x + 2 * twoPow 1075 ≤ y) (j : Nat) :
    x * twoPow j + 2 * (twoPow j * twoPow 1075) ≤ y * twoPow j := by
  calc
    x * twoPow j + 2 * (twoPow j * twoPow 1075) = (x + 2 * twoPow 1075) * twoPow j := by ring
    _ ≤ y * twoPow j := Nat.mul_le_mul_right _ h

/-- A magnitude of at least `2 ^ 53`. -/
def IsFull (b : Nat) : Prop := twoPow 53 * twoPow 1075 ≤ units b

theorem isFull_min {b : Nat} (hb : IsFull b) : IsFull (min infinity b) := by
  rcases Nat.le_total infinity b with hle | hle
  · rw [Nat.min_eq_left hle, IsFull, Decimal.units_infinity, ← twoPow_add]
    exact twoPow_le (by decide)
  · rw [Nat.min_eq_right hle]
    exact hb

namespace IsFull

variable {b : Nat} (hb : IsFull b)

include hb

theorem dvd_units : 2 * twoPow 1075 ∣ units b := by
  have hlt : twoPow 53 * twoPow 1075 < twoPow 53 * twoPow (scale b) :=
    Nat.lt_of_le_of_lt hb (Nat.mul_lt_mul_of_pos_right (significand_lt b) (twoPow_pos _))
  have hscale : 1075 < scale b := lt_of_twoPow_lt (Nat.lt_of_mul_lt_mul_left hlt)
  obtain ⟨j, hj⟩ := Nat.exists_eq_add_of_lt hscale
  have hpow : twoPow (scale b) = 2 * twoPow 1075 * twoPow j := by
    rw [hj, Nat.add_right_comm, twoPow_add, twoPow_succ, Nat.mul_comm 2]
  exact Dvd.dvd.mul_left (Dvd.intro _ hpow.symm) _

theorem succ : IsFull (b + 1) := Nat.le_trans hb (units_lt_succ b).le

/-- From `2 ^ 53` on, neighbouring doubles are at least two apart. -/
theorem units_add_le : units b + 2 * twoPow 1075 ≤ units (b + 1) :=
  Nat.add_le_of_le_sub' (units_lt_succ b).le
    (Nat.le_of_dvd (Nat.sub_pos_of_lt (units_lt_succ b)) (Nat.dvd_sub hb.succ.dvd_units hb.dvd_units))

theorem lt : twoPow 52 < b := by
  by_contra hle
  have hunits : units b ≤ twoPow 53 := by
    rw [twoPow_succ 52, ← units_of_le le_rfl]
    exact units_le_of_le (Nat.not_lt.1 hle)
  have hlt : twoPow 53 < twoPow 53 * twoPow 1075 := by
    refine (Nat.lt_mul_iff_one_lt_right (twoPow_pos 53)).2 ?_
    exact Nat.lt_of_lt_of_le (by decide) (twoPow_le (show 1 ≤ 1075 by decide))
  exact absurd (Nat.le_trans hb hunits) (Nat.not_le.2 hlt)

theorem raise (j : Nat) : IsFull (b + j * twoPow 52) := Nat.le_trans hb (units_le_of_le (Nat.le_add_right b _))

theorem units_raise_succ (j : Nat) : units (b + j * twoPow 52 + 1) = units (b + 1) * twoPow j := by
  rw [Nat.add_right_comm, units_raise (Nat.le_succ_of_le hb.lt.le)]

theorem units_raise_pred (j : Nat) : units (b + j * twoPow 52 - 1) = units (b - 1) * twoPow j := by
  have hlt := hb.lt
  rw [Nat.sub_add_comm (by omega), units_raise (by omega)]

/-- What is added to a full significand after a shift has no effect if it is less than the shift. -/
theorem readsBack_raise {j d : Nat} (hd : d < twoPow j) :
    readsBack (b + j * twoPow 52) (units b * twoPow j + d * twoPow 1075) (twoPow 1075) = true := by
  have hgap := shifted_gap hb.units_add_le j
  have hadded : d * twoPow 1075 < twoPow j * twoPow 1075 := Nat.mul_lt_mul_of_pos_right hd (twoPow_pos 1075)
  have hpred : units (b - 1) * twoPow j < units b * twoPow j :=
    Nat.mul_lt_mul_of_pos_right (units_lt_of_lt (by have := hb.lt; omega)) (twoPow_pos j)
  rw [readsBack_units_iff, hb.units_raise_succ, hb.units_raise_pred, units_raise hb.lt.le]
  omega

end IsFull

/-- A whole number that is at least `2 ^ 53` has such a nearest magnitude. -/
theorem IsNearest.isFull {n b : Nat} (h : IsNearest n b) (hn : twoPow 53 ≤ n) : IsFull b := by
  have hfull : units (compose 1076 (twoPow 52)) = twoPow 53 * twoPow 1075 := by
    rw [units_compose (compose_next 1075), ← full_mul]
  unfold IsFull
  rw [← hfull]
  refine units_le_of_le (Nat.not_lt.1 fun hlt => ?_)
  obtain ⟨-, hupper, -⟩ := readsBack_units_iff.1 (isNearest_iff.1 h)
  have hself := units_lt_of_lt hlt
  have hnext : units (b + 1) ≤ units (compose 1076 (twoPow 52)) := units_le_of_le hlt
  have hle : twoPow 53 * twoPow 1075 ≤ n * twoPow 1075 := Nat.mul_le_mul_right _ hn
  omega

/-! ### A rounded number and further digits -/

section

variable {n b j t : Nat} (h : IsNearest n b) (hn : twoPow 53 ≤ n) (ht : t < twoPow j)

include h hn ht

/-- Digits that follow a number do not change where it is rounded to, unless it was a tie. -/
theorem IsNearest.raise (hexact : IsTieDown n → t = 0) : IsNearest (n * twoPow j + t) (b + j * twoPow 52) := by
  have hfull := h.isFull hn
  obtain ⟨hlower, hupper, hodd⟩ := readsBack_units_iff.1 (isNearest_iff.1 h)
  have hexpand : (n * twoPow j + t) * twoPow 1075 = n * twoPow 1075 * twoPow j + t * twoPow 1075 := by ring
  have hadded : t * twoPow 1075 < twoPow j * twoPow 1075 := Nat.mul_lt_mul_of_pos_right ht (twoPow_pos 1075)
  have hscaled : units (b - 1) * twoPow j + units b * twoPow j ≤ 2 * (n * twoPow 1075 * twoPow j) := by
    rw [← Nat.add_mul, ← Nat.mul_assoc]
    exact Nat.mul_le_mul_right _ hlower
  have hstrict : b % 2 = 1 → units (b - 1) * twoPow j + units b * twoPow j < 2 * (n * twoPow 1075 * twoPow j) := by
    intro hone
    rw [← Nat.add_mul, ← Nat.mul_assoc]
    exact Nat.mul_lt_mul_of_pos_right (Nat.lt_of_le_of_ne hlower (hodd hone).1) (twoPow_pos j)
  rw [isNearest_iff, readsBack_units_iff, hfull.units_raise_succ, hfull.units_raise_pred, units_raise hfull.lt.le,
    raise_mod_two, hexpand]
  by_cases htie : 2 * (n * twoPow 1075) = units b + units (b + 1)
  · have heven : b % 2 = 0 := by omega
    have hzero : t * twoPow 1075 = 0 := by rw [hexact ⟨b, heven, htie⟩, Nat.zero_mul]
    have hscaled' : 2 * (n * twoPow 1075 * twoPow j) = units b * twoPow j + units (b + 1) * twoPow j := by
      rw [← Nat.add_mul, ← htie]
      exact (Nat.mul_assoc ..).symm
    omega
  · -- twice the number and the sum of the two doubles are multiples of the same distance
    have hdvd : 2 * twoPow 1075 ∣ units b + units (b + 1) - 2 * (n * twoPow 1075) :=
      Nat.dvd_sub (Nat.dvd_add hfull.dvd_units hfull.succ.dvd_units) ⟨n, by ring⟩
    have hgap : 2 * (n * twoPow 1075) + 2 * twoPow 1075 ≤ units b + units (b + 1) :=
      Nat.add_le_of_le_sub' hupper (Nat.le_of_dvd (by omega) hdvd)
    have hshifted := shifted_gap hgap j
    rw [Nat.add_mul (units b), Nat.mul_assoc 2] at hshifted
    omega

/-- After a tie that went down, any digit that counts makes the next double the nearest one. -/
theorem IsNearest.raise_succ (htie : IsTieDown n) (hpos : 0 < t) :
    IsNearest (n * twoPow j + t) (b + j * twoPow 52 + 1) := by
  have hfull := h.isFull hn
  obtain ⟨c, heven, htie⟩ := htie
  obtain rfl : c = b := (isNearest_of_tie heven htie).eq h
  have hexpand : (n * twoPow j + t) * twoPow 1075 = n * twoPow 1075 * twoPow j + t * twoPow 1075 := by ring
  have hadded : t * twoPow 1075 < twoPow j * twoPow 1075 := Nat.mul_lt_mul_of_pos_right ht (twoPow_pos 1075)
  have hadded' : 0 < t * twoPow 1075 := Nat.mul_pos hpos (twoPow_pos 1075)
  have hscaled : 2 * (n * twoPow 1075 * twoPow j) = units c * twoPow j + units (c + 1) * twoPow j := by
    rw [← Nat.add_mul, ← htie]
    exact (Nat.mul_assoc ..).symm
  have hgap := shifted_gap hfull.succ.units_add_le j
  have hself : units c * twoPow j ≤ units (c + 1) * twoPow j := Nat.mul_le_mul_right _ (units_lt_succ c).le
  have hnext : units (c + j * twoPow 52 + 1 + 1) = units (c + 1 + 1) * twoPow j := by
    rw [← hfull.succ.units_raise_succ, Nat.add_right_comm c]
  rw [isNearest_iff, readsBack_units_iff, hnext, hfull.units_raise_succ, Nat.add_sub_cancel, units_raise hfull.lt.le,
    hexpand]
  omega

end

/-! ### Taking in one digit -/

/-- Zero, or not a subnormal number. -/
def IsNormal (b : Nat) : Prop := b = 0 ∨ twoPow 52 ≤ b

/-- A shift by `e` digits of the radix two is exact, so a digit is taken in with one rounding. -/
theorem take_digit {b e d : Nat} (hb : b ≤ infinity) (hnormal : IsNormal b) (he : e ≤ 53) (hd : d ≤ twoPow 53) :
    ofMagnitude false b * Float.ofNat (twoPow e) + Float.ofNat d =
      ofMagnitude false (nearest (units b * twoPow e + d * twoPow 1075) (twoPow 1075)) := by
  obtain ⟨c, hc⟩ : ∃ c, units c = units b * twoPow e := by
    rcases hnormal with rfl | hnormal
    · exact ⟨0, (Nat.zero_mul _).symm⟩
    · exact ⟨_, units_raise hnormal e⟩
  obtain ⟨hsign, hunits⟩ := ofNat_exact hd
  have hdigit := ofMagnitude_magnitude (Float.ofNat d)
  have hfinite := magnitude_ofNat_lt hd
  rw [hsign] at hdigit
  rw [ofMagnitude_mul_ofNat hb (twoPow_pos e) (twoPow_le he), ← hc,
    nearest_eq_min (twoPow_pos 1075) (readsBack_units c), ← hdigit, ofMagnitude_add (Nat.min_le_left ..) hfinite.le,
    hunits]
  rcases Nat.le_total c infinity with hle | hle
  · rw [Nat.min_eq_right hle]
  · -- beyond the finite doubles the sum is infinite with or without the digit
    have hover : ∀ {x}, units infinity ≤ x → nearest x (twoPow 1075) = infinity := fun hx =>
      nearest_of_le (twoPow_pos 1075) (Nat.mul_le_mul_right _ hx)
    rw [Nat.min_eq_left hle, hover (Nat.le_add_right ..), hover (Nat.le_add_right_of_le (units_le_of_le hle))]

/-- A whole number below `2 ^ 53` is a double. -/
theorem exists_units_eq {n : Nat} (hn : n < twoPow 53) :
    ∃ b, units b = n * twoPow 1075 ∧ b ≤ infinity ∧ IsNormal b := by
  rcases Nat.eq_zero_or_pos n with rfl | hpos
  · exact ⟨0, (Nat.zero_mul _).symm, Nat.zero_le _, .inl rfl⟩
  refine ⟨wholeMagnitude n, units_wholeMagnitude hpos hn, (wholeMagnitude_lt hpos hn).le, .inr ?_⟩
  refine Nat.not_lt.1 fun hlt => ?_
  have hunits := units_lt_of_lt hlt
  have hle : twoPow 53 ≤ twoPow 1075 := twoPow_le (by decide)
  have hle' : twoPow 1075 ≤ n * twoPow 1075 := Nat.le_mul_of_pos_left _ hpos
  rw [units_wholeMagnitude hpos hn, units_of_le le_rfl, ← twoPow_succ] at hunits
  exact absurd (Nat.le_trans hle hle') (Nat.not_le.2 hunits)

end DeclCompiler.Binary64

namespace DeclCompiler.Numeral

open Binary64

/-! ### Taking in all digits -/

/-- The whole number that digits denote in a radix, the last one counting ones. -/
def integer (radix : Nat) (digits : List Nat) : Nat := Nat.ofDigits radix digits.reverse

theorem integer_append (radix : Nat) (front rest : List Nat) :
    integer radix (front ++ rest) = integer radix front * radix ^ rest.length + integer radix rest := by
  rw [integer, List.reverse_append, Nat.ofDigits_append, List.length_reverse, Nat.add_comm, Nat.mul_comm, integer,
    integer]

theorem integer_snoc (radix : Nat) (front : List Nat) (d : Nat) :
    integer radix (front ++ [d]) = integer radix front * radix + d := by
  have hlast : integer radix [d] = d := Nat.ofDigits_singleton
  rw [integer_append, List.length_singleton, Nat.pow_one, hlast]

theorem integer_lt {radix : Nat} (hradix : 1 < radix) {digits : List Nat} (h : ∀ d ∈ digits, d < radix) :
    integer radix digits < radix ^ digits.length := by
  rw [← List.length_reverse]
  exact Nat.ofDigits_lt_base_pow_length hradix fun d hd => h d (List.mem_reverse.1 hd)

theorem integer_eq_zero_iff {radix : Nat} (hradix : 0 < radix) (digits : List Nat) :
    integer radix digits = 0 ↔ ∀ d ∈ digits, d = 0 := by
  induction digits using List.reverseRecOn with
  | nil => exact iff_of_true rfl fun d hd => absurd hd List.not_mem_nil
  | append_singleton front d ih =>
    rw [integer_snoc, Nat.add_eq_zero_iff, Nat.mul_eq_zero, or_iff_left hradix.ne', ih, List.forall_mem_append,
      List.forall_mem_singleton]

theorem accumulate_nil (radix : Nat) : accumulate radix [] = ofMagnitude false 0 := by
  have hzero : (0 : Float) = ofMagnitude false 0 := by decide +kernel
  exact hzero

theorem accumulate_snoc (radix : Nat) (front : List Nat) (d : Nat) :
    accumulate radix (front ++ [d]) = accumulate radix front * Float.ofNat radix + Float.ofNat d := by
  rw [accumulate, List.foldl_append]
  rfl

section

variable {e : Nat} (he : e ≤ 53)

include he

/-- A digit after a number that is a double is taken in with one rounding. -/
theorem accumulate_snoc_eq {front : List Nat} {d b : Nat} (hd : d < twoPow e) (hb : b ≤ infinity) (hnormal : IsNormal b)
    (hunits : units b = integer (twoPow e) front * twoPow 1075)
    (hfront : accumulate (twoPow e) front = ofMagnitude false b) :
    accumulate (twoPow e) (front ++ [d]) =
      ofMagnitude false (nearest (integer (twoPow e) (front ++ [d]) * twoPow 1075) (twoPow 1075)) := by
  have hexact : units b * twoPow e + d * twoPow 1075 = integer (twoPow e) (front ++ [d]) * twoPow 1075 := by
    rw [hunits, integer_snoc]
    ring
  rw [accumulate_snoc, hfront, take_digit hb hnormal he (Nat.lt_of_lt_of_le hd (twoPow_le he)).le, hexact]

/-- Digits whose number has room in a significand are taken in exactly. -/
theorem accumulate_exact {digits : List Nat} (h : ∀ d ∈ digits, d < twoPow e)
    (hroom : integer (twoPow e) digits < twoPow 53) :
    ∃ b, units b = integer (twoPow e) digits * twoPow 1075 ∧ b ≤ infinity ∧ IsNormal b ∧
      accumulate (twoPow e) digits = ofMagnitude false b := by
  induction digits using List.reverseRecOn with
  | nil => exact ⟨0, (Nat.zero_mul _).symm, Nat.zero_le _, .inl rfl, accumulate_nil _⟩
  | append_singleton front d ih =>
    obtain ⟨hfront, hd⟩ := List.forall_mem_append.1 h
    have hle : integer (twoPow e) front ≤ integer (twoPow e) (front ++ [d]) := by
      rw [integer_snoc]
      exact Nat.le_add_right_of_le (Nat.le_mul_of_pos_right _ (twoPow_pos e))
    obtain ⟨b, hunits, hb, hnormal, heq⟩ := ih hfront (Nat.lt_of_le_of_lt hle hroom)
    obtain ⟨c, hunits', hc, hnormal'⟩ := exists_units_eq hroom
    refine ⟨c, hunits', hc, hnormal', ?_⟩
    rw [accumulate_snoc_eq he (hd d (List.mem_singleton_self d)) hb hnormal hunits heq, ← hunits', nearest_units hc]

/-- Once the significand is full, a digit only scales. -/
theorem foldl_full {digits : List Nat} (h : ∀ d ∈ digits, d < twoPow e) {b : Nat} (hb : b ≤ infinity)
    (hfull : IsFull b) :
    digits.foldl (fun x d => x * Float.ofNat (twoPow e) + Float.ofNat d) (ofMagnitude false b) =
      ofMagnitude false (min infinity (b + digits.length * e * twoPow 52)) := by
  induction digits generalizing b with
  | nil =>
    rw [List.length_nil, Nat.zero_mul, Nat.zero_mul, Nat.add_zero, Nat.min_eq_right hb]
    rfl
  | cons d digits ih =>
    obtain ⟨hd, hdigits⟩ := List.forall_mem_cons.1 h
    have hstep : ofMagnitude false b * Float.ofNat (twoPow e) + Float.ofNat d =
        ofMagnitude false (min infinity (b + e * twoPow 52)) := by
      rw [take_digit hb (.inr hfull.lt.le) he (Nat.lt_of_lt_of_le hd (twoPow_le he)).le,
        nearest_eq_min (twoPow_pos 1075) (hfull.readsBack_raise hd)]
    have hfull' : IsFull (min infinity (b + e * twoPow 52)) := isFull_min (hfull.raise e)
    have hlength : (d :: digits).length * e * twoPow 52 = digits.length * e * twoPow 52 + e * twoPow 52 := by
      rw [List.length_cons]
      ring
    rw [List.foldl_cons, hstep, ih hdigits (Nat.min_le_left ..) hfull', hlength]
    generalize digits.length * e * twoPow 52 = x
    generalize e * twoPow 52 = y
    generalize infinity = z
    refine congrArg (ofMagnitude false) ?_
    omega

end

/-- Some digit fills the significand, if the number has no room in it. -/
theorem exists_filling {radix : Nat} {digits : List Nat} (h : twoPow 53 ≤ integer radix digits) :
    ∃ front d rest, digits = front ++ d :: rest ∧ integer radix front < twoPow 53 ∧
      twoPow 53 ≤ integer radix (front ++ [d]) := by
  induction digits using List.reverseRecOn with
  | nil => exact absurd h (Nat.not_le.2 (twoPow_pos 53))
  | append_singleton digits x ih =>
    rcases Nat.lt_or_ge (integer radix digits) (twoPow 53) with hroom | hfull
    · exact ⟨digits, x, [], rfl, hroom, h⟩
    · obtain ⟨front, d, rest, rfl, hroom, hfilled⟩ := ih hfull
      exact ⟨front, d, rest ++ [x], by simp, hroom, hfilled⟩

/-- The digit that fills the significand leaves a tie that goes down, and some later digit is not zero. -/
def DropsDigits (radix : Nat) (digits : List Nat) : Prop :=
  ∃ front d rest, digits = front ++ d :: rest ∧ integer radix front < twoPow 53 ∧
    twoPow 53 ≤ integer radix (front ++ [d]) ∧ IsTieDown (integer radix (front ++ [d])) ∧ ∃ x ∈ rest, x ≠ 0

/-- From the digit that fills the significand on, the result is the rounded sum of that digit times powers of the
radix. -/
theorem accumulate_filled {e : Nat} (he : e ≤ 53) {front rest : List Nat} {d b : Nat}
    (h : ∀ x ∈ front ++ d :: rest, x < twoPow e) (hroom : integer (twoPow e) front < twoPow 53)
    (hfilled : twoPow 53 ≤ integer (twoPow e) (front ++ [d])) (hb : IsNearest (integer (twoPow e) (front ++ [d])) b) :
    accumulate (twoPow e) (front ++ d :: rest) =
      ofMagnitude false (min infinity (b + rest.length * e * twoPow 52)) := by
  obtain ⟨hfront, hrest⟩ := List.forall_mem_append.1 h
  obtain ⟨hd, hrest⟩ := List.forall_mem_cons.1 hrest
  obtain ⟨a, hunits, ha, hnormal, heq⟩ := accumulate_exact he hfront hroom
  have hfull := hb.isFull hfilled
  have hstart : accumulate (twoPow e) (front ++ [d]) = ofMagnitude false (min infinity b) := by
    rw [accumulate_snoc_eq he hd ha hnormal hunits heq, hb.nearest_eq]
  have hsplit : accumulate (twoPow e) (front ++ d :: rest) =
      rest.foldl (fun x d => x * Float.ofNat (twoPow e) + Float.ofNat d) (accumulate (twoPow e) (front ++ [d])) := by
    rw [List.append_cons, accumulate, List.foldl_append]
    rfl
  have hfull' : IsFull (min infinity b) := isFull_min hfull
  rw [hsplit, hstart, foldl_full he hrest (Nat.min_le_left ..) hfull']
  generalize rest.length * e * twoPow 52 = x
  generalize infinity = z
  refine congrArg (ofMagnitude false) ?_
  omega

/-- Digits in a radix that is a power of two denote the nearest double to their number or, if they drop digits, the one
just below it. -/
theorem accumulate_eq {e : Nat} (he : e ≤ 53) (hpos : 0 < e) {digits : List Nat} (h : ∀ d ∈ digits, d < twoPow e)
    {b : Nat} (hb : IsNearest (integer (twoPow e) digits) b) :
    (¬ DropsDigits (twoPow e) digits → accumulate (twoPow e) digits = ofMagnitude false (min infinity b)) ∧
    (DropsDigits (twoPow e) digits →
      0 < b ∧ accumulate (twoPow e) digits = ofMagnitude false (min infinity (b - 1))) := by
  have hradix : 1 < twoPow e := Nat.one_lt_two_pow hpos.ne'
  have hsplit : ∀ {front : List Nat} {d : Nat} {rest : List Nat}, digits = front ++ d :: rest →
      integer (twoPow e) digits =
        integer (twoPow e) (front ++ [d]) * twoPow (rest.length * e) + integer (twoPow e) rest ∧
      integer (twoPow e) rest < twoPow (rest.length * e) := by
    rintro front d rest rfl
    have hpow : twoPow e ^ rest.length = twoPow (rest.length * e) := by
      rw [Nat.mul_comm]
      exact (Nat.pow_mul ..).symm
    have hlt := integer_lt hradix fun x hx => h x (List.mem_append_right _ (List.mem_cons_of_mem _ hx))
    rw [List.append_cons, integer_append, hpow]
    exact ⟨rfl, hpow ▸ hlt⟩
  constructor
  · intro hkeeps
    rcases Nat.lt_or_ge (integer (twoPow e) digits) (twoPow 53) with hroom | hfull
    · obtain ⟨c, hunits, hc, -, heq⟩ := accumulate_exact he h hroom
      rw [heq, hb.eq (isNearest_of_units hunits), Nat.min_eq_right hc]
    · obtain ⟨front, d, rest, rfl, hroom, hfilled⟩ := exists_filling hfull
      obtain ⟨hinteger, hlt⟩ := hsplit rfl
      obtain ⟨c, hc⟩ := exists_isNearest (integer (twoPow e) (front ++ [d]))
      have hexact : IsTieDown (integer (twoPow e) (front ++ [d])) → integer (twoPow e) rest = 0 := by
        intro htie
        rw [integer_eq_zero_iff (twoPow_pos e)]
        by_contra hzero
        push Not at hzero
        exact hkeeps ⟨front, d, rest, rfl, hroom, hfilled, htie, hzero⟩
      have hraised := hc.raise hfilled hlt hexact
      rw [← hinteger] at hraised
      rw [accumulate_filled he h hroom hfilled hc, hb.eq hraised]
  · rintro ⟨front, d, rest, rfl, hroom, hfilled, htie, x, hx, hne⟩
    obtain ⟨hinteger, hlt⟩ := hsplit rfl
    obtain ⟨c, hc⟩ := exists_isNearest (integer (twoPow e) (front ++ [d]))
    have hcounts : 0 < integer (twoPow e) rest := by
      rw [Nat.pos_iff_ne_zero, Ne, integer_eq_zero_iff (twoPow_pos e)]
      exact fun hzero => hne (hzero x hx)
    have hraised := hc.raise_succ hfilled hlt htie hcounts
    rw [← hinteger] at hraised
    obtain rfl := hb.eq hraised
    rw [accumulate_filled he h hroom hfilled hc, Nat.add_sub_cancel]
    exact ⟨Nat.succ_pos _, rfl⟩

/-! ### Strings -/

def marks : List (Char × Nat) := [('x', 16), ('X', 16), ('o', 8), ('O', 8), ('b', 2), ('B', 2)]

/-- One or more digits of the radix, written with letters in either case. -/
structure Spells (radix : Nat) (cs : List Char) (digits : List Nat) : Prop where
  ne_nil : digits ≠ []
  lt : ∀ d ∈ digits, d < radix
  chars : cs.map Char.toLower = digits.map Nat.digitChar

theorem exists_radix_of_mem {mark : Char} {radix : Nat} (h : (mark, radix) ∈ marks) :
    markRadix? mark = some radix ∧ Text.isBlank mark = false ∧ ∃ e, radix = twoPow e ∧ 0 < e ∧ e ≤ 4 := by
  simp only [marks, List.mem_cons, Prod.mk.injEq, List.not_mem_nil, or_false] at h
  rcases h with ⟨rfl, rfl⟩ | ⟨rfl, rfl⟩ | ⟨rfl, rfl⟩ | ⟨rfl, rfl⟩ | ⟨rfl, rfl⟩ | ⟨rfl, rfl⟩
  · exact ⟨rfl, by decide, 4, rfl, by decide, by decide⟩
  · exact ⟨rfl, by decide, 4, rfl, by decide, by decide⟩
  · exact ⟨rfl, by decide, 3, rfl, by decide, by decide⟩
  · exact ⟨rfl, by decide, 3, rfl, by decide, by decide⟩
  · exact ⟨rfl, by decide, 1, rfl, by decide, by decide⟩
  · exact ⟨rfl, by decide, 1, rfl, by decide, by decide⟩

theorem ascii_of_toLower {c : Char} (h : c.toLower.toNat < 0x80) : c.toNat < 0x80 := by
  unfold Char.toLower at h
  split at h
  next hupper => exact (UInt32.le_iff_toNat_le.1 hupper.2).trans_lt (by decide)
  next => exact h

/-- What a character of a digit is read as. The table is that of the characters below `0x80`. -/
theorem digitValue?_of_toLower {radix d : Nat} (hradix : radix ≤ 16) (hd : d < radix) {c : Char}
    (h : c.toLower = Nat.digitChar d) : digitValue? radix c = some d ∧ Text.isBlank c = false := by
  have hascii : (List.range 16).all (fun d => decide ((Nat.digitChar d).toNat < 0x80)) = true := by decide +kernel
  have htable : (List.range 0x80).all (fun n => (List.range 16).all fun d =>
      !decide ((Char.ofNat n).toLower = Nat.digitChar d) ||
        (digitValue? 16 (Char.ofNat n) == some d && !Text.isBlank (Char.ofNat n))) = true := by decide +kernel
  have hmem : d ∈ List.range 16 := List.mem_range.2 (Nat.lt_of_lt_of_le hd hradix)
  have hc : c.toNat < 0x80 := ascii_of_toLower (by rw [h]; exact of_decide_eq_true (List.all_eq_true.1 hascii d hmem))
  have hrow := List.all_eq_true.1 (List.all_eq_true.1 htable c.toNat (List.mem_range.2 hc)) d hmem
  rw [Char.ofNat_toNat, decide_eq_true h, Bool.not_true, Bool.false_or, Bool.and_eq_true, beq_iff_eq,
    Bool.not_eq_true'] at hrow
  refine ⟨?_, hrow.2⟩
  have hvalue := (Option.filter_eq_some_iff.1 hrow.1).1
  exact Option.filter_eq_some_iff.2 ⟨hvalue, decide_eq_true hd⟩

theorem mapM_digitValue? {radix : Nat} (hradix : radix ≤ 16) {cs : List Char} {digits : List Nat}
    (hlt : ∀ d ∈ digits, d < radix) (h : cs.map Char.toLower = digits.map Nat.digitChar) :
    cs.mapM (digitValue? radix) = some digits ∧ ∀ c ∈ cs, Text.isBlank c = false := by
  induction cs generalizing digits with
  | nil =>
    obtain rfl := List.map_eq_nil_iff.1 h.symm
    exact ⟨rfl, fun c hc => absurd hc List.not_mem_nil⟩
  | cons c cs ih =>
    obtain ⟨d, digits, rfl, hc, hcs⟩ := List.map_eq_cons_iff.1 h.symm
    obtain ⟨hd, hdigits⟩ := List.forall_mem_cons.1 hlt
    obtain ⟨hvalue, hblank⟩ := digitValue?_of_toLower hradix hd hc.symm
    obtain ⟨hvalues, hblanks⟩ := ih hdigits hcs.symm
    rw [List.mapM_cons, hvalue, hvalues]
    exact ⟨rfl, List.forall_mem_cons.2 ⟨hblank, hblanks⟩⟩

/-- A string with a mark converts to what its digits add up to. -/
theorem value_marked {mark : Char} {radix : Nat} (hmark : (mark, radix) ∈ marks) {cs : List Char} {digits : List Nat}
    (h : Spells radix cs digits) : value (String.ofList ('0' :: mark :: cs)) = accumulate radix digits := by
  obtain ⟨hradix, hblank, e, rfl, -, he⟩ := exists_radix_of_mem hmark
  obtain ⟨hvalues, hblanks⟩ := mapM_digitValue? (twoPow_le he) h.lt h.chars
  have hne : cs ≠ [] := by
    rintro rfl
    exact h.ne_nil (List.map_eq_nil_iff.1 h.chars.symm)
  have htext : ∀ c ∈ '0' :: mark :: cs, Text.isBlank c = false :=
    List.forall_mem_cons.2 ⟨by decide, List.forall_mem_cons.2 ⟨hblank, hblanks⟩⟩
  rw [value, String.toList_ofList, trim_eq_self htext, read?_marked hradix, readRadix?,
    if_neg (by rw [List.isEmpty_iff]; exact hne), hvalues]
  rfl

theorem magnitude_natCast (n : Nat) :
    (⟨n, 0⟩ : Decimal).magnitude = nearest (n * twoPow 1075) (twoPow 1075) := by
  rcases Nat.eq_zero_or_pos n with rfl | hpos
  · have hzero : 0 * twoPow 1075 = units 0 := Nat.zero_mul _
    rw [hzero, nearest_units (Nat.zero_le _)]
    rfl
  · have hhigh : ¬ (400 : Int) < 0 := by decide
    have hlow : ¬ (0 : Int) < -(401 + n.log2 : Int) := by omega
    have hnumerator : (⟨n, 0⟩ : Decimal).numerator = n := Nat.mul_one n
    have hdenominator : (⟨n, 0⟩ : Decimal).denominator = 1 := rfl
    have hsame : n * twoPow 1075 = n * twoPow 1075 * 1 := (Nat.mul_one _).symm
    rw [Decimal.magnitude, if_neg hpos.ne', if_neg hhigh, if_neg hlow, hnumerator, hdenominator]
    exact nearest_congr Nat.one_pos (twoPow_pos 1075) hsame

/-- A whole number in decimal digits converts to the double nearest to it. -/
theorem value_repr (n : Nat) : value n.repr = ofMagnitude false (nearest (n * twoPow 1075) (twoPow 1075)) := by
  obtain ⟨hne, hdigits⟩ := isDigits_toDigits n
  let w : Written := ⟨Nat.toDigits 10 n, [], none, hne, hdigits, by simp⟩
  have htext : n.repr = String.ofList w.text := by
    simp [w, Written.text, Written.fractionText, Written.exponentText, Nat.repr]
  have hdecimal : w.decimal = ⟨n, 0⟩ := by simp [w, Written.decimal, Nat.ofDigitChars_ten_toDigits]
  rw [htext, w.value_text, hdecimal, magnitude_natCast]

/-- A string with digits in a radix converts to the double nearest to their whole number, as its decimal text does,
unless it drops digits. It then converts to the double just below, which is another one unless both are infinite. -/
theorem radix_strings_convert {mark : Char} {radix : Nat} (hmark : (mark, radix) ∈ marks) {cs : List Char}
    {digits : List Nat} (h : Spells radix cs digits) :
    ∃ b, IsNearest (integer radix digits) b ∧
      (Literal.string (integer radix digits).repr).toNumber = ofMagnitude false (min infinity b) ∧
      (¬ DropsDigits radix digits →
        (Literal.string (String.ofList ('0' :: mark :: cs))).toNumber = ofMagnitude false (min infinity b)) ∧
      (DropsDigits radix digits →
        0 < b ∧ (Literal.string (String.ofList ('0' :: mark :: cs))).toNumber = ofMagnitude false (min infinity (b - 1))) ∧
      ((Literal.string (String.ofList ('0' :: mark :: cs))).toNumber = ofMagnitude false (min infinity b) ↔
        ¬ (DropsDigits radix digits ∧ b ≤ infinity)) := by
  obtain ⟨-, -, e, rfl, hpos, he⟩ := exists_radix_of_mem hmark
  obtain ⟨b, hb⟩ := exists_isNearest (integer (twoPow e) digits)
  obtain ⟨hkeeps, hdrops⟩ := accumulate_eq (by omega) hpos h.lt hb
  simp only [Literal.toNumber, value_marked hmark h, value_repr, hb.nearest_eq]
  refine ⟨b, hb, rfl, hkeeps, hdrops, ?_⟩
  by_cases hdropped : DropsDigits (twoPow e) digits
  · obtain ⟨hb0, heq⟩ := hdrops hdropped
    have hinjective : ofMagnitude false (min infinity (b - 1)) = ofMagnitude false (min infinity b) ↔
        min infinity (b - 1) = min infinity b := by
      refine ⟨fun hfloat => ?_, congrArg _⟩
      rw [← magnitude_ofMagnitude false (Nat.min_le_left infinity (b - 1)), hfloat,
        magnitude_ofMagnitude false (Nat.min_le_left ..)]
    rw [heq, hinjective, and_iff_right hdropped]
    omega
  · exact iff_of_true (hkeeps hdropped) fun hboth => hdropped hboth.1

/-- The digits of `2 ^ 57 + 17`. The last but one leaves a tie at `2 ^ 53 + 1`. -/
def tieDigits : List Nat := [2, 0, 0, 0, 0, 0, 0, 0, 0, 0, 0, 0, 0, 1, 1]

theorem tieDigits_drops : DropsDigits 16 tieDigits := by
  have hcomposes : Composes 1076 (twoPow 52 + 1) := ⟨by decide, .inr (Nat.le_succ _), by decide⟩
  have hinteger : integer 16 (tieDigits.take 13 ++ [1]) = 2 * twoPow 52 + 1 := by decide
  refine ⟨tieDigits.take 13, 1, [1], rfl, by decide, by decide, ⟨compose 1076 (twoPow 52), by decide, ?_⟩, 1, ?_⟩
  · rw [← compose_succ, units_compose hcomposes, units_compose (compose_next 1075), hinteger, twoPow_succ 1075]
    ring
  · decide

/-- Their string converts to less than its decimal text does. -/
theorem tieDigits_convert_below : ∃ b, IsNearest (integer 16 tieDigits) b ∧
    (Literal.string "0x200000000000011").toNumber = ofMagnitude false (min infinity (b - 1)) ∧
    (Literal.string "0x200000000000011").toNumber ≠ (Literal.string "144115188075855889").toNumber := by
  have hspells : Spells 16 "200000000000011".toList tieDigits := ⟨by decide, by decide, by decide⟩
  obtain ⟨b, hb, -, -, hdrops, -⟩ := radix_strings_convert (show ('x', 16) ∈ marks by decide) hspells
  exact ⟨b, hb, (hdrops tieDigits_drops).2, by decide +kernel⟩

end DeclCompiler.Numeral
