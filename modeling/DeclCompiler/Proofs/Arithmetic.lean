import DeclCompiler.Proofs.ExactIntegers

/-!
Sums and products of doubles. The library shifts an exact result until it fits, keeping one bit and whether anything
was lost below it, and then rounds. Each sum and each product is in this way the double nearest to the exact one, and
infinity where that is beyond the finite doubles.
-/

namespace DeclCompiler.Binary64

open Float.Model Float.Model.UnpackedFloat

/-! ### Shifting -/

/-- A significand after `j` shifts of `m`: the quotient, whether at least a half was lost, and whether what was lost
was neither nothing nor a half. -/
structure Shifted (em : ExtendedMantissa) (m j : Nat) : Prop where
  mantissa : em.mantissa = m / twoPow j
  round : em.roundBit = true ↔ twoPow j ≤ 2 * (m % twoPow j)
  sticky : em.stickyBit = true ↔ 2 * (m % twoPow j) ≠ 0 ∧ 2 * (m % twoPow j) ≠ twoPow j

theorem Shifted.shiftRightOne {em : ExtendedMantissa} {m j : Nat} (h : Shifted em m j) :
    Shifted em.shiftRightOne m (j + 1) := by
  obtain ⟨hmantissa, hround, hsticky⟩ := h
  have hpos := twoPow_pos j
  have hlt := Nat.mod_lt m hpos
  have hmod : m % twoPow (j + 1) = m % twoPow j + twoPow j * (m / twoPow j % 2) := by rw [twoPow_succ, Nat.mod_mul]
  have hbit := Nat.mod_two_eq_zero_or_one (m / twoPow j)
  have hdouble : twoPow (j + 1) = 2 * twoPow j := by rw [twoPow_succ, Nat.mul_comm]
  refine ⟨?_, ?_, ?_⟩
  · rw [ExtendedMantissa.shiftRightOne, hmantissa, Nat.div_div_eq_div_mul, twoPow_succ]
  · rw [ExtendedMantissa.shiftRightOne, hmantissa, hmod, hdouble, bne_iff_ne]
    rcases hbit with hbit | hbit <;> rw [hbit] <;> omega
  · rw [ExtendedMantissa.shiftRightOne, Bool.or_eq_true, hround, hsticky, hmod, hdouble]
    rcases hbit with hbit | hbit <;> rw [hbit] <;> omega

theorem shifted_exact (m j : Nat) : Shifted (ExtendedMantissa.ofMantissaAndAccuracy m .exact >>> j) m j := by
  change Shifted (j.repeat ExtendedMantissa.shiftRightOne ⟨m, false, false⟩) m j
  induction j with
  | zero =>
    have hnone : m % twoPow 0 = 0 := Nat.mod_one m
    refine ⟨(Nat.div_one m).symm, ?_, ?_⟩
    · rw [hnone]
      exact ⟨nofun, fun h => absurd h (by decide)⟩
    · rw [hnone]
      exact ⟨nofun, fun h => absurd rfl h.1⟩
  | succ j ih => exact ih.shiftRightOne

/-- The bits that are kept suffice to round what was shifted. -/
theorem Shifted.roundedMantissa {em : ExtendedMantissa} {m j : Nat} (h : Shifted em m j) :
    em.roundedMantissa = roundHalfEven m (twoPow j) := by
  obtain ⟨k, round, sticky⟩ := em
  obtain ⟨hmantissa, hround, hsticky⟩ := h
  dsimp only at hmantissa hround hsticky
  subst hmantissa
  unfold roundHalfEven ExtendedMantissa.roundedMantissa ExtendedMantissa.accuracy Accuracy.roundToNearestEven
  cases round <;> cases sticky <;> simp only [Bool.false_eq_true, false_iff, true_iff] at hround hsticky <;> dsimp only
  · rw [if_pos (.inl (by omega))]
  · rw [if_pos (.inl (by omega))]
  · have hhalf : 2 * (m % twoPow j) = twoPow j := by omega
    split <;> omega
  · rw [if_neg (by omega)]

theorem roundHalfEven_mul (n : Nat) {d c : Nat} (hc : 0 < c) : roundHalfEven (n * c) (d * c) = roundHalfEven n d := by
  have hlt : 2 * (n % d * c) < d * c ↔ 2 * (n % d) < d := by rw [← Nat.mul_assoc, Nat.mul_lt_mul_right hc]
  have heq : 2 * (n % d * c) = d * c ↔ 2 * (n % d) = d := by rw [← Nat.mul_assoc, Nat.mul_left_inj hc.ne']
  simp only [roundHalfEven, Nat.mul_mod_mul_right, Nat.mul_div_mul_right _ _ hc, hlt, heq]

/-! ### Rounding -/

/-- The description of a magnitude in a format whose exponents have no end. -/
def unbounded (negative : Bool) (b : Nat) : UnpackedFloat :=
  if h : b = 0 then .zero (signOf negative)
  else .finite (signOf negative) (significand b) (scale b - 1075) (significand_pos h)

/-- Packed, what is not below infinity becomes infinity. -/
theorem ofModel_pack_unbounded (negative : Bool) (b : Nat) :
    Float.ofModel (Float.Model.pack (unbounded negative b)) = ofMagnitude negative (min infinity b) := by
  by_cases hfinite : b < infinity
  · have hdescribed : unbounded negative b = described negative b := by
      rw [unbounded, described, if_neg (by omega), if_neg (by omega)]
    rw [hdescribed, Nat.min_eq_right hfinite.le, ofModel_pack_described negative (Nat.lt_trans hfinite infinity_lt)]
  · have hscale : 2047 ≤ scale b := by
      have hdiv : 2047 ≤ b / twoPow 52 := (Nat.le_div_iff_mul_le (twoPow_pos 52)).2 (Nat.not_lt.1 hfinite)
      exact Nat.le_trans hdiv (Nat.le_max_right ..)
    have hne : b ≠ 0 := by
      rintro rfl
      exact hfinite (by decide)
    have hbiased : 2 ^ 11 ≤ ((scale b : Int) - 1075 + 1023 + 52).toNat + 1 := by omega
    have hpack : UnpackedFloat.pack Format.binary64 (unbounded negative b) =
        packedInfinity Format.binary64 (signOf negative) := by
      rw [unbounded, dif_neg hne, UnpackedFloat.pack]
      exact if_pos hbiased
    rw [Nat.min_eq_left (Nat.not_lt.1 hfinite), ← ofModel_pack_described negative infinity_lt, described_infinity]
    unfold Float.Model.pack
    simp only [hpack]
    rfl

theorem unbounded_compose {s k : Nat} (h : Composes s k) (hpos : 0 < k) (hk : k < twoPow 53) (negative : Bool) :
    unbounded negative (compose s k) = .finite (signOf negative) k ((s : Int) - 1075) hpos := by
  have hne : compose s k ≠ 0 := by
    unfold compose
    omega
  rw [unbounded, dif_neg hne]
  simp only [significand_compose h hk, scale_compose h hk]

/-- A significand that was rounded is shifted once more if it carries. -/
theorem unbounded_of_composes {s k : Nat} (h : Composes s k) (negative : Bool) :
    let final := shiftToTargetExponent Format.binary64 k ((s : Int) - 1075) .exact
    (if hk : final.1.mantissa = 0 then .zero (signOf negative)
      else .finite (signOf negative) final.1.mantissa final.2 (Nat.pos_of_ne_zero hk)) =
        unbounded negative (compose s k) := by
  dsimp only
  rcases Nat.eq_zero_or_pos k with rfl | hpos
  · obtain rfl : s = 1 := h.low.resolve_right (Nat.not_le_of_lt (twoPow_pos 52))
    rfl
  rcases Nat.lt_or_eq_of_le h.high with hk | rfl
  · have hshift := shiftToTargetExponent_exact h hpos hk 0
    have hone : k * twoPow 0 = k := Nat.mul_one k
    rw [hone, Int.natCast_zero, Int.sub_zero] at hshift
    rw [hshift, unbounded_compose h hpos hk]
    exact dif_neg hpos.ne'
  · have hshift := shiftToTargetExponent_exact (compose_next s) (twoPow_pos 52) (by decide) 1
    have hcarry : twoPow 52 * twoPow 1 = twoPow 53 := rfl
    have hexponent : ((s + 1 : Nat) : Int) - 1075 - (1 : Nat) = s - 1075 := by omega
    rw [hcarry, hexponent] at hshift
    rw [hshift, compose_full s h.scale, unbounded_compose (compose_next s) (twoPow_pos 52) (by decide)]
    exact dif_neg (twoPow_pos 52).ne'

theorem targetExponent_eq_max (m : Nat) (e : Int) :
    Format.binary64.targetExponent (totalExponent m e) = max ((m.log2 : Int) + 1 + e - 53) (-1074) := rfl

section

variable {m S D : Nat} (hm : 0 < m)
  (hexponent : (S : Int) - D ≤ Format.binary64.targetExponent (totalExponent m ((S : Int) - D)))

include hm hexponent

/-- The scale to which `m * 2 ^ (S - D)` is shifted is the one that it fills. -/
theorem exists_shift : ∃ s j : Nat, Format.binary64.targetExponent (totalExponent m ((S : Int) - D)) = s - 1075 ∧
    s + D = S + 1075 + j ∧ Fills (m * twoPow S * twoPow 1075) (twoPow D) s := by
  rw [targetExponent_eq_max] at hexponent ⊢
  obtain ⟨s, hs⟩ : ∃ s : Nat, max ((m.log2 : Int) + 1 + (S - D) - 53) (-1074) = s - 1075 :=
    ⟨(max ((m.log2 : Int) + 1 + (S - D) - 53) (-1074) + 1075).toNat, by omega⟩
  obtain ⟨j, hj⟩ : ∃ j, s + D = S + 1075 + j := ⟨s + D - (S + 1075), by omega⟩
  -- both sides are multiples of the same power of two
  have hunit : ∀ x, twoPow x * (twoPow D * twoPow s) = twoPow (x + j) * (twoPow S * twoPow 1075) := by
    intro x
    simp only [← twoPow_add]
    congr 1
    omega
  have hpos : 0 < twoPow S * twoPow 1075 := Nat.mul_pos (twoPow_pos S) (twoPow_pos 1075)
  refine ⟨s, j, hs, hj, ⟨by omega, ?_, ?_⟩⟩
  · rw [hunit, Nat.mul_assoc]
    refine Nat.mul_lt_mul_of_pos_right ?_ hpos
    calc
      m < twoPow (m.log2 + 1) := Nat.lt_log2_self
      _ ≤ twoPow (53 + j) := twoPow_le (by omega)
  · by_cases hone : s = 1
    · exact .inl hone
    · refine .inr ?_
      rw [hunit, Nat.mul_assoc]
      refine Nat.mul_le_mul_right _ ?_
      calc
        twoPow (52 + j) ≤ twoPow m.log2 := twoPow_le (by omega)
        _ ≤ m := Nat.log2_self_le hm.ne'

theorem ofModel_pack_roundWithAccuracy (negative : Bool) :
    Float.ofModel (Float.Model.pack
      (roundWithAccuracy Format.binary64 (signOf negative) m ((S : Int) - D) .exact)) =
        ofMagnitude negative (nearest (m * twoPow S) (twoPow D)) := by
  obtain ⟨s, j, htarget, hj, hfills⟩ := exists_shift hm hexponent
  have hscaled : roundHalfEven (m * twoPow S * twoPow 1075) (twoPow D * twoPow s) = roundHalfEven m (twoPow j) := by
    have hpos : 0 < twoPow (S + 1075) := twoPow_pos _
    have hd : twoPow D * twoPow s = twoPow j * twoPow (S + 1075) := by
      rw [← twoPow_add, ← twoPow_add]
      congr 1
      omega
    rw [hd, Nat.mul_assoc, ← twoPow_add, roundHalfEven_mul m hpos]
  have hreads := hfills.readsBack (twoPow_pos D)
  have hcomposes := hfills.composes (twoPow_pos D)
  rw [hscaled] at hreads hcomposes
  have hshift : ((s : Int) - 1075 - (S - D)).toNat = j := by omega
  have hfirst : shiftToTargetExponent Format.binary64 m ((S : Int) - D) .exact =
      (ExtendedMantissa.ofMantissaAndAccuracy m .exact >>> j, (s : Int) - 1075) := by
    rw [shiftToTargetExponent, htarget, shiftToExponent, hshift]
    congr 1
    omega
  have hround : roundWithAccuracy Format.binary64 (signOf negative) m ((S : Int) - D) .exact =
      unbounded negative (compose s (roundHalfEven m (twoPow j))) := by
    rw [roundWithAccuracy, hfirst]
    dsimp only
    rw [(shifted_exact m j).roundedMantissa]
    exact unbounded_of_composes hcomposes negative
  rw [hround, ofModel_pack_unbounded, nearest_eq_min (twoPow_pos D) hreads]

end

/-- A result with few digits is shifted to the left before it is rounded. -/
theorem ofModel_pack_round {m : Nat} (hm : 0 < m) (S D : Nat) (negative : Bool) :
    Float.ofModel (Float.Model.pack (UnpackedFloat.round Format.binary64 (signOf negative) m ((S : Int) - D))) =
      ofMagnitude negative (nearest (m * twoPow S) (twoPow D)) := by
  obtain ⟨i, hi⟩ : ∃ i,
      ((S : Int) - D - Format.binary64.targetExponent (totalExponent m ((S : Int) - D))).toNat = i := ⟨_, rfl⟩
  have hmantissa : m <<< i = m * twoPow i := Nat.shiftLeft_eq ..
  have hlower : (S : Int) - D - i = S - (D + i : Nat) := by omega
  have htotal : totalExponent (m * twoPow i) ((S : Int) - (D + i : Nat)) = totalExponent m ((S : Int) - D) := by
    rw [totalExponent, totalExponent, log2_mul_twoPow hm]
    omega
  have hround : UnpackedFloat.round Format.binary64 (signOf negative) m ((S : Int) - D) =
      roundWithAccuracy Format.binary64 (signOf negative) (m * twoPow i) ((S : Int) - (D + i : Nat)) .exact := by
    rw [UnpackedFloat.round, decreaseExponent, hi, hmantissa, hlower]
  rw [hround, ofModel_pack_roundWithAccuracy (Nat.mul_pos hm (twoPow_pos i)) (by rw [htotal]; omega)]
  refine congrArg (ofMagnitude negative) (nearest_congr (twoPow_pos _) (twoPow_pos D) ?_)
  rw [twoPow_add]
  ring

/-! ### Values in units -/

theorem readsBack_units (b : Nat) : readsBack b (units b) (twoPow 1075) = true := by
  rcases Nat.eq_zero_or_pos b with rfl | hpos
  · have hzero : units 0 = 0 := rfl
    rw [readsBack_iff, hzero]
    simp
  · exact readsBack_of_eq hpos (twoPow_pos 1075) rfl

theorem nearest_units {b : Nat} (hb : b ≤ infinity) : nearest (units b) (twoPow 1075) = b :=
  nearest_eq_of_readsBack (twoPow_pos 1075) hb (readsBack_units b)

theorem nearest_of_le {p r : Nat} (hr : 0 < r) (h : units infinity * r ≤ p * twoPow 1075) :
    nearest p r = infinity := by
  rw [nearest_eq]
  refine Nat.min_eq_left (Nat.not_lt.1 fun hlt => ?_)
  obtain ⟨-, hupper, -⟩ := readsBack_iff.1 (readsBack_uncapped p hr)
  have hself : units (uncapped p r) * r < units infinity * r := Nat.mul_lt_mul_of_pos_right (units_lt_of_lt hlt) hr
  have hnext : units (uncapped p r + 1) * r ≤ units infinity * r := Nat.mul_le_mul_right r (units_le_of_le hlt)
  rw [twoPow_1076, Nat.add_mul] at hupper
  omega

/-! ### Sums -/

theorem normalize_natCast {m : Nat} (hm : 0 < m) (e : Int) (zeroSign : Sign) :
    UnpackedFloat.normalize Format.binary64 m e zeroSign = UnpackedFloat.round Format.binary64 .positive m e := by
  have hcompare : compare (m : Int) 0 = .gt := Int.compare_eq_gt.2 (by omega)
  rw [UnpackedFloat.normalize, hcompare]
  rfl

theorem apply_signOf (negative : Bool) (m : Nat) : (signOf negative).apply m = signed negative m := by
  cases negative <;> rfl

/-- Two finite numbers are added at the smaller of their scales. -/
theorem add_described (negative negative' : Bool) {a b : Nat} (ha : a ≠ 0) (ha' : a < infinity) (hb : b ≠ 0)
    (hb' : b < infinity) :
    ∃ m m' S, m * twoPow S = units a ∧ m' * twoPow S = units b ∧
      UnpackedFloat.add Format.binary64 (described negative a) (described negative' b) =
        UnpackedFloat.normalize Format.binary64 (signed negative m + signed negative' m') ((S : Int) - (1075 : Nat))
          .positive := by
  obtain ⟨S, hS⟩ : ∃ S, min (scale a) (scale b) = S := ⟨_, rfl⟩
  have hmin : min ((scale a : Int) - 1075) (scale b - 1075) = S - (1075 : Nat) := by omega
  have hshift : ((scale a : Int) - 1075 - (S - (1075 : Nat))).toNat = scale a - S := by omega
  have hshift' : ((scale b : Int) - 1075 - (S - (1075 : Nat))).toNat = scale b - S := by omega
  have hunits : ∀ c, S ≤ scale c → significand c * twoPow (scale c - S) * twoPow S = units c := by
    intro c hc
    rw [Nat.mul_assoc, ← twoPow_add, Nat.sub_add_cancel hc, units]
  refine ⟨_, _, S, hunits a (by omega), hunits b (by omega), ?_⟩
  rw [described_finite negative ha ha', described_finite negative' hb hb', UnpackedFloat.add]
  dsimp only
  rw [hmin, decreaseExponent, decreaseExponent, hshift, hshift', Nat.shiftLeft_eq, Nat.shiftLeft_eq, apply_signOf,
    apply_signOf]
  rfl

/-- A magnitude of a number is that of infinity, of zero, or of another finite number. -/
theorem magnitude_cases {b : Nat} (hb : b ≤ infinity) : b = infinity ∨ b = 0 ∨ (b ≠ 0 ∧ b < infinity) := by omega

section

variable {b : Nat} (hb : b ≤ infinity)

include hb

theorem zero_add_described :
    UnpackedFloat.add Format.binary64 (described false 0) (described false b) = described false b ∧
      UnpackedFloat.add Format.binary64 (described false b) (described false 0) = described false b := by
  rcases magnitude_cases hb with rfl | rfl | ⟨hne, hfinite⟩
  · exact ⟨rfl, rfl⟩
  · exact ⟨rfl, rfl⟩
  · rw [described_finite false hne hfinite]
    exact ⟨rfl, rfl⟩

theorem infinity_add_described :
    UnpackedFloat.add Format.binary64 (described false infinity) (described false b) = described false infinity ∧
      UnpackedFloat.add Format.binary64 (described false b) (described false infinity) = described false infinity := by
  rcases magnitude_cases hb with rfl | rfl | ⟨hne, hfinite⟩
  · exact ⟨rfl, rfl⟩
  · exact ⟨rfl, rfl⟩
  · rw [described_finite false hne hfinite, described_infinity]
    exact ⟨rfl, rfl⟩

end

/-- A sum of two doubles is the one nearest to the exact sum. -/
theorem ofMagnitude_add {a b : Nat} (ha : a ≤ infinity) (hb : b ≤ infinity) :
    ofMagnitude false a + ofMagnitude false b = ofMagnitude false (nearest (units a + units b) (twoPow 1075)) := by
  have hadd : ofMagnitude false a + ofMagnitude false b = Float.ofModel (Float.Model.pack
      (UnpackedFloat.add Format.binary64 (described false a) (described false b))) := by
    rw [← unpack_ofMagnitude false ha, ← unpack_ofMagnitude false hb]
    rfl
  have hpack : ∀ {c : Nat}, c ≤ infinity →
      Float.ofModel (Float.Model.pack (described false c)) = ofMagnitude false c := fun hc =>
    ofModel_pack_described false (Nat.lt_of_le_of_lt hc infinity_lt)
  have hzero : units 0 = 0 := rfl
  have hover : ∀ n, nearest (units infinity + n) (twoPow 1075) = infinity := fun n =>
    nearest_of_le (twoPow_pos 1075) (Nat.mul_le_mul_right _ (Nat.le_add_right _ n))
  rw [hadd]
  rcases magnitude_cases ha with rfl | rfl | ⟨hane, hafinite⟩
  · rw [(infinity_add_described hb).1, hover, hpack le_rfl]
  · rw [(zero_add_described hb).1, hzero, Nat.zero_add, nearest_units hb, hpack hb]
  rcases magnitude_cases hb with rfl | rfl | ⟨hbne, hbfinite⟩
  · rw [(infinity_add_described ha).2, Nat.add_comm, hover, hpack le_rfl]
  · rw [(zero_add_described ha).2, hzero, Nat.add_zero, nearest_units ha, hpack ha]
  · obtain ⟨m, m', S, hm, hm', hsum⟩ := add_described false false hane hafinite hbne hbfinite
    have hne : m ≠ 0 := by
      rintro rfl
      exact hane (eq_zero_of_units (hm.symm.trans (Nat.zero_mul _)))
    have hpos : 0 < m + m' := by omega
    have hround := ofModel_pack_round hpos S 1075 false
    have hsigned : signed false m + signed false m' = (m + m' : Nat) := rfl
    rw [hsum, hsigned, normalize_natCast hpos, ← hm, ← hm', ← Nat.add_mul, ← hround]
    rfl

/-! ### Products -/

/-- The product of two significands is never short of its scale. -/
theorem mul_exponent_le {a b : Nat} (ha : a ≠ 0) (hb : b ≠ 0) :
    ((scale a + scale b : Nat) : Int) - (1075 + 1075 : Nat) ≤ Format.binary64.targetExponent
      (totalExponent (significand a * significand b) ((scale a + scale b : Nat) - (1075 + 1075 : Nat))) := by
  have hpos := significand_pos ha
  have hpos' := significand_pos hb
  have hlog : twoPow 52 ≤ significand a * significand b → 52 ≤ (significand a * significand b).log2 :=
    (Nat.le_log2 (Nat.mul_pos hpos hpos').ne').2
  have hle : significand a ≤ significand a * significand b := Nat.le_mul_of_pos_right _ hpos'
  have hle' : significand b ≤ significand a * significand b := Nat.le_mul_of_pos_left _ hpos
  have hlow := (composes a).low
  have hlow' := (composes b).low
  rw [targetExponent_eq_max]
  omega

/-- The product of two finite numbers is the double nearest to the exact product. -/
theorem ofModel_pack_mul {a b : Nat} (ha : a ≠ 0) (ha' : a < infinity) (hb : b ≠ 0) (hb' : b < infinity) :
    Float.ofModel (Float.Model.pack
      (UnpackedFloat.mul Format.binary64 (described false a) (described false b))) =
        ofMagnitude false (nearest (units a * units b) (twoPow (1075 + 1075))) := by
  have hunits : units a * units b = significand a * significand b * twoPow (scale a + scale b) := by
    rw [units, units, twoPow_add]
    ring
  have hexponent : (scale a : Int) - 1075 + (scale b - 1075) =
      ((scale a + scale b : Nat) : Int) - (1075 + 1075 : Nat) := by omega
  have hround := ofModel_pack_roundWithAccuracy (Nat.mul_pos (significand_pos ha) (significand_pos hb))
    (mul_exponent_le ha hb) false
  rw [hunits, ← hround, described_finite false ha ha', described_finite false hb hb', UnpackedFloat.mul, hexponent]
  rfl

/-- A whole number times a double is the double nearest to the exact product. -/
theorem ofMagnitude_mul_ofNat {a n : Nat} (ha : a ≤ infinity) (hpos : 0 < n) (hn : n ≤ twoPow 53) :
    ofMagnitude false a * Float.ofNat n = ofMagnitude false (nearest (units a * n) (twoPow 1075)) := by
  obtain ⟨hsign, hunits⟩ := ofNat_exact hn
  have hfinite := magnitude_ofNat_lt hn
  have hofNat := ofMagnitude_magnitude (Float.ofNat n)
  rw [hsign] at hofNat
  generalize magnitude (Float.ofNat n) = b at hunits hfinite hofNat
  have hne : b ≠ 0 := by
    rintro rfl
    exact (Nat.mul_pos hpos (twoPow_pos 1075)).ne hunits
  have hmul : ofMagnitude false a * Float.ofNat n = Float.ofModel (Float.Model.pack
      (UnpackedFloat.mul Format.binary64 (described false a) (described false b))) := by
    rw [← hofNat, ← unpack_ofMagnitude false ha, ← unpack_ofMagnitude false hfinite.le]
    rfl
  rw [hmul]
  rcases magnitude_cases ha with rfl | rfl | ⟨hane, hafinite⟩
  · have hover : nearest (units infinity * n) (twoPow 1075) = infinity :=
      nearest_of_le (twoPow_pos 1075) (Nat.mul_le_mul_right _ (Nat.le_mul_of_pos_right _ hpos))
    rw [hover, ← ofModel_pack_described false infinity_lt, described_finite false hne hfinite, described_infinity]
    rfl
  · have hnone : nearest (units 0 * n) (twoPow 1075) = 0 := by
      have hzero : units 0 * n = units 0 := Nat.zero_mul n
      rw [hzero, nearest_units (Nat.zero_le _)]
    rw [hnone, ← ofModel_pack_described false (twoPow_pos 63), described_finite false hne hfinite]
    rfl
  · rw [ofModel_pack_mul hane hafinite hne hfinite, hunits]
    refine congrArg (ofMagnitude false) (nearest_congr (twoPow_pos _) (twoPow_pos 1075) ?_)
    rw [twoPow_add]
    ring

end DeclCompiler.Binary64
