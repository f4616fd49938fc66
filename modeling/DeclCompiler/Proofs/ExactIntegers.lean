import DeclCompiler.Proofs.Doubles

/-!
Integers as doubles. Rounding leaves alone what is a double already: it shifts a significand until it is full, and
for a double only zeros are shifted in or out. So the conversions of integers up to `2 ^ 53` are exact, in either sign.
-/

namespace DeclCompiler.Binary64

open Float.Model Float.Model.UnpackedFloat

/-! ### Rounding of doubles -/

/-- Shifting out zeros loses nothing. -/
theorem shiftRight_exact (k j : Nat) :
    ExtendedMantissa.ofMantissaAndAccuracy (k * twoPow j) .exact >>> j = ⟨k, false, false⟩ := by
  change j.repeat ExtendedMantissa.shiftRightOne ⟨k * twoPow j, false, false⟩ = _
  induction j generalizing k with
  | zero => simp [Nat.repeat, twoPow]
  | succ j ih =>
    have hdouble : k * twoPow (j + 1) = k * 2 * twoPow j := by rw [twoPow_succ]; ring
    rw [Nat.repeat, hdouble, ih]
    simp [ExtendedMantissa.shiftRightOne]

theorem log2_mul_twoPow {k : Nat} (hk : 0 < k) (j : Nat) : (k * twoPow j).log2 = k.log2 + j := by
  induction j with
  | zero => simp [twoPow]
  | succ j ih =>
    have hdouble : k * twoPow (j + 1) = 2 * (k * twoPow j) := by rw [twoPow_succ]; ring
    rw [hdouble, Nat.log2_two_mul (Nat.mul_pos hk (twoPow_pos j)).ne', ih, Nat.add_assoc]

section

variable {s k : Nat} (h : Composes s k) (hpos : 0 < k) (hk : k < twoPow 53)

include h hpos hk

theorem targetExponent_eq (j : Nat) :
    Format.binary64.targetExponent (totalExponent (k * twoPow j) ((s : Int) - 1075 - j)) = s - 1075 := by
  have hlt : k.log2 < 53 := (Nat.log2_lt hpos.ne').2 hk
  have hlow : s = 1 ∨ 52 ≤ k.log2 := h.low.imp_right (Nat.le_log2 hpos.ne').2
  have hbits : ((Format.binary64.mantissaBits : Nat) : Int) = 53 := rfl
  have hmin : Format.binary64.minExponent = -1074 := rfl
  have hscale := h.scale
  rw [Format.targetExponent, totalExponent, log2_mul_twoPow hpos, hbits, hmin]
  push_cast
  omega

theorem shiftToTargetExponent_exact (j : Nat) :
    shiftToTargetExponent Format.binary64 (k * twoPow j) ((s : Int) - 1075 - j) .exact =
      ((⟨k, false, false⟩ : ExtendedMantissa), (s : Int) - 1075) := by
  have hshift : ((s : Int) - 1075 - ((s : Int) - 1075 - j)).toNat = j := by omega
  rw [shiftToTargetExponent, targetExponent_eq h hpos hk, shiftToExponent, hshift, shiftRight_exact,
    Int.sub_add_cancel]

/-- A result that is a double is not rounded. -/
theorem roundWithAccuracy_exact (sign : Sign) (j : Nat) :
    roundWithAccuracy Format.binary64 sign (k * twoPow j) ((s : Int) - 1075 - j) .exact =
      .finite sign k (s - 1075) hpos := by
  have hagain := shiftToTargetExponent_exact h hpos hk 0
  have hone : k * twoPow 0 = k := Nat.mul_one k
  have hmantissa : ExtendedMantissa.roundedMantissa ⟨k, false, false⟩ = k := rfl
  rw [hone, Int.natCast_zero, Int.sub_zero] at hagain
  rw [roundWithAccuracy, shiftToTargetExponent_exact h hpos hk]
  dsimp only
  rw [hmantissa, hagain]
  exact dif_neg hpos.ne'

theorem described_compose (negative : Bool) (hs : s < 2047) :
    described negative (compose s k) = .finite (signOf negative) k ((s : Int) - 1075) hpos := by
  have hne : compose s k ≠ 0 := by
    unfold compose
    omega
  have hfinite : compose s k < infinity := by
    unfold compose infinity
    rw [twoPow_53, twoPow_52] at hk
    rw [twoPow_52]
    omega
  rw [described_finite negative hne hfinite]
  simp only [significand_compose h hk, scale_compose h hk]

end

/-- The double one. -/
def one : Float := Float.ofBits 0x3FF0000000000000

theorem unpack_one : one.toModel.unpack = .finite .positive (twoPow 52) (-52) (twoPow_pos 52) := rfl

theorem ofMagnitude_mul_one {b : Nat} (hne : b ≠ 0) (hb : b < infinity) (negative : Bool) :
    ofMagnitude negative b * one = ofMagnitude negative b := by
  have hexact := roundWithAccuracy_exact (composes b) (significand_pos hne) (significand_lt b) (signOf negative) 52
  have hexponent : (scale b : Int) - 1075 + -52 = (scale b : Int) - 1075 - (52 : Nat) := by omega
  have hsign : signOf negative * .positive = signOf negative := by cases negative <;> rfl
  have hmul : UnpackedFloat.mul Format.binary64 (described negative b) one.toModel.unpack = described negative b := by
    rw [unpack_one, described_finite negative hne hb, UnpackedFloat.mul, hexponent, hsign, hexact]
  calc
    ofMagnitude negative b * one = Float.ofModel (Float.Model.pack (UnpackedFloat.mul Format.binary64
        (ofMagnitude negative b).toModel.unpack one.toModel.unpack)) := rfl
    _ = Float.ofModel (Float.Model.pack (described negative b)) := by
      rw [unpack_ofMagnitude negative (Nat.le_of_lt hb), hmul]
    _ = ofMagnitude negative b := ofModel_pack_described negative (Nat.lt_trans hb infinity_lt)

/-! ### Natural numbers -/

/-- The significand of a whole number, with as many zeros after it as it has room for. -/
def wholeSignificand (n : Nat) : Nat := n * twoPow (52 - n.log2)

def wholeMagnitude (n : Nat) : Nat := compose (n.log2 + 1023) (wholeSignificand n)

section

variable {n : Nat} (hpos : 0 < n) (hn : n < twoPow 53)

include hpos hn

theorem log2_le : n.log2 ≤ 52 := Nat.lt_succ_iff.1 ((Nat.log2_lt hpos.ne').2 hn)

theorem wholeSignificand_lt : wholeSignificand n < twoPow 53 := by
  have hlog := log2_le hpos hn
  have hlt : n < twoPow (n.log2 + 1) := Nat.lt_log2_self
  calc
    n * twoPow (52 - n.log2) < twoPow (n.log2 + 1) * twoPow (52 - n.log2) :=
      Nat.mul_lt_mul_of_pos_right hlt (twoPow_pos _)
    _ = twoPow 53 := by rw [← twoPow_add, show n.log2 + 1 + (52 - n.log2) = 53 by omega]

theorem composes_whole : Composes (n.log2 + 1023) (wholeSignificand n) := by
  have hlog := log2_le hpos hn
  have hle : twoPow n.log2 ≤ n := Nat.log2_self_le hpos.ne'
  refine ⟨by omega, .inr ?_, Nat.le_of_lt (wholeSignificand_lt hpos hn)⟩
  calc
    twoPow 52 = twoPow n.log2 * twoPow (52 - n.log2) := by
      rw [← twoPow_add, show n.log2 + (52 - n.log2) = 52 by omega]
    _ ≤ n * twoPow (52 - n.log2) := Nat.mul_le_mul_right _ hle

theorem units_wholeMagnitude : units (wholeMagnitude n) = n * twoPow 1075 := by
  have hlog := log2_le hpos hn
  rw [wholeMagnitude, units_compose (composes_whole hpos hn), wholeSignificand, Nat.mul_assoc, ← twoPow_add,
    show 52 - n.log2 + (n.log2 + 1023) = 1075 by omega]

theorem wholeMagnitude_lt : wholeMagnitude n < infinity := by
  refine lt_infinity ?_
  rw [units_wholeMagnitude hpos hn]
  exact whole_lt (Nat.le_of_lt hn)

theorem wholeMagnitude_ne_zero : wholeMagnitude n ≠ 0 := by
  intro hzero
  have hunits := units_wholeMagnitude hpos hn
  rw [hzero] at hunits
  exact Nat.ne_of_lt (Nat.mul_pos hpos (twoPow_pos 1075)) hunits

/-- Before it is rounded, the number is shifted to where its significand is full. -/
theorem described_wholeMagnitude : UnpackedFloat.ofNat Format.binary64 n = described false (wholeMagnitude n) := by
  have hlog := log2_le hpos hn
  have hsignificand : 0 < wholeSignificand n := Nat.mul_pos hpos (twoPow_pos _)
  have hcomposes := composes_whole hpos hn
  have hlt := wholeSignificand_lt hpos hn
  have hone : wholeSignificand n * twoPow 0 = wholeSignificand n := Nat.mul_one _
  have hexact := roundWithAccuracy_exact hcomposes hsignificand hlt .positive 0
  have htarget := targetExponent_eq hcomposes hsignificand hlt 0
  have htotal : totalExponent n 0 =
      totalExponent (wholeSignificand n * twoPow 0) (((n.log2 + 1023 : Nat) : Int) - 1075 - (0 : Nat)) := by
    rw [hone, totalExponent, totalExponent, wholeSignificand, log2_mul_twoPow hpos]
    omega
  have hcompare : compare (n : Int) 0 = .gt := Int.compare_eq_gt.2 (by omega)
  have hshift : (0 - (((n.log2 + 1023 : Nat) : Int) - 1075)).toNat = 52 - n.log2 := by omega
  have hmantissa : n <<< (52 - n.log2) = wholeSignificand n := Nat.shiftLeft_eq ..
  have hexponent : (0 : Int) - (52 - n.log2 : Nat) = ((n.log2 + 1023 : Nat) : Int) - 1075 - (0 : Nat) := by omega
  rw [wholeMagnitude, described_compose hcomposes hsignificand hlt false (by omega), UnpackedFloat.ofNat,
    UnpackedFloat.ofInt, UnpackedFloat.normalize, hcompare]
  dsimp only
  rw [Int.toNat_natCast, UnpackedFloat.round, htotal, htarget, decreaseExponent, hshift, hmantissa, hexponent]
  rw [hone] at hexact
  exact hexact

theorem ofNat_eq : Float.ofNat n = ofMagnitude false (wholeMagnitude n) := by
  have hfinite := wholeMagnitude_lt hpos hn
  have htoNat : n.toUInt64.toNat = n := Nat.mod_eq_of_lt (Nat.lt_trans hn (by decide))
  have hrepresent : n.toUInt64.toFloat = ofMagnitude false (wholeMagnitude n) := by
    rw [← ofModel_pack_described false (Nat.lt_trans hfinite infinity_lt), ← described_wholeMagnitude hpos hn]
    unfold UInt64.toFloat Float.Model.ofUInt64 UnpackedFloat.ofUInt64
    rw [htoNat]
  have hscientific : Float.ofNat n = n.toUInt64.toFloat * one := dif_pos ⟨hn, by decide⟩
  rw [hscientific, hrepresent]
  exact ofMagnitude_mul_one (wholeMagnitude_ne_zero hpos hn) hfinite false

end

/-- Natural numbers up to `2 ^ 53` are doubles. -/
theorem ofNat_exact {n : Nat} (hn : n ≤ twoPow 53) :
    isNegative (Float.ofNat n) = false ∧ units (magnitude (Float.ofNat n)) = n * twoPow 1075 := by
  rcases Nat.eq_zero_or_pos n with rfl | hpos
  · exact ⟨by decide +kernel, by decide +kernel⟩
  rcases Nat.lt_or_eq_of_le hn with hlt | rfl
  · have hfinite := Nat.le_of_lt (wholeMagnitude_lt hpos hlt)
    rw [ofNat_eq hpos hlt, isNegative_ofMagnitude false hfinite, magnitude_ofMagnitude false hfinite]
    exact ⟨rfl, units_wholeMagnitude hpos hlt⟩
  · exact ⟨by decide +kernel, by decide +kernel⟩

theorem isNat_ofNat {n : Nat} (hn : n ≤ twoPow 53) : IsNat (Float.ofNat n) n where
  sign h := by
    rw [(ofNat_exact hn).1] at h
    cases h
  units_eq := (ofNat_exact hn).2

theorem magnitude_ofNat_lt {n : Nat} (hn : n ≤ twoPow 53) : magnitude (Float.ofNat n) < infinity := by
  refine lt_infinity ?_
  rw [(ofNat_exact hn).2]
  exact whole_lt hn

/-! ### Integers -/

/-- The number that a double stands for, if it is finite. -/
def number? (x : Float) : Option ℚ :=
  match x.toModel.unpack with
  | .zero _ => some 0
  | .finite s m e _ => some (s.apply m * 2 ^ e)
  | .infinity _ | .notANumber => none

theorem cast_twoPow (n : Nat) : (twoPow n : ℚ) = 2 ^ n := Nat.cast_pow 2 n

theorem number?_eq_some {x : Float} (hx : isFinite x = true) :
    number? x = some ((signed (isNegative x) (units (magnitude x)) : ℚ) / twoPow 1075) := by
  have hfinite : magnitude x < infinity := of_decide_eq_true hx
  have hpow : (2 : ℚ) ^ (1075 : Int) = twoPow 1075 := by rw [cast_twoPow]; rfl
  unfold number?
  rw [unpack_toModel]
  generalize isNegative x = negative
  generalize magnitude x = b at hfinite
  generalize (twoPow 1075 : ℚ) = unit at hpow
  rcases Nat.eq_zero_or_pos b with rfl | hpos
  · have hunits : units 0 = 0 := rfl
    cases negative <;> simp [hunits, signed]
  · have hscale : (2 : ℚ) ^ ((scale b : Int) - 1075) = twoPow (scale b) / unit := by
      rw [zpow_sub₀ (by norm_num), hpow, cast_twoPow, zpow_natCast]
    rw [described_finite negative hpos.ne' hfinite]
    dsimp only
    rw [hscale, units]
    cases negative
    · simp [signOf, signed, Sign.apply, mul_div_assoc]
    · simp [signOf, signed, Sign.apply, mul_div_assoc, neg_div]

theorem number?_eq_none {x : Float} (hx : isFinite x = false) : number? x = none := by
  have hinfinite : ¬ magnitude x < infinity := of_decide_eq_false hx
  unfold number?
  rw [unpack_toModel, described]
  by_cases hnan : infinity < magnitude x
  · rw [if_pos hnan]
  · rw [if_neg hnan, if_pos (by omega)]

theorem number?_eq_none_iff {x : Float} : number? x = none ↔ x.isNaN = true ∨ x.isInf = true := by
  unfold number? Float.isNaN Float.isInf Float.Model.isNaN Float.Model.isInf
  cases x.toModel.unpack <;> simp [UnpackedFloat.isNaN, UnpackedFloat.isInf]

/-- Integers up to `2 ^ 53` in either direction are doubles. -/
theorem ofInt_exact {n : Int} (hn : n.natAbs ≤ twoPow 53) :
    isFinite (Float.ofInt n) = true ∧ signed (isNegative (Float.ofInt n)) (units (magnitude (Float.ofInt n))) =
      n * twoPow 1075 := by
  cases n with
  | ofNat n =>
    change n ≤ twoPow 53 at hn
    obtain ⟨hsign, hunits⟩ := ofNat_exact hn
    refine ⟨decide_eq_true (magnitude_ofNat_lt hn), ?_⟩
    change signed (isNegative (Float.ofNat n)) (units (magnitude (Float.ofNat n))) = n * twoPow 1075
    rw [hsign, hunits, signed, if_neg (by decide), Int.natCast_mul]
  | negSucc n =>
    change n + 1 ≤ twoPow 53 at hn
    have hneg : Float.ofInt (.negSucc n) = ofMagnitude true (magnitude (Float.ofNat (n + 1))) := by
      have heq := neg_eq (Float.ofNat (n + 1))
      rwa [(ofNat_exact hn).1] at heq
    have hfinite := magnitude_ofNat_lt hn
    rw [hneg, isFinite, isNegative_ofMagnitude true hfinite.le, magnitude_ofMagnitude true hfinite.le,
      (ofNat_exact hn).2]
    refine ⟨decide_eq_true hfinite, ?_⟩
    rw [signed, if_pos rfl, Int.negSucc_eq, Int.neg_mul, Int.natCast_mul, Int.natCast_succ]

theorem number?_ofInt {n : Int} (hn : n.natAbs ≤ twoPow 53) : number? (Float.ofInt n) = some (n : ℚ) := by
  obtain ⟨hfinite, hunits⟩ := ofInt_exact hn
  have hpos : (twoPow 1075 : ℚ) ≠ 0 := Nat.cast_ne_zero.2 (twoPow_pos 1075).ne'
  have hcast : (signed (isNegative (Float.ofInt n)) (units (magnitude (Float.ofInt n))) : ℚ) = n * twoPow 1075 := by
    exact_mod_cast hunits
  rw [number?_eq_some hfinite, hcast, mul_div_cancel_right₀ _ hpos]

theorem number?_ofNat {n : Nat} (hn : n ≤ twoPow 53) : number? (Float.ofNat n) = some (n : ℚ) := by
  have hcast := number?_ofInt (n := (n : Int)) hn
  rwa [Int.cast_natCast] at hcast

/-- A double that stands for a natural number, in the terms of its pattern. -/
theorem isNat_of_number? {x : Float} {i : Nat} (h : number? x = some (i : ℚ)) : IsNat x i := by
  have hx : isFinite x = true := by
    by_contra hx
    rw [number?_eq_none (Bool.eq_false_iff.2 hx)] at h
    cases h
  have hne : (twoPow 1075 : ℚ) ≠ 0 := Nat.cast_ne_zero.2 (twoPow_pos 1075).ne'
  have hvalue : (signed (isNegative x) (units (magnitude x)) : ℚ) = (i * twoPow 1075 : Nat) := by
    rw [Nat.cast_mul]
    exact (div_eq_iff hne).1 (Option.some.inj ((number?_eq_some hx).symm.trans h))
  have hsigned : signed (isNegative x) (units (magnitude x)) = (i * twoPow 1075 : Nat) := by exact_mod_cast hvalue
  refine and_imp.2 IsNat.mk ?_
  have hpos := twoPow_pos 1075
  generalize twoPow 1075 = unit at hsigned hpos ⊢
  unfold signed at hsigned
  split at hsigned
  · have hproduct : i * unit = 0 := by omega
    have hzero : i = 0 := (Nat.mul_eq_zero.1 hproduct).resolve_right hpos.ne'
    exact ⟨fun _ => hzero, by omega⟩
  · exact ⟨fun hsign => absurd hsign ‹_›, by omega⟩

end DeclCompiler.Binary64
