import DeclCompiler.Proofs.Arithmetic

/-!
Integer parts and remainders of doubles. Clearing the fraction of a double and reducing it modulo another one give
doubles again, so that neither rounds. The Euclidean remainder of a whole number by `2 ^ 32` is exact too, although it
adds the modulus to a negative remainder, and the conversion to a word then only reads it off.
-/

namespace DeclCompiler.Binary64

open Float.Model Float.Model.UnpackedFloat

/-! ### Doubles with a given value -/

/-- The double is finite and has the given sign and value. -/
structure Denotes (x : Float) (negative : Bool) (u : Nat) : Prop where
  finite : magnitude x < infinity
  sign : isNegative x = negative
  units_eq : units (magnitude x) = u

theorem denotes_ofMagnitude (negative : Bool) {b : Nat} (hb : b < infinity) :
    Denotes (ofMagnitude negative b) negative (units b) := by
  have hmagnitude := magnitude_ofMagnitude negative hb.le
  exact ⟨hmagnitude.symm ▸ hb, isNegative_ofMagnitude negative hb.le, congrArg units hmagnitude⟩

theorem denotes_ofNat {n : Nat} (hn : n ≤ twoPow 53) : Denotes (Float.ofNat n) false (n * twoPow 1075) :=
  ⟨magnitude_ofNat_lt hn, (ofNat_exact hn).1, (ofNat_exact hn).2⟩

/-- A significand that has room is shifted to the left until it is full or its scale is the least one. -/
theorem exists_units {k s : Nat} (hk : k < twoPow 53) (hs : 1 ≤ s) : ∃ b, units b = k * twoPow s := by
  induction s, hs using Nat.le_induction generalizing k with
  | base => exact ⟨compose 1 k, units_compose ⟨le_rfl, .inl rfl, hk.le⟩⟩
  | succ s hs ih =>
    by_cases hfull : twoPow 52 ≤ k
    · exact ⟨compose (s + 1) k, units_compose ⟨Nat.le_add_left 1 s, .inr hfull, hk.le⟩⟩
    · obtain ⟨b, hb⟩ := ih (k := k * 2) (by rw [twoPow_53]; omega)
      exact ⟨b, by rw [hb, twoPow_succ, Nat.mul_assoc, Nat.mul_comm 2]⟩

theorem lt_infinity_of_units_le {a b : Nat} (ha : a < infinity) (h : units b ≤ units a) : b < infinity := by
  refine Nat.lt_of_le_of_lt (Nat.not_lt.1 fun hlt => ?_) ha
  exact absurd h (Nat.not_le.2 (units_lt_of_lt hlt))

/-! ### Integer parts -/

theorem compose_scale (b : Nat) : compose (scale b) (significand b) = b := by
  unfold compose scale significand
  rw [twoPow_52]
  split <;> omega

/-- The bits that count less than one are bits of the significand, and the leading one is not among them. -/
theorem cleared_eq_compose {b : Nat} (hb : 1023 ≤ scale b) :
    b - b % twoPow (1075 - scale b) =
        compose (scale b) (significand b / twoPow (1075 - scale b) * twoPow (1075 - scale b)) ∧
      Composes (scale b) (significand b / twoPow (1075 - scale b) * twoPow (1075 - scale b)) := by
  have hcompose := compose_scale b
  have hlow : twoPow 52 ≤ significand b := (composes b).low.resolve_left (by omega)
  have hlt := significand_lt b
  generalize scale b = s at hb hcompose ⊢
  generalize significand b = k at hcompose hlow hlt ⊢
  obtain ⟨i, hi⟩ : ∃ i, 52 = 1075 - s + i := ⟨52 - (1075 - s), by omega⟩
  generalize 1075 - s = j at hi ⊢
  have hpow : twoPow 52 = twoPow i * twoPow j := by rw [hi, Nat.add_comm, twoPow_add]
  have hmod : b % twoPow j = k % twoPow j := by
    rw [← hcompose, compose, hpow, ← Nat.mul_assoc, Nat.mul_comm _ (twoPow j), Nat.mul_add_mod]
  have hdiv := Nat.div_add_mod' k (twoPow j)
  refine ⟨?_, ⟨by omega, .inr ?_, by omega⟩⟩
  · rw [hmod, ← hcompose, compose, compose]
    omega
  · rw [hpow] at hlow ⊢
    exact Nat.mul_le_mul_right _ ((Nat.le_div_iff_mul_le (twoPow_pos j)).2 hlow)

theorem units_cleared {b : Nat} (hb : 1023 ≤ scale b) :
    units (b - b % twoPow (1075 - scale b)) = units b / twoPow 1075 * twoPow 1075 := by
  obtain ⟨hcleared, hcomposes⟩ := cleared_eq_compose hb
  rw [hcleared, units_compose hcomposes, units]
  rcases Nat.le_total (scale b) 1075 with hle | hle
  · have hpow : twoPow 1075 = twoPow (1075 - scale b) * twoPow (scale b) := by
      rw [← twoPow_add, Nat.sub_add_cancel hle]
    rw [hpow, Nat.mul_div_mul_right _ _ (twoPow_pos _), Nat.mul_assoc]
  · have hpow : twoPow (scale b) = twoPow (scale b - 1075) * twoPow 1075 := by
      rw [← twoPow_add, Nat.sub_add_cancel hle]
    have hnone : twoPow (1075 - scale b) = 1 := by
      rw [Nat.sub_eq_zero_of_le hle]
      rfl
    rw [hnone, Nat.div_one, Nat.mul_one, hpow, ← Nat.mul_assoc, Nat.mul_div_cancel _ (twoPow_pos _)]

theorem units_div_of_scale_lt {b : Nat} (hb : scale b < 1023) : units b / twoPow 1075 = 0 := by
  refine Nat.div_eq_of_lt ?_
  calc
    units b < twoPow 53 * twoPow (scale b) := Nat.mul_lt_mul_of_pos_right (significand_lt b) (twoPow_pos _)
    _ = twoPow (53 + scale b) := (twoPow_add ..).symm
    _ ≤ twoPow 1075 := twoPow_le (by omega)

/-- Clearing the fraction rounds nothing. -/
theorem trunc_denotes {x : Float} (hx : isFinite x = true) :
    Denotes (trunc x) (isNegative x) (units (magnitude x) / twoPow 1075 * twoPow 1075) := by
  have hfinite : magnitude x < infinity := of_decide_eq_true hx
  unfold trunc
  dsimp only
  split
  next hscale =>
    have hzero : units 0 = 0 := rfl
    have hdenotes := denotes_ofMagnitude (isNegative x) (Nat.zero_lt_of_lt hfinite)
    rw [units_div_of_scale_lt hscale, Nat.zero_mul, ← hzero]
    exact hdenotes
  next hscale =>
    rw [← units_cleared (Nat.not_lt.1 hscale)]
    exact denotes_ofMagnitude _ (Nat.lt_of_le_of_lt (Nat.sub_le ..) hfinite)

/-! ### Remainders -/

/-- What remains is a multiple of the smaller of the two scales and less than the divisor. -/
theorem exists_units_mod (a : Nat) {b : Nat} (hb : b ≠ 0) : ∃ c, units c = units a % units b := by
  rcases Nat.lt_or_ge a b with hlt | hle
  · exact ⟨a, (Nat.mod_eq_of_lt (units_lt_of_lt hlt)).symm⟩
  · have hscale : scale b ≤ scale a := by
      have hdiv := Nat.div_le_div_right (c := twoPow 52) hle
      unfold scale
      omega
    have hunits : units a = significand a * twoPow (scale a - scale b) * twoPow (scale b) := by
      rw [Nat.mul_assoc, ← twoPow_add, Nat.sub_add_cancel hscale, units]
    have hlt : significand a * twoPow (scale a - scale b) % significand b < twoPow 53 :=
      Nat.lt_trans (Nat.mod_lt _ (significand_pos hb)) (significand_lt b)
    obtain ⟨c, hc⟩ := exists_units hlt (composes b).scale
    exact ⟨c, by rw [hc, hunits, units, Nat.mul_mod_mul_right]⟩

theorem remainder_denotes {x y : Float} {negative negative' : Bool} {u v : Nat} (hx : Denotes x negative u)
    (hy : Denotes y negative' v) (hv : v ≠ 0) : Denotes (remainder x y) negative (u % v) := by
  obtain ⟨hfinite, rfl, rfl⟩ := hx
  obtain ⟨hfinite', -, rfl⟩ := hy
  have hne : magnitude y ≠ 0 := by
    intro hzero
    rw [hzero] at hv
    exact hv rfl
  have hguard : (!isFinite x || decide (infinity < magnitude y) || decide (magnitude y = 0)) = false := by
    simp [isFinite, hfinite, hfinite'.le, hne]
  obtain ⟨c, hc⟩ := exists_units_mod (magnitude x) hne
  have hc' : c < infinity := lt_infinity_of_units_le hfinite (hc ▸ Nat.mod_le ..)
  have hexact := denotes_ofMagnitude (isNegative x) hc'
  rw [remainder, if_neg (by simpa using hguard), if_neg hfinite'.ne, ← hc, nearest_units hc'.le]
  exact hexact

/-! ### Euclidean remainders -/

theorem abs_eq (x : Float) : x.abs = ofMagnitude false (magnitude x) := by
  have hlt : magnitude x < twoPow 63 := Nat.mod_lt _ (twoPow_pos 63)
  have habs : (described (isNegative x) (magnitude x)).abs = described false (magnitude x) := by
    unfold described
    split
    · rfl
    split
    · rfl
    split <;> rfl
  rw [← ofModel_pack_described false hlt, ← habs, ← unpack_toModel]
  rfl

theorem Denotes.abs {x : Float} {negative : Bool} {u : Nat} (h : Denotes x negative u) : Denotes x.abs false u := by
  obtain ⟨hfinite, -, rfl⟩ := h
  rw [abs_eq]
  exact denotes_ofMagnitude false hfinite

theorem Denotes.magnitude_ne_zero {x : Float} {negative : Bool} {u : Nat} (h : Denotes x negative u) (hu : u ≠ 0) :
    magnitude x ≠ 0 := by
  intro hzero
  have hunits := h.units_eq
  rw [hzero] at hunits
  exact hu hunits.symm

theorem Denotes.lt_zero_iff {x : Float} {negative : Bool} {u : Nat} (h : Denotes x negative u) :
    x < 0 ↔ negative = true ∧ u ≠ 0 := by
  have hzero : IsNumber 0 ∧ rank 0 = 0 := by
    unfold IsNumber
    decide +kernel
  have hnumber : IsNumber x := h.finite.le
  have hmagnitude : u = 0 ↔ magnitude x = 0 := by
    rw [← h.units_eq]
    refine ⟨eq_zero_of_units, fun hx => ?_⟩
    rw [hx]
    rfl
  rw [lt_iff, hzero.2, and_iff_right hnumber, and_iff_right hzero.1, rank, h.sign, signed, ne_eq, hmagnitude]
  cases negative
  · simp
  · simp [Nat.pos_iff_ne_zero]

/-- A number and a larger one with the other sign have a sum that is not rounded, if it is a double. -/
theorem Denotes.add {x y : Float} {u c : Nat} (hx : Denotes x true u) (hu : u ≠ 0) (hc : units c ≠ 0)
    (hy : Denotes y false (u + units c)) : Denotes (x + y) false (units c) := by
  have hc' : c < infinity := lt_infinity_of_units_le hy.finite (hy.units_eq ▸ Nat.le_add_left ..)
  obtain ⟨m, m', S, hm, hm', hsum⟩ := add_described true false (hx.magnitude_ne_zero hu) hx.finite
    (hy.magnitude_ne_zero (by omega)) hy.finite
  rw [hx.units_eq] at hm
  rw [hy.units_eq] at hm'
  have hunits : (m' - m) * twoPow S = units c := by rw [Nat.sub_mul, hm, hm', Nat.add_sub_cancel_left]
  have hpos : 0 < m' - m := by
    refine Nat.pos_of_ne_zero fun hzero => hc ?_
    rw [← hunits, hzero, Nat.zero_mul]
  have hsigned : signed true m + signed false m' = (m' - m : Nat) := by
    simp only [signed, if_true, Bool.false_eq_true, if_false]
    omega
  have hround := ofModel_pack_round hpos S 1075 false
  have hpositive : signOf false = .positive := rfl
  rw [hunits, nearest_units hc'.le, hpositive] at hround
  have hadd : x + y = ofMagnitude false c := by
    rw [← hround, ← normalize_natCast hpos _ .positive, ← hsigned, ← hsum, ← hx.sign, ← hy.sign, ← unpack_toModel,
      ← unpack_toModel]
    rfl
  rw [hadd]
  exact denotes_ofMagnitude false hc'

/-- The Euclidean remainder of a whole number by `2 ^ 32` is the one of the integers. -/
theorem euclideanRemainder_isNat {x : Float} {negative : Bool} {n : Nat}
    (hx : Denotes x negative (n * twoPow 1075)) :
    IsNat (euclideanRemainder x 4294967296) (signed negative n % 2 ^ 32).toNat := by
  have hmodulus : Denotes 4294967296 false (4294967296 * twoPow 1075) := denotes_ofNat (n := 4294967296) (by decide)
  have hrest := remainder_denotes hx hmodulus (Nat.mul_ne_zero (by decide) (twoPow_pos 1075).ne')
  have hlt : n % 4294967296 < 4294967296 := Nat.mod_lt _ (by decide)
  rw [Nat.mul_mod_mul_right] at hrest
  have hnegative := hrest.lt_zero_iff
  rw [Nat.mul_ne_zero_iff, and_iff_left (twoPow_pos 1075).ne'] at hnegative
  unfold euclideanRemainder
  dsimp only
  split
  next hsign =>
    -- the modulus is added, and the sum is a whole number below it
    obtain ⟨rfl, hne⟩ := hnegative.1 hsign
    obtain ⟨c, hc⟩ := exists_units (k := 4294967296 - n % 4294967296) (s := 1075)
      (Nat.lt_of_le_of_lt (Nat.sub_le ..) (by decide)) (by decide)
    have hsum : n % 4294967296 * twoPow 1075 + units c = 4294967296 * twoPow 1075 := by
      rw [hc, ← Nat.add_mul, Nat.add_sub_cancel' hlt.le]
    have hc' : units c ≠ 0 := by
      rw [hc]
      exact Nat.mul_ne_zero (by omega) (twoPow_pos 1075).ne'
    have hadded := hrest.add (Nat.mul_ne_zero hne (twoPow_pos 1075).ne') hc' (hsum ▸ hmodulus.abs)
    have hvalue : (signed true n % 2 ^ 32).toNat = 4294967296 - n % 4294967296 := by
      rw [signed, if_pos rfl]
      omega
    rw [hvalue]
    refine ⟨fun h => ?_, hadded.units_eq.trans hc⟩
    rw [hadded.sign] at h
    cases h
  next hsign =>
    have hvalue : (signed negative n % 2 ^ 32).toNat = n % 4294967296 := by
      cases negative with
      | false => rfl
      | true =>
        have hzero : n % 4294967296 = 0 := by_contra fun hne => hsign (hnegative.2 ⟨rfl, hne⟩)
        rw [signed, if_pos rfl]
        omega
    rw [hvalue]
    refine ⟨fun h => ?_, hrest.units_eq⟩
    rw [hrest.sign] at h
    by_contra hne
    exact hsign (hnegative.2 ⟨h, hne⟩)

/-! ### Conversion to words -/

theorem units_div (b : Nat) :
    units b / twoPow 1075 = significand b * twoPow (scale b - 1075) / twoPow (1075 - scale b) := by
  have hpow : twoPow 1075 * twoPow (scale b - 1075) = twoPow (1075 - scale b) * twoPow (scale b) := by
    rw [← twoPow_add, ← twoPow_add]
    refine congrArg twoPow ?_
    omega
  calc
    units b / twoPow 1075 = units b * twoPow (scale b - 1075) / (twoPow 1075 * twoPow (scale b - 1075)) :=
      (Nat.mul_div_mul_right _ _ (twoPow_pos _)).symm
    _ = significand b * twoPow (scale b - 1075) * twoPow (scale b) / (twoPow (1075 - scale b) * twoPow (scale b)) := by
      rw [hpow, units, Nat.mul_right_comm]
    _ = significand b * twoPow (scale b - 1075) / twoPow (1075 - scale b) := Nat.mul_div_mul_right _ _ (twoPow_pos _)

/-- A conversion to integers drops the fraction. -/
theorem toInt_described (negative : Bool) {b : Nat} (hb : b < infinity) (lowest highest : Int) :
    (described negative b).toInt lowest highest = signed negative (units b / twoPow 1075) := by
  rcases Nat.eq_zero_or_pos b with rfl | hpos
  · have hzero : units 0 = 0 := rfl
    rw [hzero, Nat.zero_div]
    cases negative <;> rfl
  · have hleft : ((scale b : Int) - 1075 - 0).toNat = scale b - 1075 := by omega
    have hright : (0 - ((scale b : Int) - 1075 - (scale b - 1075 : Nat))).toNat = 1075 - scale b := by omega
    rw [described_finite negative hpos.ne' hb]
    change roundToInt _ _ _ = _
    rw [roundToInt, decreaseExponent]
    dsimp only
    rw [shiftToExponent]
    dsimp only
    rw [(shifted_exact _ _).mantissa, hleft, hright, Nat.shiftLeft_eq, apply_signOf, units_div]
    rfl

theorem toNat_toUInt32 {x : Float} {n : Nat} (hx : IsNat x n) (hn : n < 2 ^ 32) : x.toUInt32.toNat = n := by
  have hfinite : magnitude x < infinity := by
    refine lt_infinity ?_
    rw [hx.units_eq]
    exact whole_lt (Nat.le_trans hn.le (by decide))
  have hsigned : signed (isNegative x) n = n := by
    unfold signed
    split
    next h => rw [hx.sign h, Int.natCast_zero, Int.neg_zero]
    next => rfl
  have htoInt : x.toModel.unpack.toInt 0 (UInt32.size - 1) = n := by
    rw [unpack_toModel, toInt_described _ hfinite, hx.units_eq, Nat.mul_div_cancel _ (twoPow_pos 1075), hsigned]
  change (UInt32.ofNatClamp (x.toModel.unpack.toInt 0 (UInt32.size - 1)).toNat).toNat = n
  rw [htoInt, Int.toNat_natCast, UInt32.ofNatClamp_eq_ofNat n hn, UInt32.toNat_ofNat', Nat.mod_eq_of_lt hn]

end DeclCompiler.Binary64
