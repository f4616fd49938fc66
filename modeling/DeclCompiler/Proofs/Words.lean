import DeclCompiler.Literal.Fold
import DeclCompiler.Proofs.Remainders

/-!
Bitwise operators as arithmetic of integers. The word of a double is its integer part modulo `2 ^ 32`, taken between
`-2 ^ 31` and `2 ^ 31` or from zero on. Every operator on words is an operation of these integers, and since they are
far below `2 ^ 53` the result is a double that is exactly the integer.
-/

namespace DeclCompiler

open Binary64

/-! ### Bits of signed words -/

section

variable {w : Nat}

/-- Integers with the same bits are equal. -/
theorem int_eq_of_testBit {m n : Int} (h : ∀ k, m.testBit k = n.testBit k) : m = n := by
  -- A natural number and a negative one differ in every bit beyond both.
  have hsign : ∀ a b : Nat, ¬ ∀ k, a.testBit k = !b.testBit k := by
    intro a b hbits
    have ha : a.testBit (a + b) = false :=
      Nat.testBit_lt_two_pow (Nat.lt_two_pow_self.trans_le (Nat.pow_le_pow_right (by decide) (by omega)))
    have hb : b.testBit (a + b) = false :=
      Nat.testBit_lt_two_pow (Nat.lt_two_pow_self.trans_le (Nat.pow_le_pow_right (by decide) (by omega)))
    have hbit := hbits (a + b)
    rw [ha, hb] at hbit
    cases hbit
  cases m with
  | ofNat a =>
    cases n with
    | ofNat b => exact congrArg Int.ofNat (Nat.eq_of_testBit_eq h)
    | negSucc b => exact absurd h (hsign a b)
  | negSucc a =>
    cases n with
    | ofNat b => exact absurd (fun k => (h k).symm) (hsign b a)
    | negSucc b => exact congrArg Int.negSucc (Nat.eq_of_testBit_eq fun k => Bool.not_inj (h k))

theorem toInt_eq_negSucc {x : BitVec w} (h : x.msb = true) : x.toInt = Int.negSucc (~~~x).toNat := by
  have hlt := x.isLt
  rw [BitVec.toInt_eq_msb_cond, if_pos h, BitVec.toNat_not, Int.negSucc_eq]
  have : ((2 ^ w : Nat) : Int) = 2 ^ w := by push_cast; rfl
  omega

/-- Beyond its width a word goes on with its sign. -/
theorem testBit_toInt (x : BitVec w) (k : Nat) : x.toInt.testBit k = if k < w then x.getLsbD k else x.msb := by
  by_cases h : x.msb = true
  · rw [toInt_eq_negSucc h, Int.testBit, BitVec.testBit_toNat, BitVec.getLsbD_not, h]
    by_cases hk : k < w <;> simp [hk]
  · rw [BitVec.toInt_eq_msb_cond, if_neg h]
    change x.toNat.testBit k = _
    rw [BitVec.testBit_toNat, Bool.eq_false_iff.2 h]
    by_cases hk : k < w
    · rw [if_pos hk]
    · rw [if_neg hk, BitVec.getLsbD_of_ge _ _ (by omega)]

/-- An operation on bits is the same on words and on the integers that they stand for. -/
theorem toInt_bitwise {f : Bool → Bool → Bool} {x y z : BitVec w} {n : Int}
    (hlow : ∀ k, z.getLsbD k = f (x.getLsbD k) (y.getLsbD k)) (hsign : z.msb = f x.msb y.msb)
    (hn : ∀ k, n.testBit k = f (x.toInt.testBit k) (y.toInt.testBit k)) : z.toInt = n := by
  refine int_eq_of_testBit fun k => ?_
  rw [hn, testBit_toInt, testBit_toInt, testBit_toInt, hlow, hsign]
  split <;> rfl

theorem toInt_and (x y : BitVec w) : (x &&& y).toInt = Int.land x.toInt y.toInt :=
  toInt_bitwise (fun _ => BitVec.getLsbD_and) BitVec.msb_and (Int.testBit_land _ _)

theorem toInt_or (x y : BitVec w) : (x ||| y).toInt = Int.lor x.toInt y.toInt :=
  toInt_bitwise (fun _ => BitVec.getLsbD_or) BitVec.msb_or (Int.testBit_lor _ _)

theorem toInt_xor (x y : BitVec w) : (x ^^^ y).toInt = Int.xor x.toInt y.toInt :=
  toInt_bitwise (fun _ => BitVec.getLsbD_xor) BitVec.msb_xor (Int.testBit_lxor _ _)

end

/-! ### Integer parts -/

/-- The integer next to a number on the side of zero. -/
def towardZero (q : ℚ) : Int := if q < 0 then ⌈q⌉ else ⌊q⌋

theorem towardZero_intCast (n : Int) : towardZero n = n := by
  unfold towardZero
  split
  · exact Int.ceil_intCast n
  · exact Int.floor_intCast n

theorem towardZero_signed (negative : Bool) (u unit : Nat) :
    towardZero ((signed negative u : ℚ) / unit) = signed negative (u / unit) := by
  have hfloor := Rat.floor_intCast_div_natCast u unit
  rw [Int.cast_natCast, ← Int.natCast_ediv] at hfloor
  have hnonneg : 0 ≤ (u : ℚ) / unit := by positivity
  unfold towardZero
  cases negative
  · have hcast : (signed false u : ℚ) = u := Int.cast_natCast u
    rw [hcast, if_neg hnonneg.not_gt, hfloor]
    rfl
  · have hcast : (signed true u : ℚ) / unit = -((u : ℚ) / unit) := by
      rw [signed, if_pos rfl, Int.cast_neg, Int.cast_natCast, neg_div]
    rw [hcast, signed, if_pos rfl]
    split
    · rw [Int.ceil_neg, hfloor]
    · -- a minus sign without a negative number: the number is zero
      have hzero : (u : ℚ) / unit = 0 := by linarith
      rw [hzero, Int.floor_zero] at hfloor
      rw [hzero, neg_zero, Int.floor_zero]
      omega

/-- The integer part of a double, zero if it is not finite. -/
def wholePart (x : Float) : Int := (number? x).elim 0 towardZero

/-- The integer part modulo `2 ^ 32`, between `-2 ^ 31` and `2 ^ 31`. -/
def signedWord (x : Float) : Int := (wholePart x).bmod (2 ^ 32)

/-- The integer part modulo `2 ^ 32`, from zero on. -/
def unsignedWord (x : Float) : Int := wholePart x % 2 ^ 32

theorem wholePart_eq {x : Float} (hx : isFinite x = true) :
    wholePart x = signed (isNegative x) (units (magnitude x) / twoPow 1075) := by
  rw [wholePart, number?_eq_some hx, Option.elim_some, towardZero_signed]

namespace Word

/-- Reducing a number as a double loses nothing: its word is that of its integer part. -/
theorem ofFloat_eq (x : Float) : ofFloat x = BitVec.ofInt 32 (wholePart x) := by
  unfold ofFloat
  split
  next hx =>
    have hreduced := euclideanRemainder_isNat (trunc_denotes hx)
    have hword := toNat_toUInt32 hreduced (by omega)
    refine BitVec.eq_of_toNat_eq ?_
    rw [UInt32.toNat_toBitVec, hword, BitVec.toNat_ofInt, wholePart_eq hx]
    rfl
  next hx =>
    rw [wholePart, number?_eq_none (Bool.eq_false_iff.2 hx)]
    rfl

theorem toInt_ofFloat (x : Float) : (ofFloat x).toInt = signedWord x := by
  rw [ofFloat_eq, BitVec.toInt_ofInt, signedWord]

theorem toNat_ofFloat (x : Float) : ((ofFloat x).toNat : Int) = unsignedWord x := by
  rw [ofFloat_eq, BitVec.toNat_ofInt, unsignedWord]
  omega

theorem toInt_bounds (w : BitVec 32) : -2 ^ 31 ≤ w.toInt ∧ w.toInt < 2 ^ 31 := by
  have hlower := BitVec.le_two_mul_toInt (x := w)
  have hupper := BitVec.two_mul_toInt_lt (x := w)
  omega

theorem toInt_not (w : BitVec 32) : (~~~w).toInt = -w.toInt - 1 := by
  have hlt := w.isLt
  rw [BitVec.toInt_eq_toNat_bmod, BitVec.toInt_eq_toNat_bmod, BitVec.toNat_not]
  unfold Int.bmod
  dsimp only
  split <;> split <;> omega

theorem natAbs_toInt_le (w : BitVec 32) : w.toInt.natAbs ≤ twoPow 53 := by
  obtain ⟨hlower, hupper⟩ := toInt_bounds w
  have h53 : twoPow 53 = 2 ^ 53 := rfl
  rw [h53]
  omega

theorem ofFloat_signed (w : BitVec 32) : ofFloat (signed w) = w := by
  rw [ofFloat_eq, wholePart, signed, number?_ofInt (natAbs_toInt_le w), Option.elim_some, towardZero_intCast,
    BitVec.ofInt_toInt]

theorem shiftCount_eq (x : Float) : shiftCount x = (unsignedWord x % 32).toNat := by
  have hmask : (31 : BitVec 32).toNat = 2 ^ 5 - 1 := rfl
  rw [shiftCount, BitVec.toNat_and, hmask, Nat.and_two_pow_sub_one_eq_mod, ← toNat_ofFloat]
  omega

theorem toInt_shiftLeft_modEq (w : BitVec 32) (n : Nat) : (w <<< n).toInt ≡ w.toInt * 2 ^ n [ZMOD 2 ^ 32] := by
  have hreduce : ∀ m : Int, m.bmod (2 ^ 32) ≡ m [ZMOD 2 ^ 32] := fun m => Int.bmod_emod
  calc (w <<< n).toInt = (w.toNat * 2 ^ n : Int).bmod (2 ^ 32) := by
        rw [BitVec.toInt_shiftLeft, Nat.shiftLeft_eq, Int.natCast_mul, Int.natCast_pow, Nat.cast_ofNat]
    _ ≡ w.toNat * 2 ^ n [ZMOD 2 ^ 32] := hreduce _
    _ ≡ w.toInt * 2 ^ n [ZMOD 2 ^ 32] := by
        rw [BitVec.toInt_eq_toNat_bmod]
        exact (hreduce _).symm.mul_right _

theorem toInt_sshiftRight_eq_floor (w : BitVec 32) (n : Nat) : (w.sshiftRight n).toInt = ⌊(w.toInt : ℚ) / 2 ^ n⌋ := by
  rw [BitVec.toInt_sshiftRight, Int.shiftRight_eq_div_pow]
  have hfloor := Rat.floor_intCast_div_natCast w.toInt (2 ^ n)
  rw [Nat.cast_pow] at hfloor
  exact hfloor.symm

theorem toNat_ushiftRight_eq_floor (w : BitVec 32) (n : Nat) :
    ((w >>> n).toNat : Int) = ⌊((w.toNat : Int) : ℚ) / 2 ^ n⌋ := by
  rw [BitVec.toNat_ushiftRight, Nat.shiftRight_eq_div_pow]
  have hfloor := Rat.floor_intCast_div_natCast w.toNat (2 ^ n)
  rw [Nat.cast_pow, ← Int.natCast_ediv] at hfloor
  exact hfloor.symm

end Word

theorem eq_signedWord_iff {x : Float} {n : Int} :
    n = signedWord x ↔ (-2 ^ 31 ≤ n ∧ n < 2 ^ 31) ∧ n ≡ wholePart x [ZMOD 2 ^ 32] := by
  unfold signedWord Int.ModEq Int.bmod
  dsimp only
  split <;> omega

theorem eq_unsignedWord_iff {x : Float} {n : Int} :
    n = unsignedWord x ↔ (0 ≤ n ∧ n < 2 ^ 32) ∧ n ≡ wholePart x [ZMOD 2 ^ 32] := by
  unfold unsignedWord Int.ModEq
  omega

namespace Literal

/-- An operator yields a number that is exactly the integer `n`. -/
def FoldsTo (result : Option Literal) (n : Int) : Prop :=
  result = some (.number (Float.ofInt n)) ∧ number? (Float.ofInt n) = some (n : ℚ)

theorem foldsTo_signed {w : BitVec 32} {n : Int} (h : w.toInt = n) : FoldsTo (some (.number (Word.signed w))) n := by
  subst h
  exact ⟨rfl, number?_ofInt (Word.natAbs_toInt_le w)⟩

theorem foldsTo_unsigned {w : BitVec 32} {n : Int} (h : (w.toNat : Int) = n) :
    FoldsTo (some (.number (Word.unsigned w))) n := by
  subst h
  refine ⟨rfl, number?_ofInt ?_⟩
  have hlt := w.isLt
  have h53 : twoPow 53 = 2 ^ 53 := rfl
  rw [h53]
  omega

theorem bitOr_zero (a : Literal) :
    a.foldBinary? .bitOr (.number 0) = some (.number (Word.signed (Word.ofFloat a.toNumber))) := by
  have hzero : Word.ofFloat (Literal.number 0).toNumber = 0#32 := by decide +kernel
  change some (Literal.number (Word.signed (Word.ofFloat a.toNumber ||| Word.ofFloat (Literal.number 0).toNumber))) = _
  rw [hzero, BitVec.or_zero]

/-- Bitwise operators are arithmetic of the integers that the words stand for. -/
theorem bitwise_folds_exactly (a b : Literal) :
    let i := signedWord a.toNumber
    let j := signedWord b.toNumber
    let u := unsignedWord a.toNumber
    let s := (unsignedWord b.toNumber % 32).toNat
    (∀ x, number? x = none ↔ x.isNaN = true ∨ x.isInf = true) ∧
    (∀ x n, n = signedWord x ↔ (-2 ^ 31 ≤ n ∧ n < 2 ^ 31) ∧ n ≡ wholePart x [ZMOD 2 ^ 32]) ∧
    (∀ x n, n = unsignedWord x ↔ (0 ≤ n ∧ n < 2 ^ 32) ∧ n ≡ wholePart x [ZMOD 2 ^ 32]) ∧
    FoldsTo (some (a.foldUnary .bitNot)) (-i - 1) ∧
    FoldsTo (a.foldBinary? .bitAnd b) (Int.land i j) ∧
    FoldsTo (a.foldBinary? .bitOr b) (Int.lor i j) ∧
    FoldsTo (a.foldBinary? .bitXor b) (Int.xor i j) ∧
    (∃ n, FoldsTo (a.foldBinary? .shl b) n ∧ (-2 ^ 31 ≤ n ∧ n < 2 ^ 31) ∧ n ≡ i * 2 ^ s [ZMOD 2 ^ 32]) ∧
    FoldsTo (a.foldBinary? .shr b) ⌊(i : ℚ) / 2 ^ s⌋ ∧
    FoldsTo (a.foldBinary? .unsignedShr b) ⌊(u : ℚ) / 2 ^ s⌋ ∧
    ∃ r, a.foldBinary? .bitOr (.number 0) = some r ∧ r.foldBinary? .bitOr (.number 0) = some r := by
  intro i j u s
  have hi : (Word.ofFloat a.toNumber).toInt = i := Word.toInt_ofFloat _
  have hj : (Word.ofFloat b.toNumber).toInt = j := Word.toInt_ofFloat _
  have hu : ((Word.ofFloat a.toNumber).toNat : Int) = u := Word.toNat_ofFloat _
  have hs : Word.shiftCount b.toNumber = s := Word.shiftCount_eq _
  refine ⟨fun _ => number?_eq_none_iff, fun _ _ => eq_signedWord_iff, fun _ _ => eq_unsignedWord_iff,
    foldsTo_signed ?_, foldsTo_signed ?_, foldsTo_signed ?_, foldsTo_signed ?_, ⟨_, foldsTo_signed rfl, ?_, ?_⟩,
    foldsTo_signed ?_, foldsTo_unsigned ?_, ?_⟩
  · rw [Word.toInt_not, hi]
  · rw [toInt_and, hi, hj]
  · rw [toInt_or, hi, hj]
  · rw [toInt_xor, hi, hj]
  · exact Word.toInt_bounds _
  · rw [hs, ← hi]
    exact Word.toInt_shiftLeft_modEq _ s
  · rw [hs, ← hi]
    exact Word.toInt_sshiftRight_eq_floor _ s
  · rw [hs, ← hu]
    exact Word.toNat_ushiftRight_eq_floor _ s
  · refine ⟨_, bitOr_zero a, ?_⟩
    rw [bitOr_zero, toNumber, Word.ofFloat_signed]

end Literal

end DeclCompiler
