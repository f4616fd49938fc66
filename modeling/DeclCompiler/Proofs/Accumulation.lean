import DeclCompiler.Number.Numeral
import DeclCompiler.Proofs.ExactIntegers

/-!
Numbers taken in digit by digit. Sums of doubles that are not negative, and products with positive finite ones, are
again numbers that are not negative: they may round and overflow, but they do not become what is not a number.
-/

namespace DeclCompiler.Binary64

open Float.Model Float.Model.UnpackedFloat

/-! ### Unpacked numbers -/

/-- A number, infinity included, with the sign of the positive ones. -/
def Unsigned : UnpackedFloat → Prop
  | .infinity s | .zero s | .finite s _ _ _ => s = .positive
  | .notANumber => False

theorem unsigned_roundWithAccuracy (spec : Format) (m : Nat) (e : Int) (a : Accuracy) :
    Unsigned (roundWithAccuracy spec .positive m e a) := by
  unfold roundWithAccuracy
  dsimp only
  split <;> rfl

theorem unsigned_normalize (spec : Format) {m : Int} (hm : 0 ≤ m) (e : Int) :
    Unsigned (UnpackedFloat.normalize spec m e .positive) := by
  unfold UnpackedFloat.normalize
  split
  next h => exact absurd (Int.compare_eq_lt.1 h) (by omega)
  next => rfl
  next => exact unsigned_roundWithAccuracy ..

theorem Unsigned.add {u v : UnpackedFloat} (hu : Unsigned u) (hv : Unsigned v) (spec : Format) :
    Unsigned (UnpackedFloat.add spec u v) := by
  cases u with
  | notANumber => exact hu.elim
  | infinity s =>
    cases v with
    | notANumber => exact hv.elim
    | infinity t =>
      cases hu
      cases hv
      rfl
    | zero t => exact hu
    | finite t m e h => exact hu
  | zero s =>
    cases v with
    | notANumber => exact hv.elim
    | infinity t => exact hv
    | zero t =>
      cases hu
      cases hv
      rfl
    | finite t m e h => exact hv
  | finite s m e h =>
    cases v with
    | notANumber => exact hv.elim
    | infinity t => exact hv
    | zero t => exact hu
    | finite t n f h' =>
      cases hu
      cases hv
      exact unsigned_normalize _ (Int.add_nonneg (Int.natCast_nonneg _) (Int.natCast_nonneg _)) _

theorem Unsigned.mul_finite {u : UnpackedFloat} (hu : Unsigned u) (spec : Format) (m : Nat) (e : Int) (h : 0 < m) :
    Unsigned (UnpackedFloat.mul spec u (.finite .positive m e h)) := by
  cases u with
  | notANumber => exact hu.elim
  | infinity s =>
    cases hu
    rfl
  | zero s =>
    cases hu
    rfl
  | finite s m e h =>
    cases hu
    exact unsigned_roundWithAccuracy ..

theorem unsigned_unpack_packComponents {spec : Format} {e : BitVec spec.exponentBits}
    {m : BitVec spec.mantissaBitsWithoutImplicit} (h : e = -1#_ → m = 0#_) :
    Unsigned (UnpackedFloat.unpack spec (packComponents spec .positive e m)) := by
  have hsign : Sign.ofBitVec (unpackSign (packComponents spec .positive e m)) = .positive := by
    rw [unpackSign_packComponents, Sign.ofBitVec_toBitVec]
  unfold UnpackedFloat.unpack
  dsimp only
  rw [unpackExponent_packComponents, hsign]
  split
  next hones =>
    rw [if_pos (unpackMantissa_packComponents.trans (h hones))]
    rfl
  next =>
    split
    · split <;> rfl
    · rfl

theorem Unsigned.unpack_pack {u : UnpackedFloat} (hu : Unsigned u) : Unsigned (Float.Model.pack u).unpack := by
  change Unsigned (UnpackedFloat.unpack Format.binary64 (UnpackedFloat.pack Format.binary64 u))
  cases u with
  | notANumber => exact hu.elim
  | infinity s =>
    cases hu
    exact unsigned_unpack_packComponents fun _ => rfl
  | zero s =>
    cases hu
    exact unsigned_unpack_packComponents fun _ => rfl
  | finite s m e h =>
    cases hu
    unfold UnpackedFloat.pack
    dsimp only
    split
    · exact unsigned_unpack_packComponents fun _ => rfl
    next hsmall =>
      split
      · refine unsigned_unpack_packComponents fun hones => absurd (congrArg BitVec.toNat hones) ?_
        change ¬ (_ % 2 ^ 11 = 2047)
        change ¬ (2 ^ 11 ≤ _ + 1) at hsmall
        omega
      · exact unsigned_unpack_packComponents fun hones => absurd hones (by decide)

/-! ### Doubles -/

/-- A double that is a number and not negative, nor minus zero. -/
def IsUnsigned (x : Float) : Prop := Unsigned x.toModel.unpack

theorem IsUnsigned.isNaN {x : Float} (hx : IsUnsigned x) : x.isNaN = false := by
  unfold IsUnsigned at hx
  change x.toModel.unpack.isNaN = false
  cases hunpack : x.toModel.unpack with
  | notANumber =>
    rw [hunpack] at hx
    exact hx.elim
  | infinity s => rfl
  | zero s => rfl
  | finite s m e h => rfl

theorem IsUnsigned.add {x y : Float} (hx : IsUnsigned x) (hy : IsUnsigned y) : IsUnsigned (x + y) :=
  (Unsigned.add hx hy Format.binary64).unpack_pack

theorem isUnsigned_ofNat {n : Nat} (hn : n ≤ twoPow 53) : IsUnsigned (Float.ofNat n) := by
  have hfinite := magnitude_ofNat_lt hn
  unfold IsUnsigned
  rw [unpack_toModel, (ofNat_exact hn).1, described, if_neg (by omega), if_neg (by omega)]
  split <;> rfl

theorem IsUnsigned.mul_ofNat {x : Float} (hx : IsUnsigned x) {n : Nat} (hpos : 0 < n) (hn : n ≤ twoPow 53) :
    IsUnsigned (x * Float.ofNat n) := by
  obtain ⟨hsign, hunits⟩ := ofNat_exact hn
  have hne : magnitude (Float.ofNat n) ≠ 0 := by
    intro hzero
    rw [hzero] at hunits
    exact (Nat.mul_pos hpos (twoPow_pos 1075)).ne hunits
  have hunpack : (Float.ofNat n).toModel.unpack =
      .finite .positive _ (scale (magnitude (Float.ofNat n)) - 1075) (significand_pos hne) := by
    rw [unpack_toModel, hsign, described_finite _ hne (magnitude_ofNat_lt hn)]
    rfl
  have hmul := Unsigned.mul_finite hx Format.binary64 _ (scale (magnitude (Float.ofNat n)) - 1075) (significand_pos hne)
  rw [← hunpack] at hmul
  exact hmul.unpack_pack

end DeclCompiler.Binary64

namespace DeclCompiler.Numeral

open Binary64

/-- Digits of any number in a radix denote a number. -/
theorem isUnsigned_accumulate {radix : Nat} (hpos : 0 < radix) (hradix : radix ≤ twoPow 53) {digits : List Nat}
    (hdigits : ∀ d ∈ digits, d ≤ twoPow 53) : IsUnsigned (accumulate radix digits) := by
  have hstep : ∀ x, IsUnsigned x →
      IsUnsigned (digits.foldl (fun x d => x * Float.ofNat radix + Float.ofNat d) x) := by
    induction digits with
    | nil => exact fun x hx => hx
    | cons d digits ih =>
      intro x hx
      obtain ⟨hd, hrest⟩ := List.forall_mem_cons.1 hdigits
      exact ih hrest _ ((hx.mul_ofNat hpos hradix).add (isUnsigned_ofNat hd))
  exact hstep 0 (isUnsigned_ofNat (Nat.zero_le _))

end DeclCompiler.Numeral
