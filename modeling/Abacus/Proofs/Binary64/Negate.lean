import Abacus.Proofs.Binary64.Nearest
import Abacus.Proofs.Binary64.Pattern

/-!
# Changing the sign of a double

A product with minus one is not rounded: it has the exponent and the significand of the other
factor.  So it is the double with the same pattern and the other sign.
-/

namespace Abacus

namespace Binary64

open Float.Model (Format UnpackedFloat totalExponent)
open Float.Model.UnpackedFloat

/-! ## Rounding what is exact -/

theorem log2_mul_two_pow {m : Nat} (hm : 0 < m) (k : Nat) :
    (m * 2 ^ k).log2 = m.log2 + k := by
  induction k with
  | zero => simp
  | succ k ih =>
      have hne : m * 2 ^ k ≠ 0 := Nat.ne_of_gt (Nat.mul_pos hm (Nat.two_pow_pos k))
      have hdouble : m * 2 ^ (k + 1) = 2 * (m * 2 ^ k) := by
        rw [Nat.pow_succ, ← Nat.mul_assoc, Nat.mul_comm]
      rw [hdouble, Nat.log2_two_mul hne, ih, Nat.add_assoc]

theorem shiftRight_exact (m k : Nat) :
    ExtendedMantissa.ofMantissaAndAccuracy (m * 2 ^ k) .exact >>> k =
      ExtendedMantissa.ofMantissaAndAccuracy m .exact := by
  induction k generalizing m with
  | zero =>
      rw [Nat.pow_zero, Nat.mul_one]
      rfl
  | succ k ih =>
      have hdouble : m * 2 ^ (k + 1) = 2 * m * 2 ^ k := by
        rw [Nat.pow_succ, Nat.mul_comm (2 ^ k) 2, ← Nat.mul_assoc, Nat.mul_comm m 2]
      have hlast : ExtendedMantissa.shiftRightOne
          (ExtendedMantissa.ofMantissaAndAccuracy (2 * m) .exact) =
            ExtendedMantissa.ofMantissaAndAccuracy m .exact := by
        simp [ExtendedMantissa.shiftRightOne, ExtendedMantissa.ofMantissaAndAccuracy]
      rw [hdouble]
      exact (congrArg ExtendedMantissa.shiftRightOne (ih (2 * m))).trans hlast

theorem totalExponent_shift {m : Nat} (hm : 0 < m) (e : Int) (k : Nat) :
    totalExponent (m * 2 ^ k) (e - k) = totalExponent m e := by
  unfold totalExponent
  rw [log2_mul_two_pow hm]
  omega

theorem shiftToTargetExponent_exact {spec : Format} {m : Nat} {e : Int} (hm : 0 < m)
    (he : spec.targetExponent (totalExponent m e) = e) (k : Nat) :
    shiftToTargetExponent spec (m * 2 ^ k) (e - k) .exact =
      (ExtendedMantissa.ofMantissaAndAccuracy m .exact, e) := by
  have hamount : (e - (e - k)).toNat = k := by omega
  have hexponent : e - k + k = e := by omega
  simp only [shiftToTargetExponent, totalExponent_shift hm, he, shiftToExponent, hamount,
    shiftRight_exact, hexponent]

/-- A significand at the exponent that the format wants is not rounded. -/
theorem roundWithAccuracy_exact {spec : Format} {m : Nat} {e : Int} (hm : 0 < m)
    (he : spec.targetExponent (totalExponent m e) = e) (sign : Sign) (k : Nat) :
    roundWithAccuracy spec sign (m * 2 ^ k) (e - k) .exact = .finite sign m e hm := by
  have hagain : shiftToTargetExponent spec m e .exact =
      (ExtendedMantissa.ofMantissaAndAccuracy m .exact, e) := by
    have h := shiftToTargetExponent_exact hm he 0
    rwa [Nat.pow_zero, Nat.mul_one, Int.natCast_zero, Int.sub_zero] at h
  have hrounded : (ExtendedMantissa.ofMantissaAndAccuracy m .exact).roundedMantissa = m := rfl
  unfold roundWithAccuracy
  simp only [shiftToTargetExponent_exact hm he, hrounded, hagain]
  exact dif_neg (Nat.ne_of_gt hm)

/-! ## Unpacked doubles -/

theorem targetExponent_eq (t : Int) : Format.binary64.targetExponent t = max (t - 53) (-1074) := by
  simp only [Format.targetExponent]
  rfl

theorem targetExponent_of_normal {m : Nat} {e : Int} (hm : m.log2 = 52) (he : -1074 ≤ e) :
    Format.binary64.targetExponent (totalExponent m e) = e := by
  rw [targetExponent_eq, totalExponent, hm]
  omega

theorem targetExponent_of_subnormal {m : Nat} (hm : m.log2 < 52) :
    Format.binary64.targetExponent (totalExponent m (-1074)) = -1074 := by
  rw [targetExponent_eq, totalExponent]
  omega

theorem log2_leading (b : BitVec 52) : (1#1 ++ b).toNat.log2 = 52 := by
  have hlt := b.isLt
  have happend : (1#1 ++ b).toNat = 2 ^ 52 + b.toNat := by
    simp only [BitVec.toNat_append, BitVec.toNat_ofNat, Nat.shiftLeft_eq]
    exact (Nat.two_pow_add_eq_or_of_lt hlt 1).symm
  rw [happend, Nat.log2_eq_iff (by omega)]
  omega

/-- Every finite double that is unpacked has the exponent that the format wants. -/
theorem targetExponent_of_unpack {b : Word} {sign : Sign} {m : Nat} {e : Int} {hm : 0 < m}
    (h : unpack Format.binary64 b = .finite sign m e hm) :
    Format.binary64.targetExponent (totalExponent m e) = e := by
  unfold unpack at h
  simp only at h
  split at h
  · split at h <;> cases h
  · split at h
    · next hzero =>
        split at h
        · cases h
        · cases h
          rw [hzero]
          exact targetExponent_of_subnormal
            ((Nat.log2_lt (Nat.ne_of_gt hm)).mpr (unpackMantissa b).isLt)
    · next hzero =>
        cases h
        have hpos : (unpackExponent b).toNat ≠ 0 := fun hnat => hzero (BitVec.eq_of_toNat_eq hnat)
        apply targetExponent_of_normal (log2_leading _)
        change -1074 ≤ ((unpackExponent b).toNat : Int) - 1075
        omega

def minusOne : UnpackedFloat :=
  .finite .negative (2 ^ 52) (-52) (by decide)

theorem sign_mul_negative (sign : Sign) : sign * .negative = -sign := by
  cases sign <;> rfl

/-- Only the sign changes in a product with minus one. -/
theorem mul_minusOne (b : Word) :
    mul Format.binary64 (unpack Format.binary64 b) minusOne = (unpack Format.binary64 b).neg := by
  cases hb : unpack Format.binary64 b with
  | notANumber => rfl
  | infinity sign => exact congrArg UnpackedFloat.infinity (sign_mul_negative sign)
  | zero sign => exact congrArg UnpackedFloat.zero (sign_mul_negative sign)
  | finite sign m e hm =>
      have hround := roundWithAccuracy_exact hm (targetExponent_of_unpack hb)
        (sign * .negative) 52
      refine hround.trans ?_
      rw [sign_mul_negative]
      rfl

/-! ## The sign of a pattern -/

theorem toNat_sign (b : Word) : (unpackSign b).toNat = b.toNat / signBit % 2 := by
  simp only [unpackSign, BitVec.toNat_cast, BitVec.extractLsb_toNat, Nat.shiftRight_eq_div_pow]
  rfl

theorem ofBitVec_of_toNat_zero {b : BitVec 1} (h : b.toNat = 0) : Sign.ofBitVec b = .positive :=
  if_pos (BitVec.eq_of_toNat_eq h)

theorem ofBitVec_of_toNat_one {b : BitVec 1} (h : b.toNat = 1) : Sign.ofBitVec b = .negative := by
  apply if_neg
  rintro rfl
  cases h

theorem unpack_neg {b c : Word} (hlt : b.toNat < signBit) (hc : c.toNat = signBit + b.toNat) :
    unpack Format.binary64 c = (unpack Format.binary64 b).neg := by
  change b.toNat < 2 ^ 63 at hlt
  change c.toNat = 2 ^ 63 + b.toNat at hc
  have hmantissa : unpackMantissa c = unpackMantissa b := by
    apply BitVec.eq_of_toNat_eq
    rw [toNat_mantissa, toNat_mantissa]
    change c.toNat % 2 ^ 52 = b.toNat % 2 ^ 52
    omega
  have hexponent : unpackExponent c = unpackExponent b := by
    apply BitVec.eq_of_toNat_eq
    rw [toNat_exponent, toNat_exponent]
    change c.toNat / 2 ^ 52 % 2048 = b.toNat / 2 ^ 52 % 2048
    omega
  have hpositive : Sign.ofBitVec (unpackSign b) = .positive := by
    apply ofBitVec_of_toNat_zero
    rw [toNat_sign]
    change b.toNat / 2 ^ 63 % 2 = 0
    omega
  have hnegative : Sign.ofBitVec (unpackSign c) = .negative := by
    apply ofBitVec_of_toNat_one
    rw [toNat_sign]
    change c.toNat / 2 ^ 63 % 2 = 1
    omega
  unfold unpack
  simp only [hmantissa, hexponent, hpositive, hnegative]
  split
  · split <;> rfl
  · split
    · split <;> rfl
    · rfl

/-! ## Doubles -/

theorem unpack_ofPattern {n : Nat} (h : n ≤ infinity) :
    (ofPattern false n).toModel.unpack =
      unpack Format.binary64 (UInt64.ofNat n).toBitVec := by
  have hbits : (ofPattern false n).toBits = UInt64.ofNat n := by
    have hlt : n < 2 ^ 64 := by
      change n ≤ 2047 * 2 ^ 52 at h
      omega
    apply UInt64.toNat_inj.mp
    exact (toNat_toBits_ofPattern h).trans (UInt64.toNat_ofNat_of_lt' hlt).symm
  change unpack Format.binary64 (ofPattern false n).toBits.toBitVec = _
  rw [hbits]

theorem neg_ofPattern {n : Nat} (h : n ≤ infinity) : -ofPattern false n = ofPattern true n := by
  change n ≤ 2047 * 2 ^ 52 at h
  have hlt : n < 2 ^ 64 := by omega
  have hlt' : signBit + n < 2 ^ 64 := by
    change 2 ^ 63 + n < 2 ^ 64
    omega
  have hlow : (UInt64.ofNat n).toNat = n := UInt64.toNat_ofNat_of_lt' hlt
  have hhigh : (UInt64.ofNat (signBit + n)).toNat = signBit + n := UInt64.toNat_ofNat_of_lt' hlt'
  have hunpack : unpack Format.binary64 (UInt64.ofNat (signBit + n)).toBitVec =
      (unpack Format.binary64 (UInt64.ofNat n).toBitVec).neg := by
    apply unpack_neg
    · change (UInt64.ofNat n).toNat < 2 ^ 63
      omega
    · change (UInt64.ofNat (signBit + n)).toNat = signBit + (UInt64.ofNat n).toNat
      rw [hhigh, hlow]
  change Float.ofModel (Float.Model.pack (ofPattern false n).toModel.unpack.neg) =
    Float.ofModel (Float.Model.pack (unpack Format.binary64 (UInt64.ofNat (signBit + n)).toBitVec))
  rw [unpack_ofPattern h, hunpack]

theorem ofInt_minusOne : (ofInt (-1)).toModel.unpack = minusOne := by
  have hpattern : nearest ((-1 : Int).natAbs * one) 1 = 1023 * binade := by decide +kernel
  have hone : ofInt (-1) = ofPattern true (1023 * binade) := by
    rw [ofInt, hpattern]
    rfl
  rw [hone]
  rfl

theorem mul_ofInt_minusOne (x : Float) : x * ofInt (-1) = -x := by
  change Float.ofModel (Float.Model.pack (mul Format.binary64 x.toModel.unpack
    (ofInt (-1)).toModel.unpack)) = Float.ofModel (Float.Model.pack x.toModel.unpack.neg)
  rw [ofInt_minusOne]
  exact congrArg (fun u => Float.ofModel (Float.Model.pack u)) (mul_minusOne (word x))

theorem ofPattern_pattern_of_negative {x : Float} (h : negative x = true) :
    ofPattern true (pattern x) = x := by
  have hle : signBit ≤ x.toBits.toNat := of_decide_eq_true h
  have hlt : x.toBits.toNat < 2 ^ 64 := x.toBits.toNat_lt
  have hbits : signBit + x.toBits.toNat % signBit = x.toBits.toNat := by
    change 2 ^ 63 ≤ x.toBits.toNat at hle
    change 2 ^ 63 + x.toBits.toNat % 2 ^ 63 = x.toBits.toNat
    omega
  simp only [ofPattern, pattern, if_true, hbits, UInt64.ofNat_toNat]
  exact Float.ofBits_toBits x

end Binary64

end Abacus
