import Mathlib
import Abacus.Binary64.Units

/-!
# Doubles and their patterns

The pattern of a double is its bits without the sign.  A double is made from its
bits, and the bits of every pattern up to that of infinity are those of a double.
-/

namespace Abacus

namespace Binary64

open Float.Model (Format UnpackedFloat)
open Float.Model.UnpackedFloat

abbrev Word : Type :=
  BitVec Format.binary64.numBits

/-! ## The fields of a word -/

theorem toNat_mantissa (b : Word) : (unpackMantissa b).toNat = b.toNat % binade := by
  simp only [unpackMantissa, BitVec.toNat_cast, BitVec.extractLsb_toNat, Nat.shiftRight_zero]
  rfl

theorem toNat_exponent (b : Word) : (unpackExponent b).toNat = b.toNat / binade % 2048 := by
  simp only [unpackExponent, BitVec.toNat_cast, BitVec.extractLsb_toNat, Nat.shiftRight_eq_div_pow]
  rfl

/-! ## Doubles from patterns -/

/-- No pattern up to that of infinity is one of a NaN. -/
theorem valid_of_le_infinity {b : Word} (h : b.toNat <= infinity) : Format.binary64.Valid b := by
  constructor
  intro hones hmantissa
  have hexponent := congrArg BitVec.toNat hones
  have hpos : (unpackMantissa b).toNat ≠ 0 := fun hzero => hmantissa (BitVec.eq_of_toNat_eq hzero)
  rw [toNat_exponent] at hexponent
  rw [toNat_mantissa] at hpos
  change b.toNat / 2 ^ 52 % 2048 = 2047 at hexponent
  change b.toNat % 2 ^ 52 ≠ 0 at hpos
  change b.toNat <= 2047 * 2 ^ 52 at h
  omega

theorem toBits_ofBits {bits : UInt64} (h : bits.toNat <= infinity) :
    (Float.ofBits bits).toBits = bits := by
  have hvalid : Format.binary64.Valid bits.toBitVec := valid_of_le_infinity h
  apply UInt64.toBitVec_inj.mp
  exact pack_unpack_of_valid hvalid

theorem toNat_toBits_ofPattern {n : Nat} (h : n <= infinity) :
    (ofPattern false n).toBits.toNat = n := by
  have hlt : n < 2 ^ 64 := by
    change n <= 2047 * 2 ^ 52 at h
    omega
  have hnat : (UInt64.ofNat n).toNat = n := UInt64.toNat_ofNat_of_lt hlt
  simp only [ofPattern, Bool.false_eq_true, if_false]
  rw [toBits_ofBits (by rw [hnat]; exact h), hnat]

@[simp] theorem negative_ofPattern {n : Nat} (h : n <= infinity) :
    negative (ofPattern false n) = false := by
  unfold negative
  rw [toNat_toBits_ofPattern h, decide_eq_false_iff_not]
  change n <= 2047 * 2 ^ 52 at h
  change ¬ 2 ^ 63 <= n
  omega

@[simp] theorem pattern_ofPattern {n : Nat} (h : n <= infinity) :
    pattern (ofPattern false n) = n := by
  unfold pattern
  rw [toNat_toBits_ofPattern h]
  change n <= 2047 * 2 ^ 52 at h
  change n % 2 ^ 63 = n
  omega

theorem ofPattern_pattern {x : Float} (h : negative x = false) :
    ofPattern false (pattern x) = x := by
  unfold negative at h
  have hlt : x.toBits.toNat < signBit := by
    rw [decide_eq_false_iff_not] at h
    omega
  unfold ofPattern pattern
  rw [Nat.mod_eq_of_lt hlt]
  simp only [Bool.false_eq_true, if_false, UInt64.ofNat_toNat]
  exact Float.ofBits_toBits x

/-! ## The classes of doubles -/

def word (x : Float) : Word :=
  x.toBits.toBitVec

theorem exponent_eq_iff (x : Float) : unpackExponent (word x) = -1#11 ↔ infinity <= pattern x := by
  have hlt : x.toBits.toNat < 2 ^ 64 := x.toBits.toNat_lt
  have hiff : unpackExponent (word x) = -1#11 ↔ (unpackExponent (word x)).toNat = 2047 :=
    ⟨fun h => congrArg BitVec.toNat h, fun h => BitVec.eq_of_toNat_eq h⟩
  rw [hiff, toNat_exponent]
  change x.toBits.toNat / 2 ^ 52 % 2048 = 2047 ↔ 2047 * 2 ^ 52 <= x.toBits.toNat % 2 ^ 63
  omega

theorem mantissa_eq_iff {x : Float} (h : infinity <= pattern x) :
    unpackMantissa (word x) = 0#52 ↔ pattern x = infinity := by
  have hlt : x.toBits.toNat < 2 ^ 64 := x.toBits.toNat_lt
  have hiff : unpackMantissa (word x) = 0#52 ↔ (unpackMantissa (word x)).toNat = 0 :=
    ⟨fun h => congrArg BitVec.toNat h, fun h => BitVec.eq_of_toNat_eq h⟩
  rw [hiff, toNat_mantissa]
  change 2047 * 2 ^ 52 <= x.toBits.toNat % 2 ^ 63 at h
  change x.toBits.toNat % 2 ^ 52 = 0 ↔ x.toBits.toNat % 2 ^ 63 = 2047 * 2 ^ 52
  omega

theorem unpack_of_lt {x : Float} (h : pattern x < infinity) :
    (unpack Format.binary64 (word x)).isFinite = true := by
  have hones : ¬ unpackExponent (word x) = -1#11 := by
    rw [exponent_eq_iff]
    omega
  unfold unpack
  simp only [if_neg hones]
  by_cases hlow : unpackExponent (word x) = 0#11
  · by_cases hzero : unpackMantissa (word x) = 0#52
    · simp only [if_pos hlow, dif_pos hzero]
      rfl
    · simp only [if_pos hlow, dif_neg hzero]
      rfl
  · simp only [if_neg hlow]
    rfl

theorem unpack_of_ge {x : Float} (h : infinity <= pattern x) :
    unpack Format.binary64 (word x) =
      if pattern x = infinity then .infinity (Sign.ofBitVec (unpackSign (word x)))
      else .notANumber := by
  unfold unpack
  simp only [if_pos ((exponent_eq_iff x).mpr h)]
  by_cases hinf : pattern x = infinity
  · simp only [if_pos hinf, if_pos ((mantissa_eq_iff h).mpr hinf)]
  · simp only [if_neg hinf, if_neg (fun hzero => hinf ((mantissa_eq_iff h).mp hzero))]

theorem isFinite_iff (x : Float) : x.isFinite = true ↔ pattern x < infinity := by
  change (unpack Format.binary64 (word x)).isFinite = true ↔ _
  constructor
  · intro hfinite
    apply Nat.lt_of_not_le
    intro hge
    rw [unpack_of_ge hge] at hfinite
    split at hfinite <;> cases hfinite
  · exact unpack_of_lt

theorem isNaN_eq_false {x : Float} (h : pattern x <= infinity) : x.isNaN = false := by
  change (unpack Format.binary64 (word x)).isNaN = false
  rcases Nat.lt_or_eq_of_le h with hlt | heq
  · have hfinite := unpack_of_lt hlt
    cases hu : unpack Format.binary64 (word x) with
    | notANumber =>
        rw [hu] at hfinite
        cases hfinite
    | _ => rfl
  · rw [unpack_of_ge (Nat.le_of_eq heq.symm), if_pos heq]
    rfl

theorem isInf_iff (x : Float) : x.isInf = true ↔ pattern x = infinity := by
  change (unpack Format.binary64 (word x)).isInf = true ↔ _
  by_cases hge : infinity <= pattern x
  · rw [unpack_of_ge hge]
    by_cases hinf : pattern x = infinity
    · simp only [hinf, iff_true]
      rfl
    · simp only [hinf, iff_false]
      nofun
  · have hfinite := unpack_of_lt (Nat.lt_of_not_le hge)
    have hne : ¬ pattern x = infinity := by omega
    simp only [hne, iff_false]
    intro hinf
    cases hu : unpack Format.binary64 (word x) with
    | infinity s =>
        rw [hu] at hfinite
        cases hfinite
    | _ =>
        rw [hu] at hinf
        cases hinf

end Binary64

end Abacus
