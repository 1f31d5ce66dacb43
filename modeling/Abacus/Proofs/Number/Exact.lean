import Mathlib
import Abacus.Number.Basic

/-!
# Exact arithmetic

An operation on numbers has an integer as its result just if both operands are integers and
the exact result is one that 64 bits hold.  For powers the exponent has to be one of 32 bits
as well, which matters for the powers of `0`, `1` and `-1` alone: no other power of such an
exponent fits.
-/

namespace Abacus

namespace Number

/-! ## Integers of 64 bits -/

theorem fits_toInt (n : Int64) : Fits n.toInt := by
  have hle := n.le_toInt
  have hlt := n.toInt_lt
  unfold Fits
  omega

theorem toInt_ofInt {z : Int} (h : Fits z) : (Int64.ofInt z).toInt = z := by
  unfold Fits at h
  exact Int64.toInt_ofInt_of_le (by omega) (by omega)

theorem ofInt?_eq_some_iff {z : Int} {a : Number} :
    ofInt? z = some a ↔ ∃ n : Int64, a = int n ∧ n.toInt = z := by
  unfold ofInt?
  split
  · next hfits =>
      constructor
      · intro h
        cases h
        exact ⟨Int64.ofInt z, rfl, toInt_ofInt hfits⟩
      · rintro ⟨n, rfl, rfl⟩
        rw [Int64.ofInt_toInt]
  · next hfits =>
      constructor
      · intro h
        cases h
      · rintro ⟨n, rfl, rfl⟩
        exact absurd (fits_toInt n) hfits

theorem onIntegers_eq_some_iff {whole : Int -> Int -> Option Int} {a b c : Number} :
    onIntegers whole a b = some c ↔
      ∃ x y n : Int64, a = int x ∧ b = int y ∧ c = int n ∧
        whole x.toInt y.toInt = some n.toInt := by
  constructor
  · intro h
    cases a with
    | float x => cases h
    | int x =>
        cases b with
        | float y => cases h
        | int y =>
            obtain ⟨z, hwhole, hz⟩ := Option.bind_eq_some_iff.mp h
            obtain ⟨n, rfl, rfl⟩ := ofInt?_eq_some_iff.mp hz
            exact ⟨x, y, n, rfl, rfl, rfl, hwhole⟩
  · rintro ⟨x, y, n, rfl, rfl, rfl, hwhole⟩
    rw [onIntegers, hwhole, Option.bind_some, ofInt?_eq_some_iff]
    exact ⟨n, rfl, rfl⟩

/-- An operation on integers is exact, and has no other integers as results. -/
theorem arith_eq_int_iff {whole : Int -> Int -> Option Int} {nearest : Float -> Float -> Float}
    {a b : Number} {n : Int64} :
    arith whole nearest a b = int n ↔
      ∃ x y : Int64, a = int x ∧ b = int y ∧ whole x.toInt y.toInt = some n.toInt := by
  have hexact : arith whole nearest a b = int n ↔ onIntegers whole a b = some (int n) := by
    rw [arith]
    cases onIntegers whole a b with
    | none => simp
    | some c => simp
  rw [hexact, onIntegers_eq_some_iff]
  constructor
  · rintro ⟨x, y, m, ha, hb, hm, hwhole⟩
    cases hm
    exact ⟨x, y, ha, hb, hwhole⟩
  · rintro ⟨x, y, ha, hb, hwhole⟩
    exact ⟨x, y, n, ha, hb, rfl, hwhole⟩

/-! ## Powers -/

/-- The 64th and all further powers of numbers other than `0`, `1` and `-1` are too large. -/
theorem not_fits_pow {b : Int} (hb : 2 ≤ b.natAbs) {n : Nat} (hn : 64 ≤ n) : ¬ Fits (b ^ n) := by
  have hlarge : 2 ^ 64 ≤ (b ^ n).natAbs :=
    calc 2 ^ 64 ≤ 2 ^ n := Nat.pow_le_pow_right (by omega) hn
      _ ≤ b.natAbs ^ n := Nat.pow_le_pow_left hb n
      _ = (b ^ n).natAbs := (Int.natAbs_pow b n).symm
  intro hfits
  unfold Fits at hfits
  omega

theorem fits_of_natAbs_le_one {z : Int} (h : z.natAbs ≤ 1) : Fits z := by
  unfold Fits
  omega

theorem pow_settle_of_small {b : Int} (hb : b.natAbs ≤ 1) (n : Nat) : b ^ settle n = b ^ n := by
  unfold settle
  split
  · rfl
  · next hn =>
      have hcases : b = 0 ∨ b = 1 ∨ b = -1 := by omega
      rcases hcases with rfl | rfl | rfl
      · rw [zero_pow (by omega), zero_pow (by omega)]
      · rw [one_pow, one_pow]
      · rw [neg_one_pow_eq_pow_mod_two, neg_one_pow_eq_pow_mod_two (n := n)]
        congr 1
        omega

/-- The settled exponent gives the powers that fit, and no others. -/
theorem pow_settle_eq_iff {b z : Int} (hz : Fits z) (n : Nat) : b ^ settle n = z ↔ b ^ n = z := by
  by_cases hb : b.natAbs ≤ 1
  · rw [pow_settle_of_small hb]
  · by_cases hn : n < 64
    · rw [settle, if_pos hn]
    · have hsettle : 64 ≤ settle n := by
        rw [settle, if_neg hn]
        omega
      have hpow : ∀ m, 64 ≤ m -> b ^ m ≠ z := by
        rintro m hm rfl
        exact not_fits_pow (by omega) hm hz
      simp only [hpow _ hsettle, hpow n (by omega)]

theorem wholePower_eq_some_iff {b e z : Int} (hz : Fits z) :
    wholePower b e = some z ↔ 0 ≤ e ∧ e < 4294967296 ∧ b ^ e.toNat = z := by
  rw [wholePower, Option.ite_none_right_eq_some, Option.some.injEq, ← pow_settle_eq_iff hz]
  exact and_assoc

theorem pow_eq_int_iff {a b : Number} {n : Int64} :
    a ^ b = int n ↔
      ∃ x y : Int64, a = int x ∧ b = int y ∧ 0 ≤ y.toInt ∧ y.toInt < 4294967296 ∧
        x.toInt ^ y.toInt.toNat = n.toInt := by
  simp only [← wholePower_eq_some_iff (fits_toInt n)]
  exact arith_eq_int_iff

theorem exists_float_iff {a : Number} : (∃ x, a = float x) ↔ ∀ n, a ≠ int n := by
  cases a with
  | int n => simp
  | float x => simp

section

variable {b e : Int64} (he : 0 ≤ e.toInt)

include he

/-- A power of integers is an integer just if the exponent has 32 bits and the power fits. -/
theorem int_pow_int_eq_int_iff {n : Int64} :
    int b ^ int e = int n ↔ e.toInt < 4294967296 ∧ b.toInt ^ e.toInt.toNat = n.toInt := by
  rw [pow_eq_int_iff]
  constructor
  · rintro ⟨x, y, hx, hy, -, hlt, hpow⟩
    cases hx
    cases hy
    exact ⟨hlt, hpow⟩
  · rintro ⟨hlt, hpow⟩
    exact ⟨b, e, rfl, rfl, he, hlt, hpow⟩

theorem int_pow_int_of_fits (hlt : e.toInt < 4294967296)
    (hfits : Fits (b.toInt ^ e.toInt.toNat)) :
    ∃ n : Int64, int b ^ int e = int n ∧ n.toInt = b.toInt ^ e.toInt.toNat :=
  ⟨Int64.ofInt (b.toInt ^ e.toInt.toNat),
    (int_pow_int_eq_int_iff he).mpr ⟨hlt, (toInt_ofInt hfits).symm⟩, toInt_ofInt hfits⟩

theorem int_pow_int_of_not_fits (hfits : ¬ Fits (b.toInt ^ e.toInt.toNat)) :
    ∃ x, int b ^ int e = float x := by
  rw [exists_float_iff]
  intro n hn
  have hpow := ((int_pow_int_eq_int_iff he).mp hn).2
  exact hfits (hpow ▸ fits_toInt n)

theorem int_pow_int_of_large (hlarge : 4294967296 ≤ e.toInt) : ∃ x, int b ^ int e = float x := by
  rw [exists_float_iff]
  intro n hn
  have hlt := ((int_pow_int_eq_int_iff he).mp hn).1
  omega

end

/--
Powers of integers with an exponent that is not negative stay integers until they overflow,
but for the exponents that 32 bits do not hold: there the powers of `0`, `1` and `-1` are
doubles although they do not overflow.
-/
theorem int_pow_int (b e : Int64) (he : 0 ≤ e.toInt) :
    (e.toInt < 4294967296 ∨ 2 ≤ b.toInt.natAbs ->
      (Fits (b.toInt ^ e.toInt.toNat) ->
        ∃ n : Int64, int b ^ int e = int n ∧ n.toInt = b.toInt ^ e.toInt.toNat) ∧
      ((∃ x, int b ^ int e = float x) ↔ ¬ Fits (b.toInt ^ e.toInt.toNat))) ∧
    (4294967296 ≤ e.toInt -> b.toInt.natAbs ≤ 1 ->
      Fits (b.toInt ^ e.toInt.toNat) ∧ ∃ x, int b ^ int e = float x) := by
  constructor
  · intro hcase
    have hlt : Fits (b.toInt ^ e.toInt.toNat) -> e.toInt < 4294967296 := by
      intro hfits
      rcases hcase with hlt | hb
      · exact hlt
      · by_contra hlarge
        exact not_fits_pow hb (by omega) hfits
    refine ⟨fun hfits => int_pow_int_of_fits he (hlt hfits) hfits, ?_, int_pow_int_of_not_fits he⟩
    rintro ⟨x, hx⟩ hfits
    obtain ⟨n, hn, -⟩ := int_pow_int_of_fits he (hlt hfits) hfits
    cases hx.symm.trans hn
  · intro hlarge hb
    refine ⟨fits_of_natAbs_le_one ?_, int_pow_int_of_large he hlarge⟩
    rw [Int.natAbs_pow]
    exact pow_le_one₀ (Nat.zero_le _) hb

theorem int_pow_int_lowest :
    ∃ n : Int64, int (-2) ^ int 63 = int n ∧ n.toInt = -9223372036854775808 := by
  have hfits : Fits ((-2 : Int64).toInt ^ (63 : Int64).toInt.toNat) := by decide
  obtain ⟨n, hn, hpow⟩ := ((int_pow_int (-2) 63 (by decide)).1 (.inl (by decide))).1 hfits
  exact ⟨n, hn, hpow.trans (by decide)⟩

/-- One to the power of `2 ^ 32` is one, and comes out as a double. -/
theorem one_pow_large :
    0 ≤ (4294967296 : Int64).toInt ∧
      (1 : Int64).toInt ^ (4294967296 : Int64).toInt.toNat = 1 ∧
      Fits ((1 : Int64).toInt ^ (4294967296 : Int64).toInt.toNat) ∧
      ∃ x, int 1 ^ int 4294967296 = float x := by
  have hone : (1 : Int64).toInt ^ (4294967296 : Int64).toInt.toNat = 1 := one_pow _
  refine ⟨by decide, hone, ?_, int_pow_int_of_large (by decide) (by decide)⟩
  rw [hone]
  decide

end Number

end Abacus
