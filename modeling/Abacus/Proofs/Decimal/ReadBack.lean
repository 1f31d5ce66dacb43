import Abacus.Decimal.Layout
import Abacus.Proofs.Binary64.Nearest
import Abacus.Proofs.Binary64.Pattern

/-!
# Decimals that read back

The double nearest to a decimal depends on its value alone.  The shortest decimal of
a finite double is read as that double again, and so is its plain text.
-/

namespace Abacus

namespace Decimal

/-! ## Decimals of the same value -/

/-- The nearest pattern, with the exponent as any difference of two natural numbers. -/
theorem nearest_eq {m a b : Nat} {e : Int} (h : e = a - b) :
    nearest ⟨m, e⟩ = Binary64.nearest (m * 10 ^ a * Binary64.one) (10 ^ b) := by
  cases e with
  | ofNat n =>
      have ha : a = b + n := by
        rw [Int.ofNat_eq_natCast] at h
        omega
      have hnum : m * 10 ^ a * Binary64.one = 10 ^ b * (m * 10 ^ n * Binary64.one) := by
        rw [ha, Nat.pow_add]
        simp only [Nat.mul_assoc, Nat.mul_left_comm]
      have hscale := Binary64.nearest_mul_left (k := 10 ^ b) (by positivity) (m * 10 ^ n * Binary64.one) 1
      rw [Nat.mul_one] at hscale
      rw [hnum, hscale]
      rfl
  | negSucc n =>
      have hb : b = a + (n + 1) := by
        rw [Int.negSucc_eq] at h
        omega
      have hnum : m * 10 ^ a * Binary64.one = 10 ^ a * (m * Binary64.one) := by
        simp only [Nat.mul_assoc, Nat.mul_left_comm]
      have hscale := Binary64.nearest_mul_left (k := 10 ^ a) (by positivity) (m * Binary64.one) (10 ^ (n + 1))
      rw [hnum, hb, Nat.pow_add, hscale]
      rfl

theorem nearest_shift (m k : Nat) (e : Int) : nearest ⟨m * 10 ^ k, e⟩ = nearest ⟨m, e + k⟩ := by
  obtain ⟨a, b, hab⟩ : ∃ a b : Nat, e = a - b := ⟨e.toNat, (-e).toNat, by omega⟩
  have hshift : e + k = (a + k : Nat) - b := by
    rw [hab]
    omega
  have hnum : m * 10 ^ k * 10 ^ a = m * 10 ^ (a + k) := by
    rw [Nat.mul_assoc, ← Nat.pow_add, Nat.add_comm k a]
  rw [nearest_eq hab, nearest_eq hshift, hnum]

theorem nearest_zero (e : Int) : nearest ⟨0, e⟩ = 0 := by
  obtain ⟨a, b, hab⟩ : ∃ a b : Nat, e = a - b := ⟨e.toNat, (-e).toNat, by omega⟩
  rw [nearest_eq hab, Nat.zero_mul, Nat.zero_mul, Binary64.nearest_zero (by positivity)]

theorem nearest_le_infinity (d : Decimal) : d.nearest <= Binary64.infinity := by
  unfold nearest
  split <;> exact Binary64.nearest_le_infinity ..

theorem nearest_strip (m : Nat) (e : Int) : (strip m e).nearest = nearest ⟨m, e⟩ := by
  induction m, e using strip.induct with
  | case1 e =>
      rw [strip, if_pos rfl, nearest_zero, nearest_zero]
  | case2 m e hne hmod ih =>
      have hm : m = m / 10 * 10 ^ 1 := by omega
      rw [strip, if_neg hne, if_pos hmod, ih]
      conv => rhs; rw [hm]
      exact (nearest_shift (m / 10) 1 e).symm
  | case3 m e hne hmod =>
      rw [strip, if_neg hne, if_neg hmod]

/-! ## The shortest decimal -/

/-- `u * 5 ^ n` times `10 ^ -n` is `u` units, if one is `2 ^ n` units. -/
theorem nearest_mul_five_pow (u n : Nat) (hone : Binary64.one = Nat.pow 2 n) :
    nearest ⟨u * Nat.pow 5 n, -n⟩ = Binary64.nearest u 1 := by
  have hexponent : (-n : Int) = (0 : Nat) - n := by omega
  have hten : 10 ^ n = Nat.pow 5 n * Nat.pow 2 n := Nat.mul_pow 5 2 n
  have hnum : u * Nat.pow 5 n * 10 ^ 0 * Nat.pow 2 n = 10 ^ n * u := by
    rw [hten, Nat.pow_zero, Nat.mul_one, Nat.mul_assoc, Nat.mul_comm]
  have hscale := Binary64.nearest_mul_left (k := 10 ^ n) (by positivity) u 1
  rw [Nat.mul_one] at hscale
  rw [nearest_eq hexponent, hone, hnum, hscale]

theorem nearest_exact {pattern : Nat} (h : pattern <= Binary64.infinity) :
    (exact pattern).nearest = pattern := by
  -- the exponent becomes a variable, so that no power of it is computed
  obtain ⟨n, hn, hone⟩ : ∃ n, n = 1074 ∧ Binary64.one = Nat.pow 2 n := by
    refine ⟨1074, rfl, ?_⟩
    delta Binary64.one
    rfl
  have hexact : exact pattern = ⟨Binary64.units pattern * Nat.pow 5 n, -n⟩ := by
    rw [hn]
    rfl
  rw [hexact, nearest_mul_five_pow _ n hone, Binary64.nearest_units h]

theorem nearest_of_neighbour? {pattern place : Nat} {d : Decimal}
    (h : neighbour? pattern place = some d) : d.nearest = pattern := by
  simp only [neighbour?] at h
  split at h
  · next hbelow =>
      split at h
      · next habove =>
          cases h
          rw [Bool.and_eq_true] at habove
          exact of_decide_eq_true habove.2
      · cases h
        exact hbelow
  · split at h
    · next habove =>
        cases h
        exact habove
    · cases h

/-- The shortest decimal of a pattern reads back as the pattern. -/
theorem nearest_shortest {pattern : Nat} (h : pattern <= Binary64.infinity) :
    (shortest pattern).nearest = pattern := by
  simp only [shortest, nearest_strip]
  cases hfound : (List.range (Nat.toDigits 10 (exact pattern).digits).length).findSome?
      fun n => neighbour? pattern ((Nat.toDigits 10 (exact pattern).digits).length - 1 - n) with
  | none => exact nearest_exact h
  | some d =>
      obtain ⟨n, _, hn⟩ := List.exists_of_findSome?_eq_some hfound
      exact nearest_of_neighbour? hn

/-! ## Digits and a point -/

theorem isDigit_of_mem_zeros {n : Nat} {c : Char} (h : c ∈ zeros n) : c.isDigit := by
  rw [List.eq_of_mem_replicate h]
  decide

theorem isDigit_of_mem_toDigits {n : Nat} {c : Char} (h : c ∈ Nat.toDigits 10 n) : c.isDigit :=
  Nat.isDigit_of_mem_toDigits (by decide) (by decide) h

/-- Digits around a point, at least one before it, that read as the double of a decimal. -/
structure Places (d : Decimal) (whole fraction : List Char) : Prop where
  ne_nil : whole ≠ []
  whole_digits : ∀ c ∈ whole, c.isDigit
  fraction_digits : ∀ c ∈ fraction, c.isDigit
  nearest_eq : (ofPlaces whole fraction).nearest = d.nearest

theorem ofDigitChars_toDigits_zeros (m n : Nat) :
    Nat.ofDigitChars 10 (Nat.toDigits 10 m ++ zeros n) 0 = m * 10 ^ n := by
  rw [Nat.ofDigitChars_append, Nat.ofDigitChars_ten_toDigits, zeros,
    Nat.ofDigitChars_replicate_zero, Nat.mul_comm]

theorem ofDigitChars_zeros_toDigits (m n : Nat) :
    Nat.ofDigitChars 10 (zeros n ++ Nat.toDigits 10 m) 0 = m := by
  rw [Nat.ofDigitChars_append, zeros, Nat.ofDigitChars_replicate_zero, Nat.mul_zero,
    Nat.ofDigitChars_ten_toDigits]

theorem places_whole (m n : Nat) : Places ⟨m, n⟩ (Nat.toDigits 10 m ++ zeros n) (zeros 1) where
  ne_nil := by
    intro h
    exact Nat.toDigits_ne_nil (List.append_eq_nil_iff.mp h).1
  whole_digits c hc := by
    rcases List.mem_append.mp hc with hc | hc
    · exact isDigit_of_mem_toDigits hc
    · exact isDigit_of_mem_zeros hc
  fraction_digits _ hc := isDigit_of_mem_zeros hc
  nearest_eq := by
    have hzeros : zeros n ++ zeros 1 = zeros (n + 1) := List.replicate_append_replicate
    have hexponent : (-1 : Int) + (n + 1 : Nat) = n := by omega
    rw [ofPlaces, List.append_assoc, hzeros, ofDigitChars_toDigits_zeros]
    exact (nearest_shift m (n + 1) (-1)).trans (by rw [hexponent])

theorem places_small {m n : Nat} (h : (Nat.toDigits 10 m).length <= n) :
    Places ⟨m, -n⟩ (zeros 1) (zeros (n - (Nat.toDigits 10 m).length) ++ Nat.toDigits 10 m) where
  ne_nil := List.cons_ne_nil _ _
  whole_digits _ hc := isDigit_of_mem_zeros hc
  fraction_digits c hc := by
    rcases List.mem_append.mp hc with hc | hc
    · exact isDigit_of_mem_zeros hc
    · exact isDigit_of_mem_toDigits hc
  nearest_eq := by
    have hzeros : ∀ k, zeros 1 ++ zeros k = zeros (1 + k) :=
      fun _ => List.replicate_append_replicate
    have hlength : (zeros (n - (Nat.toDigits 10 m).length) ++ Nat.toDigits 10 m).length = n := by
      rw [List.length_append, zeros, List.length_replicate]
      omega
    rw [ofPlaces, hlength, ← List.append_assoc, hzeros, ofDigitChars_zeros_toDigits]

theorem places_split {m n : Nat} (h : n < (Nat.toDigits 10 m).length) :
    Places ⟨m, -n⟩ ((Nat.toDigits 10 m).take ((Nat.toDigits 10 m).length - n))
      ((Nat.toDigits 10 m).drop ((Nat.toDigits 10 m).length - n)) where
  ne_nil := by
    rw [ne_eq, List.take_eq_nil_iff]
    intro hnil
    rcases hnil with hzero | hnil
    · omega
    · exact Nat.toDigits_ne_nil hnil
  whole_digits _ hc := isDigit_of_mem_toDigits (List.mem_of_mem_take hc)
  fraction_digits _ hc := isDigit_of_mem_toDigits (List.mem_of_mem_drop hc)
  nearest_eq := by
    have hlength :
        ((Nat.toDigits 10 m).drop ((Nat.toDigits 10 m).length - n)).length = n := by
      rw [List.length_drop]
      omega
    rw [ofPlaces, hlength, List.take_append_drop, Nat.ofDigitChars_ten_toDigits]

theorem places_plain (d : Decimal) :
    ∃ whole fraction, d.plain = whole ++ '.' :: fraction ∧ Places d whole fraction := by
  obtain ⟨m, e⟩ := d
  cases e with
  | ofNat n =>
      refine ⟨_, _, ?_, places_whole m n⟩
      rw [plain]
      rfl
  | negSucc n =>
      by_cases h : (Nat.toDigits 10 m).length <= n + 1
      · refine ⟨_, _, ?_, places_small h⟩
        simp only [plain, if_pos h]
        rfl
      · refine ⟨_, _, ?_, places_split (Nat.lt_of_not_le h)⟩
        simp only [plain, if_neg h]

theorem toList_writeFloat {x : Float} (hfinite : x.isFinite) (layout : Layout) :
    (writeFloat layout x).toList =
      (if Binary64.negative x then ['-'] else []) ++ write layout (shortest (Binary64.pattern x)) := by
  have hlt : Binary64.pattern x < Binary64.infinity := (Binary64.isFinite_iff x).mp hfinite
  have hnan : x.isNaN = false := Binary64.isNaN_eq_false (Nat.le_of_lt hlt)
  simp only [writeFloat, hnan, if_pos hlt, String.toList_ofList, Bool.false_eq_true, if_false]

/-- A finite double without sign is written as digits around a point that read as the double. -/
theorem writeFloat_plain {x : Float} (hsign : Binary64.negative x = false)
    (hfinite : x.isFinite) :
    ∃ whole fraction, (writeFloat Layout.plain x).toList = whole ++ '.' :: fraction ∧
      Places (shortest (Binary64.pattern x)) whole fraction ∧
      (ofPlaces whole fraction).toFloat = x := by
  have hlt : Binary64.pattern x < Binary64.infinity := (Binary64.isFinite_iff x).mp hfinite
  obtain ⟨whole, fraction, htext, hplaces⟩ := places_plain (shortest (Binary64.pattern x))
  refine ⟨whole, fraction, ?_, hplaces, ?_⟩
  · rw [toList_writeFloat hfinite, hsign]
    simp only [write, Layout.plain, Bool.or_true, if_true, Bool.false_eq_true, if_false,
      List.nil_append, htext]
  · rw [toFloat, hplaces.nearest_eq, nearest_shortest (Nat.le_of_lt hlt),
      Binary64.ofPattern_pattern hsign]

end Decimal

end Abacus
