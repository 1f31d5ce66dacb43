import Abacus.Binary64.Units

/-!
# Rounding to the nearest pattern

Rounding depends on the quotient alone, and a number of units that a pattern stands
for is rounded to that pattern.
-/

namespace Abacus

namespace Binary64

/-! ## Common factors -/

theorem halfEven_mul_left {k : Nat} (hk : 0 < k) (num den : Nat) :
    halfEven (k * num) (k * den) = halfEven num den := by
  have hdiv : k * num / (k * den) = num / den := Nat.mul_div_mul_left num den hk
  have hmod : k * num % (k * den) = k * (num % den) := Nat.mul_mod_mul_left k num den
  have htwice : 2 * (k * (num % den)) = k * (2 * (num % den)) := by
    rw [← Nat.mul_assoc, ← Nat.mul_assoc, Nat.mul_comm 2 k]
  simp only [halfEven, hdiv, hmod, htwice, Nat.mul_lt_mul_left hk]

theorem nearest_mul_left {k : Nat} (hk : 0 < k) (num den : Nat) :
    nearest (k * num) (k * den) = nearest num den := by
  have hdiv : k * num / (k * den) = num / den := Nat.mul_div_mul_left num den hk
  simp only [nearest, hdiv, Nat.mul_assoc k den, halfEven_mul_left hk]

theorem nearest_le_infinity (num den : Nat) : nearest num den <= infinity :=
  Nat.min_le_right ..

theorem nearest_zero {den : Nat} (hden : 0 < den) : nearest 0 den = 0 := by
  have hgap : Nat.log2 (0 / den) - 52 = 0 := by simp
  have hround : halfEven 0 (den * Nat.pow 2 0) = 0 := by
    have hmul : den * Nat.pow 2 0 = den := Nat.mul_one den
    simp only [halfEven, hmul, Nat.zero_div, Nat.zero_mod, Nat.mul_zero, if_pos hden]
  simp only [nearest, hgap, hround, Nat.zero_mul, Nat.add_zero, Nat.zero_min]

/-! ## Whole patterns -/

theorem halfEven_exact {gap : Nat} (hgap : 0 < gap) (m : Nat) : halfEven (m * gap) gap = m := by
  have hdiv : m * gap / gap = m := Nat.mul_div_cancel m hgap
  have hmod : m * gap % gap = 0 := Nat.mul_mod_left m gap
  simp only [halfEven, hdiv, hmod, Nat.mul_zero, if_pos hgap]

theorem log2_units {pattern : Nat} (h : binade <= pattern) :
    Nat.log2 (units pattern) = 52 + (pattern / binade - 1) := by
  have hlow : 2 ^ 52 <= binade + pattern % binade := Nat.le_add_right ..
  have hhigh : binade + pattern % binade < 2 ^ 53 := by
    have hmod : pattern % binade < binade := Nat.mod_lt _ (by decide)
    have hdouble : binade + binade = 2 ^ 53 := by decide
    omega
  have hunits : units pattern = (binade + pattern % binade) * 2 ^ (pattern / binade - 1) := by
    rw [units, if_neg (by omega)]
    rfl
  have hne : units pattern ≠ 0 := by
    rw [hunits]
    exact Nat.ne_of_gt (Nat.mul_pos (by omega) (Nat.two_pow_pos _))
  apply Nat.le_antisymm
  · apply Nat.le_of_lt_succ
    rw [Nat.log2_lt hne, hunits]
    have hpow : 2 ^ (52 + (pattern / binade - 1)).succ = 2 ^ 53 * 2 ^ (pattern / binade - 1) := by
      rw [← Nat.pow_add]
      congr 1
      omega
    rw [hpow]
    exact Nat.mul_lt_mul_of_pos_right hhigh (Nat.two_pow_pos _)
  · rw [Nat.le_log2 hne, hunits, Nat.pow_add]
    exact Nat.mul_le_mul_right _ hlow

theorem nearest_units_of_lt {pattern : Nat} (h : pattern < binade) :
    nearest (units pattern) 1 = pattern := by
  have hunits : units pattern = pattern := if_pos h
  have hinf : pattern <= infinity := by
    change pattern <= 2047 * binade
    omega
  have hlog : Nat.log2 pattern - 52 = 0 := by
    by_cases hzero : pattern = 0
    · simp [hzero]
    · have hlt : Nat.log2 pattern < 52 := (Nat.log2_lt hzero).mpr h
      omega
  have hround : halfEven pattern (1 * Nat.pow 2 0) = pattern := by
    have hexact := halfEven_exact (Nat.one_pos) pattern
    rw [Nat.mul_one] at hexact
    exact hexact
  simp only [nearest, hunits, Nat.div_one, hlog, hround, Nat.zero_mul, Nat.zero_add,
    Nat.min_eq_left hinf]

theorem nearest_units_of_ge {pattern : Nat} (h : binade <= pattern) (hinf : pattern <= infinity) :
    nearest (units pattern) 1 = pattern := by
  have hgap : Nat.log2 (units pattern) - 52 = pattern / binade - 1 := by
    rw [log2_units h]
    omega
  have hunits : units pattern = (binade + pattern % binade) * Nat.pow 2 (pattern / binade - 1) := by
    rw [units, if_neg (by omega)]
  have hround : halfEven (units pattern) (1 * Nat.pow 2 (pattern / binade - 1)) =
      binade + pattern % binade := by
    rw [Nat.one_mul, hunits]
    exact halfEven_exact (Nat.two_pow_pos _) _
  have hpattern : (pattern / binade - 1) * binade + (binade + pattern % binade) = pattern := by
    have hpos : 1 <= pattern / binade := (Nat.one_le_div_iff (by decide)).mpr h
    have hsplit := Nat.div_add_mod pattern binade
    have hmul : (pattern / binade - 1) * binade = pattern / binade * binade - binade := by
      rw [Nat.sub_mul, Nat.one_mul]
    have hle : binade <= pattern / binade * binade := Nat.le_mul_of_pos_left _ hpos
    rw [Nat.mul_comm] at hsplit
    omega
  simp only [nearest, Nat.div_one, hgap, hround, hpattern, Nat.min_eq_left hinf]

/-- The units of a pattern are rounded to it. -/
theorem nearest_units {pattern : Nat} (h : pattern <= infinity) :
    nearest (units pattern) 1 = pattern := by
  by_cases hlt : pattern < binade
  · exact nearest_units_of_lt hlt
  · exact nearest_units_of_ge (by omega) h

end Binary64

end Abacus
