import Abacus.Proofs.Binary64.Negate
import Abacus.Proofs.Eval.Exact
import Abacus.Proofs.Expr.RoundTrip

/-!
# Values read back

The text of a number is a numeral, or a minus sign before a numeral.  Run as a source, it gives
the number again and changes nothing.  The least integer is the exception: its numeral is one
that 64 bits do not hold, so that it comes back as a double.
-/

namespace Abacus

open Scan

/-! ## The sign of a number -/

theorem Sign.minus_apply_float (x : Float) : minus.apply (.float x) = .float (-x) :=
  congrArg Number.float (Binary64.mul_ofInt_minusOne x)

theorem Decimal.toFloat_ofPlaces_toDigits (k : Nat) :
    (ofPlaces (Nat.toDigits 10 k) []).toFloat =
      Binary64.ofPattern false (Binary64.nearest (k * Binary64.one) 1) := by
  have hnearest := nearest_eq (m := k) (a := 0) (b := 0) (e := 0) rfl
  rw [Nat.pow_zero, Nat.mul_one] at hnearest
  rw [toFloat, ofPlaces, List.append_nil, Nat.ofDigitChars_ten_toDigits, ← hnearest]
  rfl

theorem Decimal.neg_ofPlaces_toDigits {z : Int} (h : z < 0) :
    -(ofPlaces (Nat.toDigits 10 z.natAbs) []).toFloat = Binary64.ofInt z := by
  rw [toFloat_ofPlaces_toDigits, Binary64.neg_ofPattern (Binary64.nearest_le_infinity _ _),
    Binary64.ofInt, decide_eq_true h]

namespace Number

def readBack (n : Number) : Number :=
  if n = int Int64.minValue then float n.toFloat else n

theorem readBack_of_ne {n : Number} (h : n ≠ int Int64.minValue) : n.readBack = n :=
  if_neg h

theorem readBack_minValue : readBack (int Int64.minValue) = float (int Int64.minValue).toFloat :=
  if_pos rfl

/-! ## The text of a negative number -/

theorem toList_text_int {n : Int64} (h : n.toInt < 0) :
    (text (int n)).toList = '-' :: Nat.toDigits 10 n.toInt.natAbs := by
  obtain ⟨k, hk⟩ := Int.eq_negSucc_of_lt_zero h
  have htext : toString (Int.negSucc k) = "-" ++ toString (k + 1) := rfl
  change (toString n.toInt).toList = _
  rw [hk, htext, Nat.toString_eq_ofList_toDigits, String.toList_append]
  simp

theorem text_float (x : Float) : text (float x) = Decimal.writeFloat .plain x :=
  rfl

theorem toList_text_float {x : Float} (hsign : Binary64.negative x = true)
    (hfinite : x.isFinite)
    (hsignless : (Binary64.ofPattern false (Binary64.pattern x)).isFinite) :
    (text (float x)).toList =
      '-' :: (text (float (Binary64.ofPattern false (Binary64.pattern x)))).toList := by
  have hle : Binary64.pattern x <= Binary64.infinity :=
    Nat.le_of_lt ((Binary64.isFinite_iff x).mp hfinite)
  rw [text_float, text_float, Decimal.toList_writeFloat hfinite,
    Decimal.toList_writeFloat hsignless, hsign, Binary64.negative_ofPattern hle,
    Binary64.pattern_ofPattern hle, if_pos rfl, if_neg Bool.false_ne_true, List.nil_append,
    List.singleton_append]

theorem eq_minValue_iff {n : Int64} : n = Int64.minValue ↔ n.toInt = -9223372036854775808 := by
  rw [← Int64.toInt_inj, Int64.toInt_minValue]
  norm_num

theorem fits_natAbs_iff {n : Int64} (h : n.toInt < 0) :
    Fits n.toInt.natAbs ↔ n ≠ Int64.minValue := by
  have hfits := fits_toInt n
  rw [ne_eq, eq_minValue_iff]
  unfold Fits at hfits ⊢
  omega

theorem minus_apply_wholeNumber {n : Int64} (h : n.toInt < 0) :
    Sign.minus.apply (wholeNumber (Nat.toDigits 10 n.toInt.natAbs)) = readBack (int n) := by
  have hdigits : Nat.ofDigitChars 10 (Nat.toDigits 10 n.toInt.natAbs) 0 = n.toInt.natAbs :=
    Nat.ofDigitChars_ten_toDigits
  by_cases hmin : n = Int64.minValue
  · have hfits : ¬ Fits (Nat.ofDigitChars 10 (Nat.toDigits 10 n.toInt.natAbs) 0) := by
      rw [hdigits, fits_natAbs_iff h]
      exact not_not_intro hmin
    rw [wholeNumber_of_not_fits hfits, Sign.minus_apply_float, Decimal.neg_ofPlaces_toDigits h,
      readBack, if_pos (congrArg int hmin), toFloat]
  · have hfits : Fits (Nat.ofDigitChars 10 (Nat.toDigits 10 n.toInt.natAbs) 0) := by
      rw [hdigits, fits_natAbs_iff h]
      exact hmin
    have hne : int n ≠ int Int64.minValue := fun heq => hmin (int.inj heq)
    rw [readBack_of_ne hne, wholeNumber_of_fits hfits, Sign.apply_eq_int_iff]
    refine ⟨_, rfl, ?_⟩
    rw [toInt_ofInt hfits, hdigits, Sign.exact]
    omega

/-- A numeral, or a minus sign before a numeral, with the number that it stands for. -/
inductive Spelled : List Char -> Number -> Prop where
  | bare {cs : List Char} {n : Number} (h : Numeral cs n) : Spelled cs n
  | minus {cs : List Char} {n : Number} (h : Numeral cs n) :
      Spelled ('-' :: cs) (Sign.minus.apply n)

theorem spelled_int (n : Int64) : Spelled (text (int n)).toList (readBack (int n)) := by
  by_cases h : n.toInt < 0
  · have hdigits : ∀ c ∈ Nat.toDigits 10 n.toInt.natAbs, c.isDigit :=
      fun _ hc => Decimal.isDigit_of_mem_toDigits hc
    rw [toList_text_int h, ← minus_apply_wholeNumber h]
    exact .minus (.whole Nat.toDigits_ne_nil hdigits)
  · have hne : int n ≠ int Int64.minValue := by
      intro heq
      rw [int.inj heq, Int64.toInt_minValue] at h
      exact h (by norm_num)
    rw [readBack_of_ne hne]
    exact .bare (Expr.numeral_int (Int.not_lt.mp h))

theorem spelled_float {x : Float} (hfinite : x.isFinite) :
    Spelled (text (float x)).toList (float x) := by
  cases hsign : Binary64.negative x with
  | false => exact .bare (Expr.numeral_float hsign hfinite)
  | true =>
      have hlt := (Binary64.isFinite_iff x).mp hfinite
      have hle := Nat.le_of_lt hlt
      have hsignless : (Binary64.ofPattern false (Binary64.pattern x)).isFinite := by
        rwa [Binary64.isFinite_iff, Binary64.pattern_ofPattern hle]
      have hspelled := Spelled.minus
        (Expr.numeral_float (Binary64.negative_ofPattern hle) hsignless)
      rwa [Sign.minus_apply_float, Binary64.neg_ofPattern hle,
        Binary64.ofPattern_pattern_of_negative hsign, ← toList_text_float hsign hfinite hsignless]
        at hspelled

theorem spelled_text {n : Number} (hfinite : n.isFinite) : Spelled n.text.toList n.readBack := by
  cases n with
  | int n => exact spelled_int n
  | float x =>
      have hne : float x ≠ int Int64.minValue := by
        intro h
        cases h
      rw [readBack_of_ne hne]
      exact spelled_float hfinite

end Number

/-! ## Running a numeral -/

namespace Source

variable {s : Source} {n : Number}

/-- A spelled number is read as an expression that has this number in every scope. -/
theorem read_of_spelled (h : Number.Spelled s.text.toList n) :
    ∃ tree, s.read = .ok tree ∧
      ∀ scope, (tree.eval scope).scope = scope ∧
        ∃ value, (tree.eval scope).result = .ok value ∧ value.number = n := by
  generalize hcs : s.text.toList = cs at h
  cases h with
  | bare hnumeral =>
      have hscans := (Lexeme.numeral hnumeral).scans s .zero
      rw [← hcs] at hscans
      have hread := read_of_scans hscans (Expr.derives_of_atom .expression .literal)
      exact ⟨_, hread, fun scope => ⟨rfl, _, rfl, rfl⟩⟩
  | minus hnumeral =>
      have hnext := (Lexeme.numeral hnumeral).scans s (Position.zero.advance '-')
      have hscans := Expr.scans_symbol (c := '-') rfl hnext
      rw [← hcs] at hscans
      have hread := read_of_scans hscans
        (.expression (.sum (.product (.minus (.factor (.power .literal))))))
      exact ⟨_, hread, fun scope => ⟨rfl, _, rfl, rfl⟩⟩

theorem run_of_spelled (h : Number.Spelled s.text.toList n) (scope : Scope) :
    (s.run scope).scope = scope ∧
      ∃ value, (s.run scope).result = .ok value ∧ value.number = n := by
  obtain ⟨tree, hread, heval⟩ := read_of_spelled h
  obtain ⟨hscope, value, hvalue, hnumber⟩ := heval scope
  obtain ⟨tokens, hscan, hparse⟩ := read_eq_ok_iff.mp hread
  refine ⟨?_, value, runIn_eq_ok_iff.mpr ⟨tree, hread, hvalue⟩, hnumber⟩
  rw [run, scope_runIn hscan hparse, hscope]

/--
The text of a finite number runs to that number in every scope and leaves the scope as it is.

The least integer alone runs to the double nearest to it: negative numbers are no literals,
and its digits without the sign are beyond 64 bits.
-/
theorem run_text (file : String) {n : Number} (hfinite : n.isFinite) (scope : Scope) :
    (Source.run ⟨file, n.text⟩ scope).scope = scope ∧
      ∃ value, (Source.run ⟨file, n.text⟩ scope).result = .ok value ∧
        (n ≠ .int Int64.minValue -> value.number = n) ∧
        (n = .int Int64.minValue -> value.number = .float n.toFloat) := by
  obtain ⟨hscope, value, hvalue, hnumber⟩ :=
    run_of_spelled (s := ⟨file, n.text⟩) (Number.spelled_text hfinite) scope
  refine ⟨hscope, value, hvalue, ?_, ?_⟩
  · intro hne
    rw [hnumber, Number.readBack_of_ne hne]
  · intro hmin
    rw [hnumber, hmin, Number.readBack_minValue]

/-- Minus zero keeps its sign. -/
theorem run_text_minus_zero :
    Number.isFinite (.float (Binary64.ofPattern true 0)) ∧
      ∃ value,
        (Source.run ⟨"text", Number.text (.float (Binary64.ofPattern true 0))⟩
          (.ofTable .globals)).result = .ok value ∧
        value.number = .float (Binary64.ofPattern true 0) := by
  have hfinite : Number.isFinite (.float (Binary64.ofPattern true 0)) := by decide
  obtain ⟨-, value, hvalue, hnumber, -⟩ := run_text "text" hfinite (.ofTable .globals)
  exact ⟨hfinite, value, hvalue, hnumber (by intro h; cases h)⟩

/-- The least integer does not come back as an integer. -/
theorem run_text_least :
    Number.text (.int Int64.minValue) = "-9223372036854775808" ∧
      ∃ value,
        (Source.run ⟨"text", "-9223372036854775808"⟩ (.ofTable .globals)).result = .ok value ∧
        value.number ≠ .int Int64.minValue := by
  have htext : Number.text (.int Int64.minValue) = "-9223372036854775808" := by decide
  have hspelled := Number.spelled_int Int64.minValue
  rw [htext] at hspelled
  obtain ⟨-, value, hvalue, hnumber⟩ :=
    run_of_spelled (s := ⟨"text", "-9223372036854775808"⟩) hspelled (.ofTable .globals)
  refine ⟨htext, value, hvalue, ?_⟩
  rw [hnumber, Number.readBack_minValue]
  intro h
  cases h

end Source

end Abacus
