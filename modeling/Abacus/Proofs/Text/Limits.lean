import Mathlib
import Abacus.Text.Limits

/-!
# Texts that fit

A text that is put together step by step fits at every step if it fits in the end.
-/

namespace Abacus

namespace Text

variable {text : String}

theorem fitted_of_le (h : text.utf8ByteSize <= capacity) : fitted text = .ok text :=
  if_pos h

theorem fitted_of_lt (h : capacity < text.utf8ByteSize) : fitted text = .error .capacity :=
  if_neg (Nat.not_le_of_lt h)

/-- A text fits if it fits with more behind it. -/
theorem fitted_bind (text more : String) :
    (fitted text >>= fun t => fitted (t ++ more)) = fitted (text ++ more) := by
  by_cases h : text.utf8ByteSize <= capacity
  · rw [fitted_of_le h]
    rfl
  · rw [fitted_of_lt (by omega), fitted_of_lt (by rw [String.utf8ByteSize_append]; omega)]
    rfl

theorem utf8Len_replicate (n : Nat) (c : Char) :
    String.utf8Len (List.replicate n c) = n * c.utf8Size := by
  induction n with
  | zero => simp
  | succ n ih => rw [List.replicate_succ, String.utf8Len_cons, ih, Nat.succ_mul]

theorem copies_bind (n : Nat) (c : Char) (text more : String) :
    (copies n c >>= fun t => fitted (text ++ t ++ more)) =
      fitted (text ++ String.ofList (List.replicate n c) ++ more) := by
  have hsize : (String.ofList (List.replicate n c)).utf8ByteSize = n * c.utf8Size := by
    rw [String.utf8ByteSize_ofList, utf8Len_replicate]
  unfold copies
  split_ifs with h
  · rfl
  · rw [fitted_of_lt (by rw [String.utf8ByteSize_append, String.utf8ByteSize_append]; omega)]
    rfl

end Text

end Abacus
