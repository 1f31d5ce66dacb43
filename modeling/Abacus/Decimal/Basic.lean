import Abacus.Binary64.Units

/-!
# Decimals

A decimal is a natural number times a power of ten.  Reading one as a double
rounds its exact value to the nearest double, a half to the even neighbour.
-/

namespace Abacus

/-- The number `digits * 10 ^ exponent`. -/
structure Decimal where
  digits : Nat
  exponent : Int
deriving DecidableEq

namespace Decimal

def nearest (d : Decimal) : Nat :=
  match d.exponent with
  | .ofNat n => Binary64.nearest (d.digits * Nat.pow 10 n * Binary64.one) 1
  | .negSucc n => Binary64.nearest (d.digits * Binary64.one) (Nat.pow 10 (n + 1))

def toFloat (d : Decimal) : Float :=
  Binary64.ofPattern false d.nearest

def ofPlaces (whole fraction : List Char) : Decimal :=
  ⟨Nat.ofDigitChars 10 (whole ++ fraction) 0, -fraction.length⟩

/-- The decimal without trailing zeros in its digits; zero has the exponent zero. -/
def strip (digits : Nat) (exponent : Int) : Decimal :=
  if digits = 0 then
    ⟨0, 0⟩
  else if digits % 10 = 0 then
    strip (digits / 10) (exponent + 1)
  else
    ⟨digits, exponent⟩
termination_by digits
decreasing_by omega

end Decimal

end Abacus
