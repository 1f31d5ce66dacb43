import Abacus.Binary64.Units

/-!
# Numbers

A number is a 64-bit integer or a double.  Sums, differences, products and powers
of integers are exact as long as 64 bits hold the result; otherwise the operation
is done on doubles.  A quotient is always a double.
-/

namespace Abacus

inductive Number where
  | int (value : Int64)
  | float (value : Float)
deriving DecidableEq

namespace Number

def toFloat : Number -> Float
  | int n => Binary64.ofInt n.toInt
  | float x => x

def Fits (z : Int) : Prop :=
  -9223372036854775808 <= z ∧ z < 9223372036854775808

instance (z : Int) : Decidable (Fits z) :=
  inferInstanceAs (Decidable (_ ∧ _))

def ofInt? (z : Int) : Option Number :=
  if Fits z then some (int (Int64.ofInt z)) else none

/-- The exact result of an operation, if both operands are integers and it has one that fits. -/
def onIntegers (whole : Int -> Int -> Option Int) : Number -> Number -> Option Number
  | int m, int n => (whole m.toInt n.toInt).bind ofInt?
  | _, _ => none

def arith (whole : Int -> Int -> Option Int) (nearest : Float -> Float -> Float)
    (a b : Number) : Number :=
  match onIntegers whole a b with
  | some n => n
  | none => float (nearest a.toFloat b.toFloat)

protected def add : Number -> Number -> Number :=
  arith (fun m n => some (m + n)) (· + ·)

protected def sub : Number -> Number -> Number :=
  arith (fun m n => some (m - n)) (· - ·)

protected def mul : Number -> Number -> Number :=
  arith (fun m n => some (m * n)) (· * ·)

protected def div (a b : Number) : Number :=
  float (a.toFloat / b.toFloat)

/--
A small exponent with the same power.

Beyond the 63rd power only `0`, `1` and `-1` have powers that 64 bits hold, and
those depend on the parity of the exponent alone.
-/
def settle (exponent : Nat) : Nat :=
  if exponent < 64 then exponent else 64 + exponent % 2

/-- The power of two integers, for exponents of 32 bits without sign. -/
def wholePower (base exponent : Int) : Option Int :=
  if 0 <= exponent ∧ exponent < 4294967296 then some (Int.pow base (settle exponent.toNat))
  else none

protected def pow : Number -> Number -> Number :=
  arith wholePower (· ^ ·)

instance : Add Number := ⟨Number.add⟩
instance : Sub Number := ⟨Number.sub⟩
instance : Mul Number := ⟨Number.mul⟩
instance : Div Number := ⟨Number.div⟩
instance : Pow Number Number := ⟨Number.pow⟩

def isZero : Number -> Bool
  | int n => n == 0
  | float x => x == 0.0

def isFinite : Number -> Bool
  | int _ => true
  | float x => x.isFinite

end Number

end Abacus
