/-!
# Doubles counted in units

The smallest positive double is `2 ^ -1074`, and every finite double is a whole
number of such units.  Counting in units turns the bit pattern of a double, and
the rounding of an exact quotient to the nearest double, into arithmetic on
natural numbers.
-/

namespace Abacus

namespace Binary64

def one : Nat := Nat.pow 2 1074

def binade : Nat := Nat.pow 2 52

/-- The pattern of positive infinity; smaller patterns are finite. -/
def infinity : Nat := 2047 * binade

def signBit : Nat := Nat.pow 2 63

/-- The number of units that a pattern without sign stands for. -/
def units (pattern : Nat) : Nat :=
  if pattern < binade then pattern
  else (binade + pattern % binade) * Nat.pow 2 (pattern / binade - 1)

/-- The quotient rounded to the nearest whole number, a half to the even one. -/
def halfEven (num den : Nat) : Nat :=
  let floor := num / den
  let twice := 2 * (num % den)
  if twice < den then floor
  else if den < twice then floor + 1
  else floor + floor % 2

/--
The pattern of the double nearest to `num / den` units.

A double has 53 significant bits, so doubles near `t` units lie `2 ^ (log2 t - 52)`
units apart, and one unit apart at the bottom.  A significand that is rounded up
to `2 ^ 53` carries into the exponent field, which is then the right pattern.
-/
def nearest (num den : Nat) : Nat :=
  let gap := Nat.log2 (num / den) - 52
  min (gap * binade + halfEven num (den * Nat.pow 2 gap)) infinity

def ofPattern (negative : Bool) (pattern : Nat) : Float :=
  Float.ofBits (UInt64.ofNat (if negative then signBit + pattern else pattern))

def negative (x : Float) : Bool :=
  signBit <= x.toBits.toNat

def pattern (x : Float) : Nat :=
  x.toBits.toNat % signBit

def ofInt (z : Int) : Float :=
  ofPattern (z < 0) (nearest (z.natAbs * one) 1)

end Binary64

end Abacus
