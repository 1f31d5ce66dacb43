import Abacus.Decimal.Basic

/-!
# The shortest decimal that reads back

Among the decimals that read back as a given double, `shortest` takes one with
the fewest significant digits, and of those the nearest.  The search runs over
ever finer grids of powers of ten and looks at the two neighbours of the exact
value on each.  The finest grid holds the exact value itself.
-/

namespace Abacus

namespace Decimal

/-- The exact value of a pattern: one unit is `5 ^ 1074 * 10 ^ -1074`. -/
def exact (pattern : Nat) : Decimal :=
  ⟨Binary64.units pattern * Nat.pow 5 1074, -1074⟩

def onGrid (place n : Nat) : Decimal :=
  ⟨n, (place : Int) - 1074⟩

/--
The neighbour of the exact value on a grid that reads back as the pattern.

If both do, the nearer one is taken, and the upper one if they are equally near.
-/
def neighbour? (pattern place : Nat) : Option Decimal :=
  let value := (exact pattern).digits
  let grid := Nat.pow 10 place
  let below := onGrid place (value / grid)
  let above := onGrid place (value / grid + 1)
  let preferAbove : Bool := grid <= 2 * (value % grid)
  if below.nearest = pattern then
    if preferAbove && above.nearest = pattern then some above else some below
  else if above.nearest = pattern then some above
  else none

/-- The shortest decimal that reads back as the pattern, without trailing zeros. -/
def shortest (pattern : Nat) : Decimal :=
  let value := exact pattern
  let places := (Nat.toDigits 10 value.digits).length
  let found := (List.range places).findSome? fun n => neighbour? pattern (places - 1 - n)
  let d := found.getD value
  strip d.digits d.exponent

end Decimal

end Abacus
