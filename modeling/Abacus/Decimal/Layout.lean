import Abacus.Decimal.Shortest

/-!
# Writing doubles

A finite double is written with the digits of its shortest decimal.  The plain
layout never uses an exponent and always has a point; the compact layout turns
to an exponent outside of a range of magnitudes.
-/

namespace Abacus

namespace Decimal

def zeros (n : Nat) : List Char :=
  List.replicate n '0'

/-- Digits and a point, with at least one digit on each side of the point. -/
def plain (d : Decimal) : List Char :=
  let digits := Nat.toDigits 10 d.digits
  match d.exponent with
  | .ofNat n => digits ++ zeros n ++ ['.', '0']
  | .negSucc n =>
      let places := n + 1
      if digits.length <= places then
        '0' :: '.' :: zeros (places - digits.length) ++ digits
      else
        digits.take (digits.length - places) ++ '.' :: digits.drop (digits.length - places)

def magnitude (d : Decimal) : Int :=
  (Nat.toDigits 10 d.digits).length - 1 + d.exponent

/-- One digit before the point, if there is more than one, and an exponent. -/
def scientific (d : Decimal) : List Char :=
  let exponent := 'e' :: (toString d.magnitude).toList
  match Nat.toDigits 10 d.digits with
  | [] => exponent
  | [digit] => digit :: exponent
  | digit :: rest => digit :: '.' :: rest ++ exponent

/-- Which magnitudes are written without an exponent. -/
structure Layout where
  positional : Int -> Bool

def Layout.plain : Layout where
  positional _ := true

/-- Numbers from a ten-thousandth up to ten quadrillion without an exponent. -/
def Layout.compact : Layout where
  positional magnitude := -4 <= magnitude && magnitude < 16

def write (layout : Layout) (d : Decimal) : List Char :=
  if d.digits = 0 || layout.positional d.magnitude then d.plain else d.scientific

def writeFloat (layout : Layout) (x : Float) : String :=
  if x.isNaN then "NaN"
  else
    let sign := if Binary64.negative x then ['-'] else []
    let pattern := Binary64.pattern x
    if pattern < Binary64.infinity then
      String.ofList (sign ++ write layout (shortest pattern))
    else
      String.ofList (sign ++ ['i', 'n', 'f'])

end Decimal

end Abacus
