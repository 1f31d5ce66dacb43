import Abacus.Decimal.Layout
import Abacus.Number.Basic

/-!
# The text of a number
-/

namespace Abacus

namespace Number

def write (layout : Decimal.Layout) : Number -> String
  | int n => toString n.toInt
  | float x => Decimal.writeFloat layout x

/-- The text of a value: never an exponent. -/
def text : Number -> String :=
  write Decimal.Layout.plain

/-- The text of a literal in a list of tokens: very large and very small doubles have an exponent. -/
def compactText : Number -> String :=
  write Decimal.Layout.compact

end Number

end Abacus
