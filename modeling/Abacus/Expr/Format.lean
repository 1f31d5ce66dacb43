import Abacus.Expr.Basic

/-!
# Writing expressions

An expression is written with parentheses around every operation, so that its
text can be read in one way only.  An assignment is in parentheses where it is
an operand.
-/

namespace Abacus

namespace Expr

/-- A literal that is no finite number is written as it stands in its source. -/
def literalText (value : Number) (mark : Span) : String :=
  if value.isFinite then value.text else mark.text

/-- The text of an expression, which is an operand of another one if `nested`. -/
def formatAs (nested : Bool) : Expr -> String
  | literal value mark => literalText value mark
  | access name _ => name
  | assign name _ value =>
      let bare := "var " ++ name ++ " = " ++ value.formatAs false
      if nested then "(" ++ bare ++ ")" else bare
  | unary sign _ operand => "(" ++ sign.symbol ++ operand.formatAs true ++ ")"
  | binary op _ left right =>
      "(" ++ left.formatAs true ++ " " ++ op.symbol ++ " " ++ right.formatAs true ++ ")"

def format (e : Expr) : String :=
  e.formatAs false

end Expr

end Abacus
