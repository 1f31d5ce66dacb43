import Abacus.Token.Basic

/-!
# Expressions

An expression tree keeps, at every node, what was in the token that the node was made
from: the literal, the operator or the name, and its span.
-/

namespace Abacus

inductive Sign where
  | plus
  | minus
deriving DecidableEq

namespace Sign

def symbol : Sign -> String
  | plus => "+"
  | minus => "-"

def operator : Sign -> Operator
  | plus => .add
  | minus => .sub

def ofOperator? : Operator -> Option Sign
  | .add => some plus
  | .sub => some minus
  | _ => none

end Sign

inductive Expr where
  | literal (value : Number) (mark : Span)
  | access (name : String) (mark : Span)
  | assign (name : String) (mark : Span) (value : Expr)
  | unary (sign : Sign) (mark : Span) (operand : Expr)
  | binary (op : Operator) (mark : Span) (left right : Expr)
deriving DecidableEq

namespace Expr

/-- The token that a node was made from. -/
def token : Expr -> Token
  | literal value mark => ⟨.literal value, mark⟩
  | access name mark => ⟨.identifier name, mark⟩
  | assign name mark _ => ⟨.identifier name, mark⟩
  | unary sign mark _ => ⟨.operator sign.operator, mark⟩
  | binary op mark _ _ => ⟨.operator op, mark⟩

def mark (e : Expr) : Span :=
  e.token.span

/-- The span of an expression; an assignment has the span of its name alone. -/
def span : Expr -> Span
  | literal _ mark => mark
  | access _ mark => mark
  | assign _ mark _ => mark
  | unary _ mark operand => mark.through operand.span
  | binary _ _ left right => left.span.through right.span

def nodes : Expr -> List Expr
  | literal value mark => [literal value mark]
  | access name mark => [access name mark]
  | assign name mark value => assign name mark value :: value.nodes
  | unary sign mark operand => unary sign mark operand :: operand.nodes
  | binary op mark left right => binary op mark left right :: (left.nodes ++ right.nodes)

end Expr

end Abacus
