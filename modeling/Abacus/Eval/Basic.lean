import Abacus.Expr.Basic
import Abacus.Scope.Basic

/-!
# Evaluation

Operands are evaluated from left to right, and the first fault ends evaluation.
An assignment binds its name as soon as its value is known, and what was bound
before a fault stays bound.
-/

namespace Abacus

namespace Eval

inductive Cause where
  | undefined (name : String)
  | divisionByZero
deriving DecidableEq

def Cause.message : Cause -> String
  | undefined name => "'" ++ name ++ "' is not defined"
  | divisionByZero => "Division by Zero"

structure Fault where
  cause : Cause
  span : Span
deriving DecidableEq

/-- The result of an evaluation, the scope it leaves, and its assignments in order. -/
structure Outcome where
  result : Except Fault Value
  scope : Scope
  assigned : List (String × Value)

end Eval

/-- A sign multiplies by one or minus one, which can leave the integers. -/
def Sign.apply : Sign -> Number -> Number
  | plus, n => n
  | minus, n => n * .int (-1)

/-- The value of an operator; `none` for a division by zero. -/
def Operator.value? : Operator -> Number -> Number -> Option Number
  | add, a, b => some (a + b)
  | sub, a, b => some (a - b)
  | mul, a, b => some (a * b)
  | div, a, b => if b.isZero then none else some (a / b)
  | pow, a, b => some (a ^ b)

namespace Expr

open Eval

def eval (e : Expr) (scope : Scope) : Outcome :=
  match e with
  | literal value mark => ⟨.ok ⟨value, some mark⟩, scope, []⟩
  | access name mark =>
      match scope.find? name with
      | some value => ⟨.ok ⟨value.number, some mark⟩, scope, []⟩
      | none => ⟨.error ⟨.undefined name, mark⟩, scope, []⟩
  | assign name _ body =>
      let o := body.eval scope
      match o.result with
      | .ok value =>
          ⟨.ok value, o.scope.insert name value, o.assigned ++ [(name, value)]⟩
      | .error f => ⟨.error f, o.scope, o.assigned⟩
  | unary sign mark operand =>
      let o := operand.eval scope
      match o.result with
      | .ok value =>
          ⟨.ok ⟨sign.apply value.number, some (mark.through operand.span)⟩, o.scope, o.assigned⟩
      | .error f => ⟨.error f, o.scope, o.assigned⟩
  | binary op _ left right =>
      let l := left.eval scope
      match l.result with
      | .error f => ⟨.error f, l.scope, l.assigned⟩
      | .ok a =>
          let r := right.eval l.scope
          let assigned := l.assigned ++ r.assigned
          match r.result with
          | .error f => ⟨.error f, r.scope, assigned⟩
          | .ok b =>
              match op.value? a.number b.number with
              | some n => ⟨.ok ⟨n, some (left.span.through right.span)⟩, r.scope, assigned⟩
              | none => ⟨.error ⟨.divisionByZero, right.span⟩, r.scope, assigned⟩

end Expr

end Abacus
