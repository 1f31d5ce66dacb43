import Abacus.Expr.Basic

/-!
# Parsing

The rules of the grammar, one function for each binding strength:

* an expression is `var` name `=` expression, or a sum;
* a sum joins products by `+` and `-`, a product joins factors by `*` and `/`;
* a factor is a sign before a factor, or a power;
* a power joins an atom to a factor by `^`;
* an atom is a literal, a name, or an expression in parentheses.

Every rule works on the tokens that remain.  It gives back fewer of them, which is
why the rules end, or says what it looked for and where it stopped.
-/

namespace Abacus

namespace Parse

inductive Expected where
  | expression
  | operand
  | operator
  | identifier
  | assign
  | closing
  | endOfInput
deriving DecidableEq

def Expected.message : Expected -> String
  | expression => "Expected 'var', int, float, identifier, '+', '-' or '('"
  | operand => "Expected int, float, identifier, '+', '-' or '('"
  | operator => "Expected '+', '-', '*', '/' or '^'"
  | identifier => "Expected identifier"
  | assign => "Expected '='"
  | closing => "Expected ')'"
  | endOfInput => "Expected token stream to end with end-of-input"

/-- A rule that stopped, with the tokens from the one that does not fit. -/
structure Failure where
  expected : Expected
  rest : List Token

structure Parsed (bound : Nat) where
  tree : Expr
  rest : List Token
  shorter : rest.length < bound

abbrev Result (bound : Nat) : Type :=
  Except Failure (Parsed bound)

theorem lt_cons {us ts : List Token} {t : Token} (h : us.length < ts.length) :
    us.length < (t :: ts).length :=
  Nat.lt_succ_of_lt h

theorem lt_of_le_lt {n m : Nat} {us : List Token} (h : us.length < n + 1) (h' : n < m) :
    us.length < m :=
  Nat.lt_of_le_of_lt (Nat.le_of_lt_succ h) h'

inductive Level where
  | sum
  | product
  | power
deriving DecidableEq

/-- How many rules a level stands above the atoms. -/
@[simp] def Level.rank : Level -> Nat
  | sum => 6
  | product => 4
  | power => 1

end Parse

def Operator.level : Operator -> Parse.Level
  | add => .sum
  | sub => .sum
  | mul => .product
  | div => .product
  | pow => .power

namespace Parse

mutual

/-- An assignment or a sum; a sum that fails on its first token was no expression at all. -/
def expression (ts : List Token) : Result ts.length :=
  match ts with
  | ⟨.keyword .var, _⟩ :: rest =>
      match rest with
      | ⟨.identifier name, mark⟩ :: rest =>
          match rest with
          | ⟨.assign, _⟩ :: rest =>
              match expression rest with
              | .ok ⟨tree, after, shorter⟩ =>
                  .ok ⟨.assign name mark tree, after, lt_cons (lt_cons (lt_cons shorter))⟩
              | .error f => .error f
          | rest => .error ⟨.assign, rest⟩
      | rest => .error ⟨.identifier, rest⟩
  | ts =>
      match chain .sum ts with
      | .ok p => .ok p
      | .error f =>
          if f.rest.length = ts.length then .error ⟨.expression, ts⟩ else .error f
termination_by 9 * ts.length + 8

def chain (level : Level) (ts : List Token) : Result ts.length :=
  match leftOperand level ts with
  | .ok ⟨left, rest, shorter⟩ =>
      match more level left rest with
      | .ok ⟨tree, after, h⟩ => .ok ⟨tree, after, lt_of_le_lt h shorter⟩
      | .error f => .error f
  | .error f => .error f
termination_by 9 * ts.length + level.rank + 1

def leftOperand (level : Level) (ts : List Token) : Result ts.length :=
  match level with
  | .sum => chain .product ts
  | .product => factor ts
  | .power => atom ts
termination_by 9 * ts.length + level.rank

def rightOperand (level : Level) (ts : List Token) : Result ts.length :=
  match level with
  | .sum => chain .product ts
  | .product => factor ts
  | .power => factor ts
termination_by 9 * ts.length + 6

def more (level : Level) (left : Expr) (ts : List Token) : Result (ts.length + 1) :=
  match ts with
  | ⟨.operator op, mark⟩ :: rest =>
      if op.level = level then
        match rightOperand level rest with
        | .ok ⟨right, rest', shorter⟩ =>
            match more level (.binary op mark left right) rest' with
            | .ok ⟨tree, after, h⟩ =>
                .ok ⟨tree, after, Nat.lt_succ_of_lt (lt_cons (lt_of_le_lt h shorter))⟩
            | .error f => .error f
        | .error f => .error f
      else .ok ⟨left, ⟨.operator op, mark⟩ :: rest, Nat.lt_succ_self _⟩
  | ts => .ok ⟨left, ts, Nat.lt_succ_self _⟩
termination_by 9 * ts.length

def factor (ts : List Token) : Result ts.length :=
  match ts with
  | ⟨.operator op, mark⟩ :: rest =>
      match Sign.ofOperator? op with
      | some sign =>
          match factor rest with
          | .ok ⟨operand, after, shorter⟩ =>
              .ok ⟨.unary sign mark operand, after, lt_cons shorter⟩
          | .error f => .error f
      | none => chain .power (⟨.operator op, mark⟩ :: rest)
  | ts => chain .power ts
termination_by 9 * ts.length + 3

def atom (ts : List Token) : Result ts.length :=
  match ts with
  | ⟨.literal value, mark⟩ :: rest => .ok ⟨.literal value mark, rest, Nat.lt_succ_self _⟩
  | ⟨.identifier name, mark⟩ :: rest => .ok ⟨.access name mark, rest, Nat.lt_succ_self _⟩
  | ⟨.leftParen, _⟩ :: rest =>
      match expression rest with
      | .ok ⟨tree, ⟨.rightParen, _⟩ :: after, shorter⟩ =>
          .ok ⟨tree, after, lt_cons (Nat.lt_of_succ_lt shorter)⟩
      | .ok p => .error ⟨.closing, p.rest⟩
      | .error f => .error f
  | ts => .error ⟨.operand, ts⟩
termination_by 9 * ts.length

end

structure Error where
  expected : Expected
  span : Span
deriving DecidableEq

/-- The span of the first token that remains, or that of the last token of all. -/
def spanAt (rest : List Token) (last : Token) : Span :=
  (rest.headD last).span

/-- Where an empty list of tokens is said to be. -/
def nowhere : Span :=
  .point ⟨"<empty>", ""⟩ .zero

end Parse

def Expr.ofTokens (tokens : List Token) : Except Parse.Error Expr :=
  match tokens.getLast? with
  | none => .error ⟨.endOfInput, Parse.nowhere⟩
  | some last =>
      if last.kind = .eof then
        match Parse.expression tokens with
        | .ok ⟨tree, ⟨.eof, _⟩ :: _, _⟩ => .ok tree
        | .ok p => .error ⟨.operator, Parse.spanAt p.rest last⟩
        | .error f => .error ⟨f.expected, Parse.spanAt f.rest last⟩
      else .error ⟨.endOfInput, .point last.span.stopSource last.span.stop⟩

end Abacus
