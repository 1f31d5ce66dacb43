import Abacus.Number.Text
import Abacus.Text.Source

/-!
# Tokens

A token is a kind together with the stretch of text it was read from.
-/

namespace Abacus

inductive Keyword where
  | var
  | not
deriving DecidableEq

namespace Keyword

def text : Keyword -> String
  | var => "var"
  | not => "not"

def ofWord? (word : String) : Option Keyword :=
  if word = "var" then some var
  else if word = "not" then some not
  else none

theorem ofWord?_text (k : Keyword) : ofWord? k.text = some k := by
  cases k <;> decide

end Keyword

inductive Operator where
  | add
  | sub
  | mul
  | div
  | pow
deriving DecidableEq

namespace Operator

def symbol : Operator -> String
  | add => "+"
  | sub => "-"
  | mul => "*"
  | div => "/"
  | pow => "^"

end Operator

/-- The comparisons, which are read as tokens but have no place in an expression. -/
inductive Comparison where
  | equal
  | notEqual
  | greater
  | greaterEqual
  | less
  | lessEqual
deriving DecidableEq

namespace Token

inductive Kind where
  | eof
  | literal (value : Number)
  | identifier (name : String)
  | keyword (word : Keyword)
  | operator (op : Operator)
  | assign
  | comparison (op : Comparison)
  | leftParen
  | rightParen
deriving DecidableEq

namespace Kind

def name : Kind -> String
  | eof => "EOF"
  | literal (.int _) => "INT"
  | literal (.float _) => "FLOAT"
  | identifier _ => "IDENTIFIER"
  | keyword _ => "KEYWORD"
  | operator .add => "PLUS"
  | operator .sub => "MINUS"
  | operator .mul => "MUL"
  | operator .div => "DIV"
  | operator .pow => "POW"
  | assign => "EQ"
  | comparison .equal => "EE"
  | comparison .notEqual => "NE"
  | comparison .greater => "GT"
  | comparison .greaterEqual => "GTE"
  | comparison .less => "LT"
  | comparison .lessEqual => "LTE"
  | leftParen => "LPAREN"
  | rightParen => "RPAREN"

def payload? : Kind -> Option String
  | literal value => some value.compactText
  | identifier name => some name
  | keyword word => some word.text
  | _ => none

/-- The name of a kind, followed by what it carries. -/
def display (kind : Kind) : String :=
  match kind.payload? with
  | some payload => kind.name ++ ":" ++ payload
  | none => kind.name

/-- The kind of a word: a keyword if it is reserved, else an identifier. -/
def ofWord (word : String) : Kind :=
  match Keyword.ofWord? word with
  | some k => keyword k
  | none => identifier word

end Kind

end Token

structure Token where
  kind : Token.Kind
  span : Span
deriving DecidableEq

namespace Token

def displayAll (tokens : List Token) : String :=
  "[" ++ ", ".intercalate (tokens.map fun t => t.kind.display) ++ "]"

end Token

end Abacus
