import Abacus.Diagnostic.Basic
import Abacus.Expr.Parse
import Abacus.Token.Scan

/-!
# Reading a source

Reading scans a source and parses its tokens.  A failure of either step becomes a
diagnostic.
-/

namespace Abacus

namespace Scan

def Cause.kind : Cause -> Diagnostic.Kind
  | illegal _ => .illegalCharacter
  | equalsAfter _ => .expectedCharacter

def Cause.message : Cause -> String
  | illegal c => "'" ++ c.toString ++ "'"
  | equalsAfter c => "'=' (after '" ++ c.toString ++ "')"

def Error.diagnostic (e : Error) : Diagnostic :=
  ⟨e.cause.kind, e.cause.message, e.span, []⟩

end Scan

def Parse.Error.diagnostic (e : Parse.Error) : Diagnostic :=
  ⟨.invalidSyntax, e.expected.message, e.span, []⟩

theorem mapError_eq_ok_iff {ε ε' α : Type} {f : ε -> ε'} {x : Except ε α} {a : α} :
    x.mapError f = .ok a ↔ x = .ok a := by
  cases x with
  | ok b =>
      constructor <;> intro h <;> cases h <;> rfl
  | error e => exact ⟨nofun, nofun⟩

theorem mapError_eq_error_iff {ε ε' α : Type} {f : ε -> ε'} {x : Except ε α} {e' : ε'} :
    x.mapError f = .error e' ↔ ∃ e, x = .error e ∧ f e = e' := by
  cases x with
  | ok b => exact ⟨nofun, nofun⟩
  | error e =>
      constructor
      · intro h
        cases h
        exact ⟨e, rfl, rfl⟩
      · rintro ⟨_, h, rfl⟩
        cases h
        rfl

def Source.scan (s : Source) : Except Diagnostic (List Token) :=
  s.tokens.mapError Scan.Error.diagnostic

/-- The expression of a list of tokens, or the diagnostic of the first that does not fit. -/
def Expr.parse (tokens : List Token) : Except Diagnostic Expr :=
  (Expr.ofTokens tokens).mapError Parse.Error.diagnostic

def Source.read (s : Source) : Except Diagnostic Expr :=
  s.scan.bind Expr.parse

end Abacus
