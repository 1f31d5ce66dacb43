import Abacus.Eval.Context
import Abacus.Expr.Format
import Abacus.Expr.Read

/-!
# Running a source

Running reads a source and evaluates it in a scope.  Apart from the result and the
scope it leaves, a run tells the events on its way.
-/

namespace Abacus

inductive Event where
  | tokenized (file : String) (count : Nat)
  | parsed (file : String) (tree : Expr)
  | assigned (name : String) (value : Value)
  | evaluated (file : String) (value : Value)

structure Run where
  result : Except Diagnostic Value
  scope : Scope
  events : List Event

namespace Source

def program : Context :=
  Context.root "<program>"

/-- Reads and evaluates a source; a fault is reported from the context. -/
def runIn (s : Source) (context : Context) (scope : Scope) : Run :=
  match s.scan with
  | .error d => ⟨.error d, scope, []⟩
  | .ok tokens =>
      let scanned := [.tokenized s.name tokens.length]
      match Expr.parse tokens with
      | .error d => ⟨.error d, scope, scanned⟩
      | .ok tree =>
          let o := tree.eval scope
          let walked := scanned ++ .parsed s.name tree ::
            o.assigned.map fun (name, value) => .assigned name value
          match o.result with
          | .error f => ⟨.error (f.diagnostic context), o.scope, walked⟩
          | .ok value => ⟨.ok value, o.scope, walked ++ [.evaluated s.name value]⟩

def run (s : Source) (scope : Scope) : Run :=
  s.runIn program scope

end Source

end Abacus
