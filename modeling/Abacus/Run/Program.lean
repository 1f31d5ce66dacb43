import Abacus.Run.Basic
import Abacus.Text.Lines

/-!
# Running a program

A program is a text with one expression in each line that is not blank.  Its lines
run one after the other, each as a source of its own, until one fails.

A caller can be told of each value as soon as there is one.  Only what it is told is kept
here, in order: what it does then is not part of the run and is taken to leave the scope
as it is.
-/

namespace Abacus

namespace Program

def lines (text : String) : List String :=
  ((Text.lines text.toList).filter fun line => !Text.isBlank line).map String.ofList

/-- The lines that had a value, of which the caller is told, the failure that ended the
program, and what is left. -/
structure Run where
  values : List (String × Value)
  failure : Option Diagnostic
  scope : Scope
  events : List Event

def Run.last (r : Run) : Except Diagnostic (Option Value) :=
  match r.failure with
  | some d => .error d
  | none => .ok (r.values.getLast?.map Prod.snd)

def runLines (file : String) : List String -> Scope -> Run
  | [], scope => ⟨[], none, scope, []⟩
  | line :: rest, scope =>
      let first := Source.run ⟨file, line⟩ scope
      match first.result with
      | .error d => ⟨[], some d, first.scope, first.events⟩
      | .ok value =>
          let later := runLines file rest first.scope
          ⟨(line, value) :: later.values, later.failure, later.scope,
            first.events ++ later.events⟩

end Program

def Source.runProgram (s : Source) (scope : Scope) : Program.Run :=
  Program.runLines s.name (Program.lines s.text) scope

end Abacus
