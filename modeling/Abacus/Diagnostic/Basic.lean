import Abacus.Diagnostic.Excerpt

/-!
# Diagnostics

A diagnostic says what went wrong and where.  One from evaluation also says how
evaluation came there, as a list of frames with the innermost first.
-/

namespace Abacus

/-- The name of what was being evaluated and how far it had come. -/
structure Frame where
  name : String
  location : Location
deriving DecidableEq

namespace Diagnostic

inductive Kind where
  | illegalCharacter
  | expectedCharacter
  | invalidSyntax
  | runtime
deriving DecidableEq

def Kind.text : Kind -> String
  | illegalCharacter => "Illegal Character"
  | expectedCharacter => "Expected Character"
  | invalidSyntax => "Invalid Syntax"
  | runtime => "Runtime Error"

end Diagnostic

structure Diagnostic where
  kind : Diagnostic.Kind
  message : String
  span : Span
  traceback : List Frame
deriving DecidableEq

namespace Diagnostic

def display (d : Diagnostic) : String :=
  d.kind.text ++ ": " ++ d.message

/-- The file and the line of a location; lines are shown counted from one. -/
def place (l : Location) : Except Text.Breach String :=
  (Text.next l.position.line).map fun number =>
    "File " ++ l.source.name ++ ", line " ++ toString number

def frameLine (f : Frame) : Except Text.Breach String :=
  (place f.location).map fun place => "  " ++ place ++ ", in " ++ f.name ++ "\n"

def tracebackText : List Frame -> Except Text.Breach String
  | [] => .ok "Traceback (most recent call last):\n"
  | f :: outer => do
      let text <- tracebackText outer
      let line <- frameLine f
      return text ++ line

def headline (d : Diagnostic) : Except Text.Breach String :=
  match d.kind with
  | .runtime => (tracebackText d.traceback).map (· ++ d.kind.text ++ ", " ++ d.message)
  | _ => (place d.span.location).map (d.display ++ " " ++ ·)

def render (d : Diagnostic) : Except Text.Breach String := do
  let headline <- d.headline
  let excerpt <- d.span.excerpt
  Text.append (headline ++ " \n\n") excerpt

end Diagnostic

end Abacus
