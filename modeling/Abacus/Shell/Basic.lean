import Abacus.Run.Program
import Abacus.Shell.Log
import Abacus.Shell.Options

/-!
# The shell

The shell evaluates one expression, runs a script, or answers line by line at a
prompt.  All three write to the output what `answer` writes for each input.
-/

namespace Abacus

namespace Shell

open Text (Breach)

/-- What the shell did: what it wrote, what happened, and why it stopped if not at the end. -/
structure Report where
  success : Bool
  output : String
  events : List Event
  complaint : Option String

namespace Report

def exitCode (r : Report) : Nat :=
  if r.success then 0 else 1

def errorLines (r : Report) (asked : Option Level) : List String :=
  (r.events.filter (·.isShown asked)).map Event.line ++ r.complaint.toList

def refusal (complaint : String) : Report :=
  ⟨false, "", [], some complaint⟩

def after (output : String) (events : List Event) (r : Report) : Report :=
  { r with output := output ++ r.output, events := events ++ r.events }

end Report

def line (text : String) : String :=
  text ++ "\n"

/-- The tokens and the tree of a source, as far as they are asked for and there are any. -/
def dump (o : Options) (s : Source) : String :=
  if o.tokens || o.tree then
    match s.scan with
    | .error _ => ""
    | .ok tokens =>
        let shownTokens := if o.tokens then line (Token.displayAll tokens) else ""
        let shownTree :=
          match Expr.parse tokens with
          | .ok tree => if o.tree then line tree.format else ""
          | .error _ => ""
        shownTokens ++ shownTree
  else ""

def resultText : Except Diagnostic Value -> Except Breach String
  | .ok value => .ok value.text
  | .error d => d.render

def written (o : Options) (s : Source) (text : String) : String :=
  dump o s ++ line text

def answer (o : Options) (s : Source) (result : Except Diagnostic Value) :
    Except Breach String :=
  (resultText result).map (written o s)

/-! ## One expression -/

def once (o : Options) (expression : String) (scope : Scope) :
    Except Breach Report :=
  let s : Source := ⟨o.sourceName, expression⟩
  let r := s.run scope
  (answer o s r.result).map fun output => ⟨r.result.isOk, output, r.events, none⟩

/-! ## A script -/

def scriptOutput (o : Options) (path : String) (r : Program.Run) : Except Breach String :=
  let values := r.values.map fun (text, value) => written o ⟨path, text⟩ value.text
  match r.failure with
  | none => .ok (String.join values)
  | some d =>
      (answer o ⟨path, d.span.source.text⟩ (.error d)).map (String.join values ++ ·)

def script (o : Options) (path text : String) (scope : Scope) : Except Breach Report :=
  let r := Source.runProgram ⟨path, text⟩ scope
  (scriptOutput o path r).map fun output => ⟨r.failure.isNone, output, r.events, none⟩

def notText : String :=
  "stream did not contain valid UTF-8"

/-- Runs the script in a file, of which the content or the reason why there is none is known. -/
def file (o : Options) (path : String) (content : Except String ByteArray) (scope : Scope) :
    Except Breach Report :=
  match content with
  | .error reason => .ok (.refusal (path ++ ": " ++ reason))
  | .ok bytes =>
      match String.fromUTF8? bytes with
      | some text => script o path text scope
      | none => .ok (.refusal (path ++ ": " ++ notText))

/-! ## The prompt -/

def farewell : String :=
  "\nProgram terminated!\n"

/-- The lines of the input as bytes; a newline is part of its line. -/
def inputLines (bytes : List UInt8) : List (List UInt8) :=
  match bytes with
  | [] => []
  | b :: rest =>
      if b = 10 then [b] :: inputLines rest
      else
        match inputLines rest with
        | [] => [[b]]
        | l :: ls => (b :: l) :: ls

def inputText? (bytes : List UInt8) : Option String :=
  (String.fromUTF8? ⟨bytes.toArray⟩).map fun s => String.ofList (Text.trim s.toList)

def respond (o : Options) (text : String) (scope : Scope) :
    Except Breach (String × List Event × Scope) :=
  if text = "" then .ok ("", [], scope)
  else
    let s : Source := ⟨o.sourceName, text⟩
    let r := s.run scope
    (answer o s r.result).map fun output => (output, r.events, r.scope)

def prompt (o : Options) : List (List UInt8) -> Scope -> Except Breach Report
  | [], _ => .ok ⟨true, o.promptText ++ farewell, [], none⟩
  | bytes :: rest, scope =>
      match inputText? bytes with
      | none => .ok ((Report.refusal notText).after o.promptText [])
      | some text => do
          let (output, events, scope) <- respond o text scope
          let later <- prompt o rest scope
          return later.after (o.promptText ++ output) events

/-! ## The whole shell -/

def helpText : String :=
  "Usage: basic [OPTIONS] [FILE]\n"

def versionText : String :=
  "basic-rs 0.1.0\n"

/--
Answers a request, given the contents of files and the input.

There is no report where a diagnostic cannot be shown.
-/
def perform (request : Request) (content : String -> Except String ByteArray)
    (input : ByteArray) : Except Breach Report :=
  let scope := Scope.ofTable Table.globals
  match request with
  | .help => .ok ⟨true, helpText, [], none⟩
  | .version => .ok ⟨true, versionText, [], none⟩
  | .run o =>
      match o.expression, o.file with
      | some expression, _ => once o expression scope
      | none, some path => file o path (content path) scope
      | none, none => prompt o (inputLines input.data.toList) scope

end Shell

end Abacus
