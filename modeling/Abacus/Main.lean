import Abacus.Shell.Basic

/-!
# The command line

Arguments, files, input and output of the shell.
-/

namespace Abacus

namespace Shell

def misuseCode : UInt32 :=
  2

/-- The exit code when there is no report. -/
def failureCode : UInt32 :=
  101

/-- What the system says of a failure, with its number. -/
def systemText (details : String) (code : UInt32) : String :=
  details ++ " (os error " ++ toString code ++ ")"

def failureText (e : IO.Error) : String :=
  match e with
  | .noFileOrDirectory _ _ _ => systemText "No such file or directory" 2
  | .permissionDenied _ _ _ => systemText "Permission denied" 13
  | .inappropriateType _ code _ =>
      if code = 21 then systemText "Is a directory" 21 else systemText "Not a directory" 20
  | e => toString e

def readContent (path : String) : IO (Except String ByteArray) := do
  try
    return .ok (← IO.FS.readBinFile path)
  catch e =>
    return .error (failureText e)

def abandon : IO UInt32 := do
  IO.eprintln "a limit is exceeded"
  return failureCode

def emit (asked : Option Level) (r : Report) : IO UInt32 := do
  for text in r.errorLines asked do
    IO.eprintln text
  IO.print r.output
  (← IO.getStdout).flush
  return UInt32.ofNat r.exitCode

/-- The bytes of the next line with its newline; none at the end of the input. -/
partial def readLine (input : IO.FS.Stream) (bytes : ByteArray) : IO ByteArray := do
  let next ← input.read 1
  if next.isEmpty then return bytes
  else if next.data.contains 10 then return bytes ++ next
  else readLine input (bytes ++ next)

/-- The prompt, which answers each line before it reads the next. -/
partial def converse (o : Options) (asked : Option Level) (scope : Scope) : IO UInt32 := do
  IO.print o.promptText
  (← IO.getStdout).flush
  let bytes ← readLine (← IO.getStdin) .empty
  if bytes.isEmpty then
    emit asked ⟨true, farewell, [], none⟩
  else
    match inputText? bytes.data.toList with
    | none => emit asked (.refusal notText)
    | some text =>
        match respond o text scope with
        | .error _ => abandon
        | .ok (output, events, scope) =>
            let _ ← emit asked ⟨true, output, events, none⟩
            converse o asked scope

def conclude (asked : Option Level) : Except Text.Breach Report -> IO UInt32
  | .ok r => emit asked r
  | .error _ => abandon

def serve (request : Request) (asked : Option Level) : IO UInt32 := do
  match request with
  | .run ⟨none, none, name, prompt, tokens, tree⟩ =>
      converse ⟨none, none, name, prompt, tokens, tree⟩ asked (.ofTable .globals)
  | .run ⟨some path, _, _, _, _, _⟩ =>
      let content ← readContent path
      conclude asked (perform request (fun _ => content) .empty)
  | _ => conclude asked (perform request (fun _ => .ok .empty) .empty)

end Shell

end Abacus

open Abacus.Shell in
def main (args : List String) : IO UInt32 := do
  match Request.ofArguments args with
  | .error m =>
      IO.eprintln ("error: " ++ m.message)
      return misuseCode
  | .ok request =>
      let asked := Level.ofSettings? [← IO.getEnv "BASIC_LOG", ← IO.getEnv "RUST_LOG"]
      serve request asked
