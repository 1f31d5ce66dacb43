import Abacus.Run.Basic
import Abacus.Text.Quoted

/-!
# The log

Events are logged if their level is at or above the one that is asked for.
-/

namespace Abacus

namespace Shell

inductive Level where
  | error
  | warn
  | info
  | debug
  | trace
deriving DecidableEq

namespace Level

def rank : Level -> Nat
  | error => 1
  | warn => 2
  | info => 3
  | debug => 4
  | trace => 5

def label : Level -> String
  | error => "ERROR"
  | warn => "WARN"
  | info => "INFO"
  | debug => "DEBUG"
  | trace => "TRACE"

/-- The least important level that a setting asks for, if any. -/
def ofSetting? (text : String) : Option Level :=
  if text = "off" then none
  else if text = "warn" then some warn
  else if text = "info" then some info
  else if text = "debug" then some debug
  else if text = "trace" then some trace
  else some error

/-- The level of the first setting that is made; warnings if there is none. -/
def ofSettings? (settings : List (Option String)) : Option Level :=
  match settings.findSome? id with
  | some text => ofSetting? text
  | none => some warn

end Level

end Shell

namespace Event

open Shell

def level : Event -> Level
  | assigned _ _ => .trace
  | _ => .debug

def isShown (asked : Option Level) (e : Event) : Bool :=
  match asked with
  | some level => e.level.rank <= level.rank
  | none => false

def text : Event -> String
  | tokenized file count =>
      "tokenized file_name=" ++ Text.quote file ++ " tokens=" ++ toString count
  | parsed file tree => "parsed file_name=" ++ Text.quote file ++ " ast=" ++ tree.format
  | assigned name value => "assign name=" ++ Text.quote name ++ " value=" ++ value.text
  | evaluated file value =>
      "evaluated file_name=" ++ Text.quote file ++ " value=" ++ value.text

def line (e : Event) : String :=
  e.level.label ++ " " ++ e.text

end Event

end Abacus
