/-!
# Command-line options

Arguments are taken from left to right.  The first one that does not fit is a
fault, and a request for help or for the version is met as soon as it is read.
-/

namespace Abacus

namespace Shell

inductive Misuse where
  | unknown (option : String)
  | noValue (option : String)
  | unwantedValue (option : String)
  | repeated (option : String)
  | secondFile (path : String)
  | emptyFile
  | fileWithExpression
deriving DecidableEq

def Misuse.message : Misuse -> String
  | unknown option => "unknown option '" ++ option ++ "'"
  | noValue option => "a value is required for '" ++ option ++ "'"
  | unwantedValue option => "'" ++ option ++ "' takes no value"
  | repeated option => "'" ++ option ++ "' is given twice"
  | secondFile path => "'" ++ path ++ "' is a second file"
  | emptyFile => "the name of a file is empty"
  | fileWithExpression => "a file and an expression are given"

structure Options where
  file : Option String
  expression : Option String
  name : Option String
  prompt : Option String
  tokens : Bool
  tree : Bool
deriving DecidableEq

namespace Options

def initial : Options :=
  ⟨none, none, none, none, false, false⟩

def sourceName (o : Options) : String :=
  o.name.getD "<stdin>"

def promptText (o : Options) : String :=
  o.prompt.getD "REPL > "

end Options

inductive Setting where
  | expression
  | name
  | prompt
deriving DecidableEq

inductive Switch where
  | tokens
  | tree
  | help
  | version
deriving DecidableEq

def Setting.ofName? (name : String) : Option Setting :=
  if name = "eval" then some expression
  else if name = "name" then some Setting.name
  else if name = "prompt" then some prompt
  else none

def Switch.ofName? (name : String) : Option Switch :=
  if name = "tokens" then some tokens
  else if name = "ast" then some tree
  else if name = "help" then some help
  else if name = "version" then some version
  else none

inductive Argument where
  | plain (text : String)
  | long (name : String) (value : Option String)
  | short (letter : Char) (rest : List Char)
  | separator

/-- A single dash is plain, and two dashes alone end the options. -/
def Argument.ofString (text : String) : Argument :=
  match text.toList with
  | ['-', '-'] => separator
  | '-' :: '-' :: cs =>
      let name := String.ofList (cs.takeWhile (· ≠ '='))
      match cs.dropWhile (· ≠ '=') with
      | [] => long name none
      | _ :: value => long name (some (String.ofList value))
  | '-' :: c :: cs => short c cs
  | _ => plain text

inductive Mode where
  /-- An option or a file. -/
  | any
  /-- The value of an option, which was written as `option`. -/
  | value (setting : Setting) (option : String)
  /-- A file, whatever it looks like. -/
  | file
deriving DecidableEq

inductive Request where
  | help
  | version
  | run (options : Options)
deriving DecidableEq

inductive Progress where
  | done (request : Request)
  | next (options : Options) (mode : Mode)

namespace Options

def addFile (o : Options) (path : String) : Except Misuse Options :=
  if path = "" then .error .emptyFile
  else if o.file.isSome then .error (.secondFile path)
  else .ok { o with file := some path }

def addSetting (o : Options) (setting : Setting) (option value : String) :
    Except Misuse Options :=
  match setting with
  | .expression =>
      if o.expression.isSome then .error (.repeated option)
      else .ok { o with expression := some value }
  | .name =>
      if o.name.isSome then .error (.repeated option)
      else .ok { o with name := some value }
  | .prompt =>
      if o.prompt.isSome then .error (.repeated option)
      else .ok { o with prompt := some value }

/-- An option with the value that is attached to it, or with the next argument. -/
def takeSetting (o : Options) (setting : Setting) (option : String)
    (attached : Option String) : Except Misuse Progress :=
  match attached with
  | some value => (o.addSetting setting option value).map (.next · .any)
  | none => .ok (.next o (.value setting option))

def takeSwitch (o : Options) (switch : Switch) (option : String) : Except Misuse Progress :=
  match switch with
  | .help => .ok (.done .help)
  | .version => .ok (.done .version)
  | .tokens =>
      if o.tokens then .error (.repeated option)
      else .ok (.next { o with tokens := true } .any)
  | .tree =>
      if o.tree then .error (.repeated option)
      else .ok (.next { o with tree := true } .any)

def takeLong (o : Options) (option name : String) (attached : Option String) :
    Except Misuse Progress :=
  match Setting.ofName? name, Switch.ofName? name with
  | some setting, _ => o.takeSetting setting option attached
  | none, some switch =>
      if attached.isSome then .error (.unwantedValue option) else o.takeSwitch switch option
  | none, none => .error (.unknown option)

/-- A letter, after which a value can be attached with or without an equals sign. -/
def takeShort (o : Options) (option : String) (letter : Char) (rest : List Char) :
    Except Misuse Progress :=
  if letter = 'h' then o.takeSwitch .help option
  else if letter = 'V' then o.takeSwitch .version option
  else if letter = 'e' then
    match rest with
    | [] => o.takeSetting .expression option none
    | '=' :: value => o.takeSetting .expression option (some (String.ofList value))
    | value => o.takeSetting .expression option (some (String.ofList value))
  else .error (.unknown option)

def takeAny (o : Options) (text : String) : Except Misuse Progress :=
  match Argument.ofString text with
  | .plain path => (o.addFile path).map (.next · .any)
  | .separator => .ok (.next o .file)
  | .long name attached => o.takeLong text name attached
  | .short letter rest => o.takeShort text letter rest

/-- The value of an option cannot look like an option itself. -/
def takeValue (o : Options) (setting : Setting) (option text : String) :
    Except Misuse Progress :=
  match Argument.ofString text with
  | .plain value => (o.addSetting setting option value).map (.next · .any)
  | _ => .error (.noValue option)

def take (o : Options) (mode : Mode) (text : String) : Except Misuse Progress :=
  match mode with
  | .any => o.takeAny text
  | .value setting option => o.takeValue setting option text
  | .file => (o.addFile text).map (.next · .file)

end Options

namespace Request

def finish (o : Options) : Mode -> Except Misuse Request
  | .value _ option => .error (.noValue option)
  | _ =>
      if o.file.isSome && o.expression.isSome then .error .fileWithExpression
      else .ok (.run o)

/-- The request of arguments that follow those of the given options. -/
def further (o : Options) (mode : Mode) : List String -> Except Misuse Request
  | [] => finish o mode
  | text :: rest =>
      match o.take mode text with
      | .error m => .error m
      | .ok (.done request) => .ok request
      | .ok (.next o mode) => further o mode rest

def ofArguments (args : List String) : Except Misuse Request :=
  further .initial .any args

end Request

end Shell

end Abacus
