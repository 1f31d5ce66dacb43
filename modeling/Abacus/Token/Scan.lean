import Abacus.Token.Basic

/-!
# Scanning

Scanning cuts a source into tokens from left to right, each as long as it can be.
Spaces and tabs between tokens are skipped.  The last token stands for the end of
the input.
-/

namespace Abacus

namespace Scan

inductive Cause where
  /-- No token starts with this character. -/
  | illegal (c : Char)
  /-- This character has to be followed by an equals sign. -/
  | equalsAfter (c : Char)
deriving DecidableEq

structure Error where
  cause : Cause
  span : Span
deriving DecidableEq

/-- What stands at the front of a text; `more` counts the characters after the first. -/
inductive Front where
  | blank
  | token (kind : Token.Kind) (more : Nat)
  | fault (cause : Cause) (more : Nat)
deriving DecidableEq

/-! ## Numbers and words -/

/-- The number of a run of digits: an integer if 64 bits hold it, else the nearest double. -/
def wholeNumber (digits : List Char) : Number :=
  (Number.ofInt? (Nat.ofDigitChars 10 digits 0)).getD
    (.float (Decimal.ofPlaces digits []).toFloat)

def pointNumber (whole fraction : List Char) : Number :=
  .float (Decimal.ofPlaces whole fraction).toFloat

def number (c : Char) (cs : List Char) : Front :=
  let digits := cs.takeWhile Char.isDigit
  match cs.dropWhile Char.isDigit with
  | '.' :: rest =>
      let fraction := rest.takeWhile Char.isDigit
      .token (.literal (pointNumber (c :: digits) fraction))
        (digits.length + 1 + fraction.length)
  | _ => .token (.literal (wholeNumber (c :: digits))) digits.length

def isWordChar (c : Char) : Bool :=
  c.isAlphanum || c = '_'

def word (c : Char) (cs : List Char) : Front :=
  let letters := cs.takeWhile isWordChar
  .token (Token.Kind.ofWord (String.ofList (c :: letters))) letters.length

/-! ## Symbols -/

/-- The kinds of a symbol when it stands alone and when an equals sign follows. -/
structure Symbol where
  alone : Option Token.Kind
  withEquals : Option Token.Kind

def symbol? (c : Char) : Option Symbol :=
  match c with
  | '+' => some ⟨some (.operator .add), none⟩
  | '-' => some ⟨some (.operator .sub), none⟩
  | '*' => some ⟨some (.operator .mul), none⟩
  | '/' => some ⟨some (.operator .div), none⟩
  | '^' => some ⟨some (.operator .pow), none⟩
  | '(' => some ⟨some .leftParen, none⟩
  | ')' => some ⟨some .rightParen, none⟩
  | '=' => some ⟨some .assign, some (.comparison .equal)⟩
  | '!' => some ⟨none, some (.comparison .notEqual)⟩
  | '>' => some ⟨some (.comparison .greater), some (.comparison .greaterEqual)⟩
  | '<' => some ⟨some (.comparison .less), some (.comparison .lessEqual)⟩
  | _ => none

/-- A symbol takes an equals sign along if it can. -/
def symbol (c : Char) (s : Symbol) (cs : List Char) : Front :=
  match s.withEquals, cs with
  | some kind, '=' :: _ => .token kind 1
  | _, _ =>
      match s.alone with
      | some kind => .token kind 0
      | none => .fault (.equalsAfter c) (min 1 cs.length)

/-! ## The scan -/

def isBlank (c : Char) : Bool :=
  c = ' ' || c = '\t'

def front (c : Char) (cs : List Char) : Front :=
  if isBlank c then .blank
  else if c.isDigit then number c cs
  else if c.isAlpha then word c cs
  else
    match symbol? c with
    | some s => symbol c s cs
    | none => .fault (.illegal c) 0

/-- The tokens of the text `cs`, which starts at the position `p` of a source. -/
def tokens (source : Source) (p : Position) (cs : List Char) : Except Error (List Token) :=
  match cs with
  | [] => .ok [⟨.eof, .point source p⟩]
  | c :: cs =>
      match front c cs with
      | .blank => tokens source (p.advance c) cs
      | .token kind more =>
          let stop := p.advanceAll (c :: cs.take more)
          match tokens source stop (cs.drop more) with
          | .ok rest => .ok (⟨kind, .within source p stop⟩ :: rest)
          | .error e => .error e
      | .fault cause more =>
          .error ⟨cause, .within source p (p.advanceAll (c :: cs.take more))⟩
termination_by cs.length
decreasing_by
  · simp
  · simp only [List.length_drop, List.length_cons]
    omega

end Scan

def Source.tokens (s : Source) : Except Scan.Error (List Token) :=
  Scan.tokens s .zero s.text.toList

end Abacus
