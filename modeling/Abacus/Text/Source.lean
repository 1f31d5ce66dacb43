/-!
# Sources, positions and spans

A source is a named text.  A position counts characters, lines and columns from
zero; a span goes from a position of a source to another one, and its text is that of
the source in which it starts.
-/

namespace Abacus

structure Source where
  name : String
  text : String
deriving DecidableEq

structure Position where
  offset : Nat
  line : Nat
  column : Nat
deriving DecidableEq

namespace Position

def zero : Position :=
  ⟨0, 0, 0⟩

/-- The position after a character: a newline starts a line. -/
def advance (p : Position) (c : Char) : Position :=
  if c = '\n' then ⟨p.offset + 1, p.line + 1, 0⟩
  else ⟨p.offset + 1, p.line, p.column + 1⟩

def advanceAll (p : Position) (cs : List Char) : Position :=
  cs.foldl advance p

@[simp] theorem advanceAll_nil (p : Position) : p.advanceAll [] = p :=
  rfl

@[simp] theorem advanceAll_cons (p : Position) (c : Char) (cs : List Char) :
    p.advanceAll (c :: cs) = (p.advance c).advanceAll cs :=
  rfl

theorem advanceAll_append (p : Position) (as bs : List Char) :
    p.advanceAll (as ++ bs) = (p.advanceAll as).advanceAll bs :=
  List.foldl_append

@[simp] theorem advance_offset (p : Position) (c : Char) :
    (p.advance c).offset = p.offset + 1 := by
  unfold advance
  split <;> rfl

@[simp] theorem advanceAll_offset (p : Position) (cs : List Char) :
    (p.advanceAll cs).offset = p.offset + cs.length := by
  induction cs generalizing p with
  | nil =>
      rfl
  | cons c cs ih =>
      simp [ih]
      omega

end Position

namespace Source

/-- The position after the first `n` characters, or after all if there are fewer. -/
def positionAt (s : Source) (n : Nat) : Position :=
  Position.zero.advanceAll (s.text.toList.take n)

end Source

structure Location where
  source : Source
  position : Position
deriving DecidableEq

/-- Two positions, each in a source of its own. -/
structure Span where
  source : Source
  start : Position
  stop : Position
  stopSource : Source
deriving DecidableEq

namespace Span

def within (source : Source) (start stop : Position) : Span :=
  ⟨source, start, stop, source⟩

def point (source : Source) (p : Position) : Span :=
  within source p p

/-- From the start of one span to the stop of another. -/
def through (first last : Span) : Span :=
  { first with stop := last.stop, stopSource := last.stopSource }

/-- The characters that a span covers; none if it stops before it starts. -/
def text (s : Span) : String :=
  String.ofList ((s.source.text.toList.drop s.start.offset).take (s.stop.offset - s.start.offset))

def location (s : Span) : Location :=
  ⟨s.source, s.start⟩

@[simp] theorem within_source (s : Source) (p q : Position) : (within s p q).source = s :=
  rfl

@[simp] theorem within_start (s : Source) (p q : Position) : (within s p q).start = p :=
  rfl

@[simp] theorem within_stop (s : Source) (p q : Position) : (within s p q).stop = q :=
  rfl

@[simp] theorem through_source (first last : Span) : (first.through last).source = first.source :=
  rfl

@[simp] theorem through_start (first last : Span) : (first.through last).start = first.start :=
  rfl

@[simp] theorem through_stop (first last : Span) : (first.through last).stop = last.stop :=
  rfl

@[simp] theorem through_stopSource (first last : Span) :
    (first.through last).stopSource = last.stopSource :=
  rfl

end Span

end Abacus
