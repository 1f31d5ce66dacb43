import Abacus.Text.Limits
import Abacus.Text.Source

/-!
# Excerpts

An excerpt shows the lines that a span covers, each with carets below the columns
that are covered.  Tabs are left out, of the lines too.
-/

namespace Abacus

namespace Excerpt

open Text

def lineStart (cs : List Char) (offset : Nat) : Except Breach Nat :=
  (slice cs 0 (min offset cs.length)).map fun before =>
    ((before.reverse.findIdx? (· = '\n')).map (before.length - ·)).getD 0

def lineEnd (cs : List Char) (first : Nat) : Nat :=
  (((cs.drop first).findIdx? (· = '\n')).map (first + ·)).getD cs.length

/-- A line and below it the carets from one column to another, behind what is shown before. -/
def row (shown : String) (line : List Char) (start stop : Nat) : Except Breach String := do
  let shown <- append shown (String.ofList line)
  let shown <- append shown "\n"
  let spaces <- copies start ' '
  let shown <- append shown spaces
  let carets <- copies (stop - start) '^'
  append shown carets

/--
The rows of some lines, of which the first lies between two offsets.

Carets run from the column `start` of the first line to the column `stop` of the
last, and from the first column to the last but one in between.
-/
def rows (cs : List Char) (stop count start first last : Nat) (shown : String) :
    Except Breach String :=
  match count with
  | 0 => .ok shown
  | count + 1 => do
      let line <- slice cs (min first last) last
      let shown <- row shown line start (if count = 0 then stop else line.length - 1)
      let next := min (last + 1) cs.length
      rows cs stop count 0 next (lineEnd cs next) shown

end Excerpt

def Span.excerpt (s : Span) : Except Text.Breach String := do
  let cs := s.source.text.toList
  let first <- Excerpt.lineStart cs s.start.offset
  let count <- Text.next (s.stop.line - s.start.line)
  let shown <- Excerpt.rows cs s.stop.column count s.start.column first
    (Excerpt.lineEnd cs first) ""
  return String.ofList (shown.toList.filter (· ≠ '\t'))

end Abacus
