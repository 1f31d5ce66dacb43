/-!
# White space and lines
-/

namespace Abacus

namespace Text

/-- The characters with the property `White_Space`. -/
def whiteSpace : List (Nat × Nat) :=
  [(0x9, 0xd), (0x20, 0x20), (0x85, 0x85), (0xa0, 0xa0), (0x1680, 0x1680), (0x2000, 0x200a),
    (0x2028, 0x2029), (0x202f, 0x202f), (0x205f, 0x205f), (0x3000, 0x3000)]

def isWhiteSpace (c : Char) : Bool :=
  whiteSpace.any fun range => range.1 <= c.toNat && c.toNat <= range.2

def isBlank (cs : List Char) : Bool :=
  cs.all isWhiteSpace

def trim (cs : List Char) : List Char :=
  ((cs.dropWhile isWhiteSpace).reverse.dropWhile isWhiteSpace).reverse

/--
The lines of a text.

A newline ends a line, and so does a carriage return with a newline.  What follows
the last newline is a line if it is not empty.
-/
def lines : List Char -> List (List Char)
  | [] => []
  | '\r' :: '\n' :: cs => [] :: lines cs
  | '\n' :: cs => [] :: lines cs
  | c :: cs =>
      match lines cs with
      | [] => [[c]]
      | line :: rest => (c :: line) :: rest

end Text

end Abacus
