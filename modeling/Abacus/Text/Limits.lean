/-!
# Limits

Counts are machine words, a text has at most as many bytes as a signed word can count, and
a slice lies inside of its text.  Where one of these limits is in the way there is no
result.
-/

namespace Abacus

namespace Text

inductive Breach where
  | bounds
  | capacity
  | count
deriving DecidableEq

def largestCount : Nat :=
  18446744073709551615

/-- The most bytes that a text can have. -/
def capacity : Nat :=
  9223372036854775807

def next (n : Nat) : Except Breach Nat :=
  if n < largestCount then .ok (n + 1) else .error .count

def fitted (text : String) : Except Breach String :=
  if text.utf8ByteSize <= capacity then .ok text else .error .capacity

def append (text more : String) : Except Breach String :=
  fitted (text ++ more)

def copies (n : Nat) (c : Char) : Except Breach String :=
  if n * c.utf8Size <= capacity then .ok (String.ofList (List.replicate n c))
  else .error .capacity

def slice (cs : List Char) (first last : Nat) : Except Breach (List Char) :=
  if first <= last ∧ last <= cs.length then .ok ((cs.drop first).take (last - first))
  else .error .bounds

end Text

end Abacus
