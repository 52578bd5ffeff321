import TermScan.Text

/-!
# Matches

A match names the term that was found and the bytes of the searched text where it was found.
-/
namespace TermScan

/-- An occurrence of a term. -/
structure Match where
  termId : Int
  /-- The number of characters matched, counted after transformation. -/
  length : Nat
  /-- Offset of the first byte of the occurrence. -/
  first : Nat
  /-- Offset of the last byte of the occurrence. -/
  last : Nat
  deriving DecidableEq, Repr

namespace Match

def text? (m : Match) (input : List Char) : Option (List Char) := slice? input m.first m.last

/-- By first byte, then by last byte, then by term. The length has no say. -/
def comparePositions (a b : Match) : Ordering :=
  ((compare a.first b.first).then (compare a.last b.last)).then (compare a.termId b.termId)

/-- Matches by position; those at the same position stay in order. -/
def sort (ms : List Match) : List Match := ms.mergeSort fun a b => (comparePositions a b).isLE

end Match

end TermScan
