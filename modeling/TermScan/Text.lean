/-!
# Texts and their byte positions

A text is a list of characters; positions in it are byte offsets of its UTF-8 form. `sites` puts
every character in its place: the bytes it fills and the characters next to it. A word boundary
lies wherever one neighbour is missing or is no word character.
-/
namespace TermScan

/-- Characters are hashed in the same way whatever else is imported. -/
instance hashableChar : Hashable Char := instHashableChar

/-- Word characters are the ASCII letters and digits. -/
def isWordChar (c : Char) : Bool := c.isAlphanum

/-- An inclusive range of bytes. -/
structure Span where
  /-- Offset of the first byte. -/
  first : Nat
  /-- Offset of the last byte. -/
  last : Nat
  deriving DecidableEq, Repr

/-- The bytes of a character that starts at `offset`. -/
def Span.ofChar (offset : Nat) (c : Char) : Span := ⟨offset, offset + c.utf8Size - 1⟩

/-- A character of a text in its place. -/
structure Site where
  char : Char
  span : Span
  /-- The character right before it, if any. -/
  before : Option Char
  /-- The character right after it, if any. -/
  after : Option Char
  deriving DecidableEq, Repr

namespace Site

/-- No word character stands right before this site. -/
def opensBoundary (s : Site) : Bool := !s.before.any isWordChar

/-- No word character stands right after this site. -/
def closesBoundary (s : Site) : Bool := !s.after.any isWordChar

end Site

/-- The sites of a text that starts at byte `offset`, right after the character `before`. -/
def sitesFrom (offset : Nat) (before : Option Char) : List Char → List Site
  | [] => []
  | c :: rest =>
    ⟨c, Span.ofChar offset c, before, rest.head?⟩ ::
      sitesFrom (offset + c.utf8Size) (some c) rest

def sites (text : List Char) : List Site := sitesFrom 0 none text

@[simp] theorem length_sitesFrom (offset : Nat) (before : Option Char) (text : List Char) :
    (sitesFrom offset before text).length = text.length := by
  induction text generalizing offset before with
  | nil => rfl
  | cons c rest ih => simp [sitesFrom, ih]

@[simp] theorem map_char_sitesFrom (offset : Nat) (before : Option Char) (text : List Char) :
    (sitesFrom offset before text).map Site.char = text := by
  induction text generalizing offset before with
  | nil => rfl
  | cons c rest ih => simp [sitesFrom, ih]

/-- The number of bytes a text fills. -/
def byteLength : List Char → Nat
  | [] => 0
  | c :: rest => c.utf8Size + byteLength rest

/-- The text that remains behind its first `n` bytes; none unless `n` is on a character border. -/
def dropBytes? : Nat → List Char → Option (List Char)
  | 0, text => some text
  | _ + 1, [] => none
  | n + 1, c :: rest => if c.utf8Size ≤ n + 1 then dropBytes? (n + 1 - c.utf8Size) rest else none

/-- The first `n` bytes of a text; none unless `n` is on a character border. -/
def takeBytes? : Nat → List Char → Option (List Char)
  | 0, _ => some []
  | _ + 1, [] => none
  | n + 1, c :: rest =>
    if c.utf8Size ≤ n + 1 then (takeBytes? (n + 1 - c.utf8Size) rest).map (c :: ·) else none

/-- The characters that fill the bytes `first..last`. None when an end is out of range or inside
a character, or when the range is inverted; `first = last + 1` is the empty slice. -/
def slice? (text : List Char) (first last : Nat) : Option (List Char) :=
  if first ≤ last + 1 then (dropBytes? first text).bind (takeBytes? (last + 1 - first)) else none

end TermScan
