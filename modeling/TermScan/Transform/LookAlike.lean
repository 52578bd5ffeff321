import TermScan.Transform.Substitution
import TermScan.Transform.Compatibility

/-!
# Look-alikes

Characters outside ASCII are folded onto the ASCII letter or digit they stand for: homoglyphs by
a small table, all others by the first character of their compatibility decomposition.
-/
namespace TermScan

/-- Cyrillic, Greek and phonetic letters that look like a Latin one but do not decompose to it. -/
def homoglyphs : Substitution := [
  ('a', ['\u0430', '\u03b1', '\u0251']),
  ('b', ['\u044c', '\u042c']),
  ('c', ['\u0441', '\u03f2']),
  ('d', ['\u0501']),
  ('e', ['\u0435', '\u03b5']),
  ('g', ['\u0261']),
  ('h', ['\u04bb']),
  ('i', ['\u0456', '\u03b9', '\u0131']),
  ('j', ['\u0458']),
  ('k', ['\u03ba']),
  ('n', ['\u03b7']),
  ('o', ['\u043e', '\u03bf', '\u03c3']),
  ('p', ['\u0440', '\u03c1']),
  ('s', ['\u0455']),
  ('t', ['\u03c4']),
  ('u', ['\u03c5']),
  ('v', ['\u03bd']),
  ('x', ['\u0445', '\u03c7']),
  ('y', ['\u0443', '\u03b3'])
]

/-- Folds a look-alike, where `first?` gives the first character of a decomposition. -/
def foldLookAlike (first? : Char → Option Char) (c : Char) : Char :=
  if c.toNat < 128 then c
  else
    match homoglyphs.target? c with
    | some target => target
    | none =>
      match first? c with
      | some d => if d.isAlphanum then d else c
      | none => c

end TermScan
