/-!
# Substitutions

A table of replacements for characters, and the table that undoes digits and signs written in
place of letters.
-/
namespace TermScan

/-- Each entry names a target and the characters it replaces. Of two entries that name the same
character the later one counts. -/
abbrev Substitution := List (Char × List Char)

namespace Substitution

def target? (s : Substitution) (c : Char) : Option Char :=
  s.foldl (fun found entry => if entry.2.contains c then some entry.1 else found) none

def apply (s : Substitution) (c : Char) : Char := (s.target? c).getD c

end Substitution

/-- The usual substitutes for letters. -/
def leetSpeak : Substitution := [
  ('a', ['@', '4']),
  ('c', ['(']),
  ('e', ['3']),
  ('g', ['6']),
  ('i', ['1', '|', '!']),
  ('o', ['0']),
  ('s', ['$', '5']),
  ('t', ['7']),
  ('z', ['2'])
]

end TermScan
