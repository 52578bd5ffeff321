import TermScan.Pattern.Basic

/-!
# Patterns as regular expressions

The regular expression that matches what a pattern matches: a wildcard is a dot that also matches
line breaks, an optional a greedy group, and a boundary a look at the neighbouring character.
-/
namespace TermScan

/-- The characters with a meaning of their own in a regular expression. -/
def isRegexSpecial (c : Char) : Bool :=
  "\\.+*?()|[]\x7b\x7d^$#&-~".toList.contains c

/-- A literal run with each special character behind one backslash. -/
def escapeRegex (chars : List Char) : List Char :=
  chars.flatMap fun c => if isRegexSpecial c then ['\\', c] else [c]

def Atom.regexSource : Atom → List Char
  | literal chars => escapeRegex chars
  | wildcard => ['.']

def Node.regexSource : Node → List Char
  | one atom => atom.regexSource
  | optional atom => "(?:".toList ++ atom.regexSource ++ ")?".toList

/-- A pattern as a regular expression. -/
def Pattern.regexSource (p : Pattern) : String :=
  String.ofList <|
    "(?s)".toList
      ++ (if p.startBoundary then "(?<![A-Za-z0-9])".toList else [])
      ++ p.nodes.flatMap Node.regexSource
      ++ (if p.endBoundary then "(?![A-Za-z0-9])".toList else [])

end TermScan
