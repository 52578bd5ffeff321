import TermScan.Pattern.Basic

/-!
# The source form of patterns

A special character of a literal is written behind a backslash, an optional between brackets, and
a boundary flag as a bar at its end.
-/
namespace TermScan

/-- A literal run with its special characters escaped. -/
def escapeLiteral : List Char → List Char
  | [] => []
  | c :: rest => if isSpecial c then '\\' :: c :: escapeLiteral rest else c :: escapeLiteral rest

def Atom.source : Atom → List Char
  | literal chars => escapeLiteral chars
  | wildcard => ['?']

def Node.source : Node → List Char
  | one atom => atom.source
  | optional atom => '[' :: atom.source ++ [']']

namespace Pattern

/-- The bar of a boundary flag. -/
def bar (flag : Bool) : List Char := if flag then ['|'] else []

def source (p : Pattern) : List Char :=
  bar p.startBoundary ++ p.nodes.flatMap Node.source ++ bar p.endBoundary

/-- A pattern as it is written. -/
def render (p : Pattern) : String := String.ofList p.source

end Pattern

end TermScan
