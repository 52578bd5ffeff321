import TermScan.Text

/-!
# Patterns

A pattern is a list of nodes between two flags. An atom is a run of literal characters or a
wildcard for one arbitrary character; a node is an atom that must occur or one that may. A flag
asks for a word boundary at its end of the match.
-/
namespace TermScan

/-- What consumes characters: a literal run, or one arbitrary character. -/
inductive Atom
  | literal (chars : List Char)
  | wildcard
  deriving DecidableEq, Repr, Hashable

/-- The number of characters an atom consumes. -/
def Atom.width : Atom → Nat
  | literal chars => chars.length
  | wildcard => 1

/-- An atom that must occur, or one that may be left out. Optionals do not nest. -/
inductive Node
  | one (atom : Atom)
  | optional (atom : Atom)
  deriving DecidableEq, Repr

def Node.isOptional : Node → Bool
  | one _ => false
  | optional _ => true

/-- A run of nodes, with the word boundaries it asks for. -/
structure Pattern where
  startBoundary : Bool
  endBoundary : Bool
  nodes : List Node
  deriving DecidableEq, Repr

namespace Pattern

/-- Nothing in the pattern has to occur. -/
def canBeEmpty (p : Pattern) : Bool := p.nodes.all Node.isOptional

def optionalCount (p : Pattern) : Nat := p.nodes.countP Node.isOptional

end Pattern

/-- The characters with a meaning of their own in pattern source. -/
def isSpecial (c : Char) : Bool :=
  match c with
  | '\\' | '[' | ']' | '?' | '|' => true
  | _ => false

end TermScan
