import TermScan.Pattern.Basic

/-!
# Optional-free expansions

A pattern with `k` optionals stands for `2 ^ k` lists of atoms, one for each choice of the
optionals that are present. The choices are numbered: the `j`-th optional from the left is present
in the expansions whose number has bit `j` set. Literals that become neighbours are joined, and
empty ones vanish, so an expansion never holds either.
-/
namespace TermScan

/-- A list of atoms, all of which must occur, one right after the other. -/
abbrev Expansion := List Atom

def Expansion.width : Expansion → Nat
  | [] => 0
  | atom :: rest => atom.width + width rest

/-- Puts an atom in front. An empty literal adds nothing, and a literal joins the one it meets. -/
def Expansion.push (atom : Atom) (e : Expansion) : Expansion :=
  match atom, e with
  | .literal [], _ => e
  | .literal (c :: cs), .literal ds :: rest => .literal (c :: cs ++ ds) :: rest
  | _, _ => atom :: e

/-- The expansions of a list of nodes, in the order of their numbers. -/
def expand : List Node → List Expansion
  | [] => [[]]
  | .one atom :: rest => (expand rest).map (Expansion.push atom)
  | .optional atom :: rest => (expand rest).flatMap fun e => [e, e.push atom]

end TermScan
