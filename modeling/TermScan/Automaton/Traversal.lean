import TermScan.Automaton.Walk

/-!
# Traversals

A traversal follows the tail of a fork by two numbers: which atom it stands at, and how many
characters of that atom it has read. It is asked for one character after the other until it answers
that it is complete or that it is to be dropped.
-/
namespace TermScan

/-- What a traversal says to a character. -/
inductive Answer
  | proceed
  | discard
  | complete
  deriving DecidableEq, Repr

/-- Progress along the tail of a fork. -/
structure Traversal where
  /-- The number of the fork. -/
  fork : Nat
  /-- The index of an atom of the tail. -/
  atom : Nat
  /-- How many characters of the atom have been read. -/
  offset : Nat
  deriving DecidableEq, Repr

namespace Traversal

def start (fork : Nat) : Traversal := ⟨fork, 0, 0⟩

/-- Where the traversal stands when a character has been read; nowhere if it does not fit. -/
def forward? (atoms : Expansion) (c : Char) (t : Traversal) : Option Traversal :=
  match atoms[t.atom]? with
  | some .wildcard => some { t with atom := t.atom + 1 }
  | some (.literal chars) =>
    if chars[t.offset]? = some c then
      if t.offset + 1 = chars.length then some { t with atom := t.atom + 1, offset := 0 }
      else some { t with offset := t.offset + 1 }
    else none
  | none => none

def advance (atoms : Expansion) (c : Char) (t : Traversal) : Answer × Traversal :=
  match t.forward? atoms c with
  | none => (.discard, t)
  | some t => (if t.atom = atoms.length then .complete else .proceed, t)

/-- The answers to a text, up to the first that ends the traversal, and where it stands then. -/
def read (atoms : Expansion) : List Char → Traversal → List Answer × Traversal
  | [], t => ([], t)
  | c :: rest, t =>
    match t.advance atoms c with
    | (.proceed, t) =>
      let (answers, t) := read atoms rest t
      (.proceed :: answers, t)
    | (answer, t) => ([answer], t)

end Traversal

end TermScan
