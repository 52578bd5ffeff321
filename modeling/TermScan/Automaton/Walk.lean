import TermScan.Automaton.Basic

/-!
# Walks

A walk follows the tail of a variant character by character, from the moment its lead has been
read. What is left to read is itself a list of atoms: non-empty as long as the walk is under way,
and with a non-empty literal wherever it starts with one.
-/
namespace TermScan

/-- What a character does to a walk. -/
inductive Advance
  | complete
  | discard
  /-- The walk goes on with what is left to read. -/
  | proceed (rest : Expansion)
  deriving DecidableEq, Repr

/-- Nothing left to read is a match. -/
def Advance.ofRest : Expansion → Advance
  | [] => complete
  | rest => proceed rest

/-- Reads one character against what is left to read. -/
def Expansion.advance (c : Char) : Expansion → Advance
  | .wildcard :: rest => .ofRest rest
  | .literal (d :: ds) :: rest =>
    if c = d then .ofRest (if ds.isEmpty then rest else .literal ds :: rest) else .discard
  | _ => .discard

/-- A variant whose lead has been read, and what is left of it. -/
structure Walk where
  variant : Variant
  rest : Expansion
  deriving DecidableEq, Repr

/-- A walk along a fork that has read nothing of it. -/
def Walk.ofFork (f : Fork) : Walk := ⟨f.variant, f.tail⟩

/-- Reads one character on every walk: the variants completed, and the walks that go on. -/
def advanceWalks (c : Char) : List Walk → List Variant × List Walk
  | [] => ([], [])
  | w :: ws =>
    let (completed, alive) := advanceWalks c ws
    match w.rest.advance c with
    | .complete => (w.variant :: completed, alive)
    | .discard => (completed, alive)
    | .proceed rest => (completed, { w with rest } :: alive)

end TermScan
