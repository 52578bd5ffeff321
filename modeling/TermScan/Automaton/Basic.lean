import TermScan.Distinct
import TermScan.Match
import TermScan.Pattern.Expansion
import TermScan.Whitelist

/-!
# The automaton of all terms

Every expansion of every term is a variant. A variant without wildcards is a string of the trie.
Of the others the trie holds the lead, which is the literal run before the first wildcard; the
rest is a tail that forks off at the node of the lead and is followed on its own.
-/
namespace TermScan

namespace Expansion

/-- The literal run before the first wildcard. -/
def lead : Expansion → List Char
  | .literal chars :: rest => chars ++ lead rest
  | _ => []

/-- What follows from the first wildcard on. -/
def tail : Expansion → Expansion
  | [] => []
  | .wildcard :: rest => .wildcard :: rest
  | .literal _ :: rest => tail rest

end Expansion

/-- One expansion of a term, with what matches of it are reported and restricted by. -/
structure Variant where
  termId : Int
  startBoundary : Bool
  endBoundary : Bool
  atoms : Expansion
  deriving DecidableEq, Repr

namespace Variant

def width (v : Variant) : Nat := v.atoms.width

/-- The variant is a plain string. -/
def isLiteral (v : Variant) : Bool := v.atoms.tail.isEmpty

/-- The variants of a term. Different choices of optionals may come to the same atoms, which then
count once. -/
def ofTerm (t : Term) : List Variant :=
  (distinctBy id (expand t.pattern.nodes)).map fun atoms =>
    ⟨t.id, t.pattern.startBoundary, t.pattern.endBoundary, atoms⟩

end Variant

/-- The part of a variant that is followed on its own. -/
structure Fork where
  variant : Variant
  /-- The length of the lead. -/
  leadLength : Nat
  /-- What follows the lead; it starts with a wildcard. -/
  tail : Expansion
  deriving DecidableEq, Repr

/-- The fork of a variant with wildcards. -/
def Fork.ofVariant (v : Variant) : Fork := ⟨v, v.atoms.lead.length, v.atoms.tail⟩

/-- Spreads values over rows by their row numbers; within a row they stay in order. -/
def groupRows {α : Type} (rows : Nat) (entries : List (Nat × α)) : Array (List α) :=
  entries.foldr (fun e table => table.modify e.1 (e.2 :: ·)) (Array.replicate rows [])

/-- A matcher for all terms at once. -/
structure Automaton where
  linked : LinkedTrie
  variants : List Variant
  /-- The literal variants that end at each node. -/
  ends : Array (List Variant)
  /-- The forks whose lead ends at each node. -/
  forks : Array (List Fork)
  /-- Links to the nearest proper suffix at which literal variants end. -/
  endLinks : Array (Option Nat)
  /-- Links to the nearest proper suffix at which forks start. -/
  forkLinks : Array (Option Nat)
  whitelist : Whitelist
  pipeline : Pipeline
  /-- The largest number of characters a match consumes. -/
  longest : Nat
  /-- The largest number of walks under way at once. -/
  limit : Nat

namespace Automaton

def defaultLimit : Nat := 64

def ofVariants (variants : List Variant) (whitelist : Whitelist) (pipeline : Pipeline)
    (limit : Nat) : Automaton :=
  let linked := LinkedTrie.ofTrie (.ofWords (variants.map (·.atoms.lead)))
  let nodeOf (v : Variant) : Nat := (linked.trie.find? v.atoms.lead).getD Trie.root
  let ends := groupRows linked.trie.size
    ((variants.filter (·.isLiteral)).map fun v => (nodeOf v, v))
  let forks := groupRows linked.trie.size
    ((variants.filter (!·.isLiteral)).map fun v => (nodeOf v, Fork.ofVariant v))
  { linked, variants, ends, forks, whitelist, pipeline, limit
    endLinks := linked.outputLinks fun x => !(ends[x]?.getD []).isEmpty
    forkLinks := linked.nearestLinks fun x => !(forks[x]?.getD []).isEmpty
    longest := variants.foldl (fun n v => max n v.width) 0 }

/-- The automaton for some options; fails with the first fault among terms, then phrases. -/
def build (o : Options) : Except Error Automaton := do
  Term.validate o.terms
  let whitelist ← Whitelist.build o.whitelist o.whitelistPipeline
  return ofVariants (o.terms.flatMap Variant.ofTerm) whitelist o.blacklistPipeline
    (o.limit.getD defaultLimit)

def variantCount (a : Automaton) : Nat := a.variants.length

/-- The number of variants with wildcards. -/
def forkCount (a : Automaton) : Nat := a.variants.countP (!·.isLiteral)

def nodeCount (a : Automaton) : Nat := a.linked.trie.size

/-- The literal variants that end at a node or at a suffix of it, the longest first. -/
def endingAt (a : Automaton) (x : Nat) : List Variant :=
  (x :: a.linked.chain a.endLinks x).flatMap fun y => a.ends[y]?.getD []

/-- The forks whose lead ends at a node or at a suffix of it, the longest lead first. -/
def forkingAt (a : Automaton) (x : Nat) : List Fork :=
  (x :: a.linked.chain a.forkLinks x).flatMap fun y => a.forks[y]?.getD []

end Automaton

end TermScan
