import TermScan.Trie.Build

/-!
# Chains in one pass

Some nodes are marked. Once the failure links stand, the nodes are linked to the nearest marked node
on their failure chains, in the order in which they were taken: a node reads the link of the node
that it fails to. A walk follows such links until there is none. There is no result if a link is
asked for that is not there, or if a walk meets more nodes than there are.
-/
namespace TermScan

namespace Trie

/-- Links one node to the nearest marked node on its failure chain, itself excluded. -/
def linkNearest (failure : Array Nat) (marked : Nat → Bool) (links : Array (Option Nat)) (x : Nat) :
    Option (Array (Option Nat)) := do
  let f ← failure[x]?
  let nearest ← links[f]?
  return links.setIfInBounds x (if marked f then some f else nearest)

/-- The links to the nearest marked nodes, for the nodes in the given order; the root has none. -/
def nearestLinks? (t : Trie) (p : LinkPass) (marked : Nat → Bool) : Option (Array (Option Nat)) :=
  p.order.foldlM (linkNearest p.failure marked) (.replicate t.size none)

/-- The nodes met along links, at most `nodes` of them, from the first one on. -/
def meetWithin (links : Array (Option Nat)) : Nat → Option Nat → Option (List Nat)
  | _, none => some []
  | 0, some _ => none
  | nodes + 1, some x => do
    let next ← links[x]?
    return x :: (← meetWithin links nodes next)

/-- The node itself if it accepts, then the nodes on its output chain. -/
def acceptingSuffixes (t : Trie) (accept : Nat → Bool) (output : Array (Option Nat)) (x : Nat) :
    Option (List Nat) := do
  let rest ← meetWithin output t.size (← output[x]?)
  return if accept x then x :: rest else rest

end Trie

end TermScan
