import TermScan.Trie.Links

/-!
# Linking in one pass

The pass takes nodes from a queue, the children of the root first. It links the children of a node
that it takes, by falling back from the failure link of the node, and puts them into the queue. The
edges of a node are read in any order, the one of a listing. There is no result if a link that is
asked for is not there, or if a loop meets more nodes than there are: it would meet one again and
never end.
-/
namespace TermScan

namespace Trie

/-- Where `c` leads from `x`, or from the first node on its failure chain with an edge for it; the
root if there is none. The loop meets at most `nodes` nodes. -/
def followWithin (t : Trie) (failure : Array Nat) (c : Char) : Nat → Nat → Option Nat
  | 0, _ => none
  | nodes + 1, x =>
    match t.child? x c with
    | some y => some y
    | none =>
      if x = root then some root
      else
        match failure[x]? with
        | some f => t.followWithin failure c nodes f
        | none => none

/-- The node reached from `x` when `c` is read. -/
def transition? (t : Trie) (failure : Array Nat) (x : Nat) (c : Char) : Option Nat :=
  t.followWithin failure c t.size x

/-- The pass between two nodes. -/
structure LinkPass where
  /-- The node of the longest proper suffix, for every node. -/
  failure : Array Nat
  /-- The nearest accepting node on the failure chain, for every node. -/
  output : Array (Option Nat)
  /-- The nodes taken so far. -/
  order : List Nat
  queue : List Nat

namespace LinkPass

/-- Only the children of the root wait, and every link is that of the root. -/
def start (t : Trie) (listing : Nat → List (Char × Nat)) : LinkPass where
  failure := .replicate t.size root
  output := .replicate t.size none
  order := []
  queue := (listing root).map Prod.snd

/-- Links a child of `x` and puts it into the queue. -/
def link (t : Trie) (accept : Nat → Bool) (x : Nat) (p : LinkPass) (e : Char × Nat) :
    Option LinkPass := do
  let f ← t.transition? p.failure (← p.failure[x]?) e.1
  let nearest ← p.output[f]?
  return { p with
    failure := p.failure.setIfInBounds e.2 f
    output := p.output.setIfInBounds e.2 (if accept f then some f else nearest)
    queue := p.queue ++ [e.2] }

/-- Takes the node that is first in the queue; `queue` are the others. -/
def take (t : Trie) (listing : Nat → List (Char × Nat)) (accept : Nat → Bool) (p : LinkPass)
    (x : Nat) (queue : List Nat) : Option LinkPass :=
  (listing x).foldlM (link t accept x) { p with order := p.order ++ [x], queue }

/-- Takes nodes until none is left in the queue, at most `nodes` of them. -/
def run (t : Trie) (listing : Nat → List (Char × Nat)) (accept : Nat → Bool) (p : LinkPass) :
    Nat → Option LinkPass
  | 0 => if p.queue.isEmpty then some p else none
  | nodes + 1 =>
    match p.queue with
    | [] => some p
    | x :: queue =>
      match p.take t listing accept x queue with
      | some p => p.run t listing accept nodes
      | none => none

end LinkPass

/-- All links of the trie, with its nodes in the order in which they were taken. -/
def buildLinks (t : Trie) (listing : Nat → List (Char × Nat)) (accept : Nat → Bool) :
    Option LinkPass :=
  (LinkPass.start t listing).run t listing accept t.size

end Trie

end TermScan
