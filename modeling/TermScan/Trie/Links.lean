import TermScan.Trie.Basic

/-!
# Suffix links

The failure link of a node leads to the node of the longest proper suffix of its string that the
trie holds. Reading a text from the root, and falling back along failure links where no edge leads
on, always stands at the longest suffix of what has been read. Nearest links skip along failure
links to the next marked node, so the marked suffixes of a node form a chain. Output links do the
same for accepting nodes, but from the children of the root no link leads on.
-/
namespace TermScan

namespace Trie

/-- An edge of a trie. -/
structure Edge where
  source : Nat
  label : Char
  target : Nat

def edges (t : Trie) (x : Nat) : List Edge := (t.children x).map fun e => ⟨x, e.1, e.2⟩

/-- The edges below the given nodes, level by level, for at most `levels` levels. -/
def edgesBelow (t : Trie) : Nat → List Nat → List Edge
  | 0, _ => []
  | levels + 1, nodes =>
    match nodes.flatMap t.edges with
    | [] => []
    | out => out ++ t.edgesBelow levels (out.map Edge.target)

/-- All edges, those nearer to the root first. No string has more characters than there are
nodes. -/
def breadthFirst (t : Trie) : List Edge := t.edgesBelow t.size [root]

/-- Where `c` leads from `x`, or from the first node on its failure chain with an edge for it; the
root if there is none. A chain gets shorter with each link, so `depth` links are enough. -/
def follow (t : Trie) (failure : Array Nat) (c : Char) : Nat → Nat → Nat
  | depth, x =>
    match t.child? x c with
    | some y => y
    | none =>
      match depth with
      | 0 => root
      | depth + 1 => t.follow failure c depth (failure[x]?.getD root)

/-- The failure link of every node. The link of a node depends on nodes nearer to the root. -/
def failureLinks (t : Trie) : Array Nat :=
  t.breadthFirst.foldl
    (fun failure e =>
      let link :=
        if e.source = root then root
        else
          let x := failure[e.source]?.getD root
          t.follow failure e.label (t.depth x) x
      failure.setIfInBounds e.target link)
    (Array.replicate t.size root)

end Trie

/-- A trie with its failure links. -/
structure LinkedTrie where
  trie : Trie
  failure : Array Nat

namespace LinkedTrie

def ofTrie (t : Trie) : LinkedTrie := ⟨t, t.failureLinks⟩

def failureLink (l : LinkedTrie) (x : Nat) : Nat := l.failure[x]?.getD Trie.root

/-- The node reached from `x` when `c` is read. -/
def step (l : LinkedTrie) (x : Nat) (c : Char) : Nat :=
  l.trie.follow l.failure c (l.trie.depth x) x

/-- For every node the first marked node on its failure chain, itself excluded. -/
def nearestLinks (l : LinkedTrie) (marked : Nat → Bool) : Array (Option Nat) :=
  l.trie.breadthFirst.foldl
    (fun links e =>
      let f := l.failureLink e.target
      links.setIfInBounds e.target (if marked f then some f else links[f]?.join))
    (Array.replicate l.trie.size none)

/-- For every node the first accepting node on its failure chain, itself excluded. The children of
the root are not linked. -/
def outputLinks (l : LinkedTrie) (accept : Nat → Bool) : Array (Option Nat) :=
  l.trie.breadthFirst.foldl
    (fun links e =>
      let f := l.failureLink e.target
      let link :=
        if e.source = Trie.root then none
        else if accept f then some f
        else links[f]?.join
      links.setIfInBounds e.target link)
    (Array.replicate l.trie.size none)

/-- The nodes met from `x` along links, at most `fuel` of them. -/
def chainFrom (links : Array (Option Nat)) : Nat → Nat → List Nat
  | 0, _ => []
  | fuel + 1, x =>
    match links[x]?.join with
    | none => []
    | some y => y :: chainFrom links fuel y

/-- The nodes met from `x` along links. Each stands for a shorter string than the one before. -/
def chain (l : LinkedTrie) (links : Array (Option Nat)) (x : Nat) : List Nat :=
  chainFrom links (l.trie.depth x) x

end LinkedTrie

end TermScan
