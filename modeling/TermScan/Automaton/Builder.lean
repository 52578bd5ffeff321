import TermScan.Automaton.Basic
import TermScan.Trie.Nearest

/-!
# Building the automaton variant by variant

Variants are added one after the other. Each is numbered, and so is each fork; a node carries the
numbers of the literal variants that end at it and of the forks that start at it. When all are added
the trie is linked.
-/
namespace TermScan

/-- What a builder keeps of a variant. -/
structure VariantRecord where
  termId : Int
  startBoundary : Bool
  endBoundary : Bool
  /-- The number of characters a match consumes. -/
  width : Nat
  deriving DecidableEq, Repr

def VariantRecord.ofVariant (v : Variant) : VariantRecord :=
  ⟨v.termId, v.startBoundary, v.endBoundary, v.width⟩

/-- What a builder keeps of a variant from its first wildcard on. -/
structure ForkRecord where
  /-- The number of the variant. -/
  variant : Nat
  /-- The length of the lead. -/
  leadLength : Nat
  startBoundary : Bool
  endBoundary : Bool
  /-- What follows the lead. -/
  tail : Expansion
  deriving DecidableEq, Repr

/-- The numbers that a node carries. -/
structure NodeRecord where
  /-- The literal variants that end at the node. -/
  ends : List Nat
  /-- The forks whose lead ends at the node. -/
  forks : List Nat
  deriving DecidableEq, Repr

namespace NodeRecord

def empty : NodeRecord := ⟨[], []⟩

def addEnd (node : NodeRecord) (number : Nat) : NodeRecord :=
  { node with ends := node.ends ++ [number] }

def addFork (node : NodeRecord) (number : Nat) : NodeRecord :=
  { node with forks := node.forks ++ [number] }

end NodeRecord

/-- The characters of the literals, wildcards left out. -/
def Expansion.literalChars : Expansion → List Char
  | [] => []
  | .literal chars :: rest => chars ++ literalChars rest
  | .wildcard :: rest => literalChars rest

/-- The automaton while variants are added. -/
structure Builder where
  trie : Trie
  /-- What each node carries. -/
  nodes : Array NodeRecord
  variants : Array VariantRecord
  forks : Array ForkRecord
  /-- The largest number of characters a match consumes. -/
  longest : Nat

namespace Builder

def empty : Builder := ⟨.empty, #[.empty], #[], #[], 0⟩

/-- Adds a string to the trie, and something to what its node carries. -/
def place (b : Builder) (word : List Char) (carry : NodeRecord → NodeRecord) : Builder :=
  let (trie, x) := b.trie.insert word
  let nodes := b.nodes ++ Array.replicate (trie.size - b.trie.size) .empty
  { b with trie, nodes := nodes.modify x carry }

/-- Numbers a variant. -/
def record (b : Builder) (v : Variant) : Builder :=
  { b with variants := b.variants.push (.ofVariant v), longest := max b.longest v.width }

def pushFork (b : Builder) (fork : ForkRecord) : Builder :=
  { b with forks := b.forks.push fork }

/-- Adds a variant: as a string of the trie if there is no wildcard in it, else as a fork. -/
def add (b : Builder) (v : Variant) : Builder :=
  match v.atoms.findIdx? (· == .wildcard) with
  | none => (b.record v).place (Expansion.literalChars v.atoms) (·.addEnd b.variants.size)
  | some first =>
    let lead := Expansion.literalChars (v.atoms.take first)
    let fork : ForkRecord :=
      ⟨b.variants.size, lead.length, v.startBoundary, v.endBoundary, v.atoms.drop first⟩
    ((b.record v).pushFork fork).place lead (·.addFork b.forks.size)

def ofVariants (variants : List Variant) : Builder := variants.foldl add empty

def ofTerms (terms : List Term) : Builder := ofVariants (terms.flatMap Variant.ofTerm)

/-- A literal variant ends at the node. -/
def accepts (b : Builder) (x : Nat) : Bool := b.nodes[x]?.any fun node => !node.ends.isEmpty

/-- A fork starts at the node. -/
def spawns (b : Builder) (x : Nat) : Bool := b.nodes[x]?.any fun node => !node.forks.isEmpty

end Builder

/-- The links of a trie whose nodes accept and spawn. -/
structure BuilderLinks where
  pass : Trie.LinkPass
  /-- The nearest proper suffix at which forks start, for every node. -/
  forkLinks : Array (Option Nat)

namespace Builder

/-- Links the trie; the edges of a node are read in the order of a listing. -/
def link (b : Builder) (listing : Nat → List (Char × Nat)) : Option BuilderLinks := do
  let pass ← b.trie.buildLinks listing b.accepts
  let forkLinks ← b.trie.nearestLinks? pass b.spawns
  return ⟨pass, forkLinks⟩

/-- The nodes whose literal variants end where the node is reached. -/
def endingFrom (b : Builder) (links : BuilderLinks) (x : Nat) : Option (List Nat) :=
  b.trie.acceptingSuffixes b.accepts links.pass.output x

/-- The nodes that are asked for forks where a node is reached: itself first. -/
def spawningFrom (b : Builder) (links : BuilderLinks) (x : Nat) : Option (List Nat) :=
  Trie.meetWithin links.forkLinks b.trie.size (some x)

end Builder

end TermScan
