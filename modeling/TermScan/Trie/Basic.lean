import TermScan.EdgeMap

/-!
# Tries

A trie holds strings that share their common beginnings. Its nodes are numbered in the order in
which they came to be, from the root, node 0; each stands for one beginning of an inserted string.
-/
namespace TermScan

/-- A node: where each character leads, and the length of the string it stands for. -/
structure TrieNode where
  edges : EdgeMap Nat
  depth : Nat

/-- A trie. -/
structure Trie where
  nodes : Array TrieNode

namespace Trie

/-- The node of the empty string. -/
def root : Nat := 0

/-- The trie of the empty string alone. -/
def empty : Trie := ⟨#[⟨.empty, 0⟩]⟩

def size (t : Trie) : Nat := t.nodes.size

/-- The length of the string a node stands for. -/
def depth (t : Trie) (x : Nat) : Nat :=
  match t.nodes[x]? with
  | some node => node.depth
  | none => 0

def child? (t : Trie) (x : Nat) (c : Char) : Option Nat :=
  match t.nodes[x]? with
  | some node => node.edges.get? c
  | none => none

/-- The characters that lead on from a node, and where to. -/
def children (t : Trie) (x : Nat) : List (Char × Nat) :=
  match t.nodes[x]? with
  | some node => node.edges.entries
  | none => []

/-- Adds a node below `x`. -/
def addChild (t : Trie) (x : Nat) (c : Char) : Trie :=
  let fresh := t.nodes.size
  let depth := t.depth x + 1
  ⟨(t.nodes.push ⟨.empty, depth⟩).modify x fun node =>
    { node with edges := node.edges.set c fresh }⟩

/-- Adds what is missing of a string below `x`, and gives the node of the whole. -/
def insertFrom (t : Trie) (x : Nat) : List Char → Trie × Nat
  | [] => (t, x)
  | c :: rest =>
    match t.child? x c with
    | some y => t.insertFrom y rest
    | none =>
      let fresh := t.nodes.size
      (t.addChild x c).insertFrom fresh rest

def insert (t : Trie) (word : List Char) : Trie × Nat := t.insertFrom root word

def ofWords (words : List (List Char)) : Trie := words.foldl (fun t w => (t.insert w).1) empty

/-- The node reached from `x` along a string. -/
def walk? (t : Trie) (x : Nat) : List Char → Option Nat
  | [] => some x
  | c :: rest =>
    match t.child? x c with
    | some y => t.walk? y rest
    | none => none

def find? (t : Trie) (word : List Char) : Option Nat := t.walk? root word

/-- Adds what is missing of a string below `x`, and gives the changes of backing among the edges
on the way. -/
def insertReporting (t : Trie) (x : Nat) : List Char → Trie × List EdgeMap.Move
  | [] => (t, [])
  | c :: rest =>
    match t.child? x c with
    | some y => t.insertReporting y rest
    | none =>
      let moved := (t.nodes[x]?.bind (·.edges.move? c)).toList
      let fresh := t.nodes.size
      let (t, later) := (t.addChild x c).insertReporting fresh rest
      (t, moved ++ later)

@[simp] theorem fst_insertReporting (t : Trie) (x : Nat) (word : List Char) :
    (t.insertReporting x word).1 = (t.insertFrom x word).1 := by
  induction word generalizing t x with
  | nil => rfl
  | cons c rest ih =>
    rw [insertReporting, insertFrom]
    split <;> simp [ih]

/-- The changes of backing among the edges while strings are added. -/
def moves (t : Trie) : List (List Char) → List EdgeMap.Move
  | [] => []
  | w :: rest =>
    let (t, moved) := t.insertReporting root w
    moved ++ t.moves rest

end Trie

end TermScan
