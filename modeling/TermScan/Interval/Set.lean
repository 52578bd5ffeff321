import TermScan.Interval.Tree

/-!
# Sets of intervals

A collection of intervals that only grows and answers whether one of them contains a query. A few
intervals are kept in a list; at `treeThreshold` intervals the list becomes a search tree, once
and for all.
-/
namespace TermScan

/-- A growing collection of intervals. -/
inductive IntervalSet
  | linear (items : List Interval)
  | tree (root : IntervalTree)
  deriving Repr

namespace IntervalSet

inductive Backing
  | linear
  | tree
  deriving DecidableEq, Repr

/-- The number of intervals from which on a tree holds them. -/
def treeThreshold : Nat := 10

def Backing.choose (size : Nat) : Backing := if size < treeThreshold then linear else tree

def empty : IntervalSet := linear []

/-- The number of intervals, each counted as often as it was inserted. -/
def size : IntervalSet → Nat
  | linear items => items.length
  | tree root => root.size

def isEmpty (s : IntervalSet) : Bool := s.size == 0

def backing : IntervalSet → Backing
  | linear _ => .linear
  | tree _ => .tree

def insert (s : IntervalSet) (x : Interval) : IntervalSet :=
  match s with
  | linear items =>
    let items := items ++ [x]
    match Backing.choose items.length with
    | .linear => linear items
    | .tree => tree (items.foldl (fun t i => t.insert i) .leaf)
  | tree root => tree (root.insert x)

def insertAll (s : IntervalSet) (xs : List Interval) : IntervalSet := xs.foldl insert s

/-- The number of intervals that the insertion of one more moves into a tree, if it does. -/
def promotion? (s : IntervalSet) : Option Nat :=
  match s with
  | linear items =>
    match Backing.choose (items.length + 1) with
    | .linear => none
    | .tree => some (items.length + 1)
  | tree _ => none

def anyContains (s : IntervalSet) (query : Interval) : Bool :=
  match s with
  | linear items => items.any (·.contains query)
  | tree root => root.anyContains query

/-- The intervals: as inserted while they are few, then by lower bound. -/
def toList : IntervalSet → List Interval
  | linear items => items
  | tree root => root.toList

end IntervalSet

end TermScan
