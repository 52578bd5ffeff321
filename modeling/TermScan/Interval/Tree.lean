import TermScan.Interval.Basic

/-!
# Balanced interval trees

A search tree on lower bounds in which each node also records the height of its subtree and the
largest upper bound in it. Heights of siblings differ by at most one, and the recorded bounds let
a containment query follow a single path.
-/
namespace TermScan

/-- A binary tree of intervals, annotated with heights and largest upper bounds. -/
inductive IntervalTree
  | leaf
  | node (left : IntervalTree) (root : Interval) (right : IntervalTree) (height maxUpper : Nat)
  deriving DecidableEq, Repr

namespace IntervalTree

def height : IntervalTree → Nat
  | leaf => 0
  | node _ _ _ h _ => h

/-- The recorded largest upper bound; 0 for no interval at all. -/
def maxUpper : IntervalTree → Nat
  | leaf => 0
  | node _ _ _ _ m => m

/-- The node of a root and two subtrees, annotated. -/
def join (left : IntervalTree) (root : Interval) (right : IntervalTree) : IntervalTree :=
  node left root right (max left.height right.height + 1)
    (max root.upper (max left.maxUpper right.maxUpper))

/-- Lifts the left child above the root. -/
def rotateRight : IntervalTree → IntervalTree
  | node (node a x b _ _) y c _ _ => join a x (join b y c)
  | t => t

/-- Lifts the right child above the root. -/
def rotateLeft : IntervalTree → IntervalTree
  | node a x (node b y c _ _) _ _ => join (join a x b) y c
  | t => t

/-- The left subtree is the higher one. -/
def leansLeft : IntervalTree → Bool
  | leaf => false
  | node l _ r _ _ => r.height < l.height

/-- The right subtree is the higher one. -/
def leansRight : IntervalTree → Bool
  | leaf => false
  | node l _ r _ _ => l.height < r.height

/-- Joins two subtrees whose heights differ by at most two into a balanced tree. -/
def balance (left : IntervalTree) (root : Interval) (right : IntervalTree) : IntervalTree :=
  if right.height + 1 < left.height then
    rotateRight (join (if left.leansRight then left.rotateLeft else left) root right)
  else if left.height + 1 < right.height then
    rotateLeft (join left root (if right.leansLeft then right.rotateRight else right))
  else
    join left root right

/-- Adds an interval, behind those with the same lower bound. -/
def insert (x : Interval) : IntervalTree → IntervalTree
  | leaf => join leaf x leaf
  | node l y r _ _ =>
    if x.lower < y.lower then balance (l.insert x) y r else balance l y (r.insert x)

/-- Some interval in the tree ends at `upper` or later, as the annotation has it. -/
def reaches (upper : Nat) : IntervalTree → Bool
  | leaf => false
  | node _ _ _ _ m => upper ≤ m

/-- Some interval in the tree contains the query. Where the root starts early enough, so does all
of the left subtree, and its annotation decides; only the right subtree remains to be searched. -/
def anyContains (query : Interval) : IntervalTree → Bool
  | leaf => false
  | node l x r _ m =>
    if m < query.upper then false
    else if query.lower < x.lower then l.anyContains query
    else l.reaches query.upper || query.upper ≤ x.upper || r.anyContains query

/-- The intervals from left to right. -/
def toList : IntervalTree → List Interval
  | leaf => []
  | node l x r _ _ => l.toList ++ x :: r.toList

def size : IntervalTree → Nat
  | leaf => 0
  | node l _ r _ _ => l.size + r.size + 1

end IntervalTree

end TermScan
