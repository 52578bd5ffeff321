import TermScan.Interval.Basic

/-!
# Interval trees in an arena

The nodes of a balanced search tree stand in one array, in the order in which their intervals came,
and know their children by index. An insertion adds a cell at the end and changes links and
annotations of others. An operation gives nothing where a link leads to no cell, nor where it would
have to follow more links than there can be without a circle.
-/
namespace TermScan

inductive Side
  | left
  | right
  deriving DecidableEq, Repr

def Side.other : Side → Side
  | left => right
  | right => left

/-- A node in an arena. -/
structure Cell where
  interval : Interval
  /-- The index of the left child. -/
  left : Option Nat
  /-- The index of the right child. -/
  right : Option Nat
  /-- The recorded height of the subtree. -/
  height : Nat
  /-- The recorded largest upper bound in the subtree. -/
  maxUpper : Nat
  deriving DecidableEq, Repr

namespace Cell

def single (x : Interval) : Cell := ⟨x, none, none, 1, x.upper⟩

def child (c : Cell) : Side → Option Nat
  | .left => c.left
  | .right => c.right

def setChild (c : Cell) (side : Side) (link : Option Nat) : Cell :=
  match side with
  | .left => { c with left := link }
  | .right => { c with right := link }

end Cell

/-- The nodes of a tree, and the index of its root. -/
structure IntervalArena where
  cells : Array Cell
  root : Option Nat
  deriving DecidableEq, Repr

namespace IntervalArena

/-- The height recorded at a link; 0 where there is no child. -/
def heightAt? (cells : Array Cell) : Option Nat → Option Nat
  | none => some 0
  | some id => cells[id]?.map Cell.height

/-- The largest upper bound recorded at a link; 0 where there is no child. -/
def maxUpperAt? (cells : Array Cell) : Option Nat → Option Nat
  | none => some 0
  | some id => cells[id]?.map Cell.maxUpper

/-- Records the annotations of a node anew, from those of its children. -/
def annotate? (cells : Array Cell) (id : Nat) : Option (Array Cell) := do
  let cell ← cells[id]?
  let height := max (← heightAt? cells cell.left) (← heightAt? cells cell.right) + 1
  let maxUpper := max cell.interval.upper
    (max (← maxUpperAt? cells cell.left) (← maxUpperAt? cells cell.right))
  return cells.modify id fun cell => { cell with height, maxUpper }

/-- The subtree on a side of a node is the higher one. -/
def leans? (cells : Array Cell) (id : Nat) (side : Side) : Option Bool := do
  let cell ← cells[id]?
  return (← heightAt? cells (cell.child side.other)) < (← heightAt? cells (cell.child side))

/-- Lifts the child on a side above the node, and gives the index of the upper one. -/
def lift? (cells : Array Cell) (id : Nat) (side : Side) : Option (Array Cell × Nat) := do
  match (← cells[id]?).child side with
  | none => return (cells, id)
  | some pivot =>
    let inner := (← cells[pivot]?).child side.other
    let cells := cells.modify id fun c => c.setChild side inner
    let cells := cells.modify pivot fun c => c.setChild side.other (some id)
    return (← annotate? (← annotate? cells id) pivot, pivot)

/-- Lifts the child on the higher side. A child that leans to the other side gives way to its own
child there first. -/
def liftHigher? (cells : Array Cell) (id : Nat) (side : Side) : Option (Array Cell × Nat) := do
  match (← cells[id]?).child side with
  | none => lift? cells id side
  | some child =>
    if ← leans? cells child side.other then
      let (cells, upper) ← lift? cells child side.other
      lift? (cells.modify id fun c => c.setChild side (some upper)) id side
    else lift? cells id side

/-- Balances a node whose subtrees differ in height by at most two. -/
def balance? (cells : Array Cell) (id : Nat) : Option (Array Cell × Nat) := do
  let cell ← cells[id]?
  let left ← heightAt? cells cell.left
  let right ← heightAt? cells cell.right
  if right + 1 < left then liftHigher? cells id .left
  else if left + 1 < right then liftHigher? cells id .right
  else return (cells, id)

/-- Puts the node `new` into the subtree at a link, behind those with the same lower bound, and
gives the root of this subtree. It goes down by so many links at most. -/
def insertAt? (cells : Array Cell) (new : Nat) : Nat → Option Nat → Option (Array Cell × Nat)
  | _, none => some (cells, new)
  | 0, some _ => none
  | depth + 1, some id => do
    let cell ← cells[id]?
    let added ← cells[new]?
    let side := if added.interval.lower < cell.interval.lower then Side.left else .right
    let (cells, child) ← insertAt? cells new depth (cell.child side)
    balance? (← annotate? (cells.modify id fun c => c.setChild side (some child)) id) id

def insert? (a : IntervalArena) (x : Interval) : Option IntervalArena := do
  let (cells, root) ← insertAt? (a.cells.push (.single x)) a.cells.size a.cells.size a.root
  return ⟨cells, some root⟩

def empty : IntervalArena := ⟨#[], none⟩

/-- Some interval in the subtree at a link ends at `upper` or later, as the annotation has it. -/
def reachesAt? (cells : Array Cell) (upper : Nat) : Option Nat → Option Bool
  | none => some false
  | some id => cells[id]?.map fun cell => upper ≤ cell.maxUpper

/-- Some interval in the subtree at a link contains the query. One path is followed, through so many
nodes at most. -/
def containsWithin? (cells : Array Cell) (query : Interval) : Nat → Option Nat → Option Bool
  | _, none => some false
  | 0, some _ => none
  | depth + 1, some id => do
    let cell ← cells[id]?
    if cell.maxUpper < query.upper then return false
    else if query.lower < cell.interval.lower then containsWithin? cells query depth cell.left
    else if ← reachesAt? cells query.upper cell.left then return true
    else if query.upper ≤ cell.interval.upper then return true
    else containsWithin? cells query depth cell.right

/-- Some interval contains the query. -/
def anyContains? (a : IntervalArena) (query : Interval) : Option Bool :=
  containsWithin? a.cells query a.cells.size a.root

/-- The arena that intervals make when they are added in order. -/
def ofList? (items : List Interval) : Option IntervalArena := items.foldlM insert? empty

def size (a : IntervalArena) : Nat := a.cells.size

/-- Walks through a subtree from left to right, and then through the right subtrees of the nodes on
a stack; `seen` holds the intervals met before. It takes so many steps at most. -/
def walk? (cells : Array Cell) :
    Nat → List Nat → Option Nat → Array Interval → Option (Array Interval)
  | _, [], none, seen => some seen
  | 0, _, _, _ => none
  | steps + 1, stack, some id, seen => do
    walk? cells steps (id :: stack) (← cells[id]?).left seen
  | steps + 1, id :: stack, none, seen => do
    let cell ← cells[id]?
    walk? cells steps stack cell.right (seen.push cell.interval)

/-- The intervals from left to right, if a walk of so many steps meets them all. -/
def listWithin? (a : IntervalArena) (steps : Nat) : Option (List Interval) :=
  (walk? a.cells steps [] a.root #[]).map Array.toList

/-- The intervals from left to right. Each node is put on the stack and taken from it. -/
def toList? (a : IntervalArena) : Option (List Interval) := a.listWithin? (2 * a.size)

end IntervalArena

end TermScan
