/-!
# Collapsing repeated characters

A run of equal characters is cut after as many of them as the threshold of the character admits.
The state counts the run that is being read, dropped characters included. Counts stop at the largest
threshold there is, so this threshold is never exceeded.
-/
namespace TermScan

/-- How many equal characters in a row are kept. -/
structure Thresholds where
  /-- The threshold of a character without one of its own. -/
  standard : Nat
  /-- Thresholds of single characters; of two for the same character the later one counts. -/
  custom : List (Char × Nat)
  deriving DecidableEq, Repr

def Thresholds.limit (t : Thresholds) (c : Char) : Nat :=
  t.custom.foldl (fun n entry => if entry.1 = c then entry.2 else n) t.standard

/-- A collapse in progress. -/
structure Collapse where
  thresholds : Thresholds
  /-- The character read last. -/
  last : Option Char
  /-- How often it has been read in a row. -/
  count : Nat
  deriving DecidableEq, Repr

namespace Collapse

/-- Where counts stop, and the largest threshold. -/
def largestCount : Nat := 18446744073709551615

def start (thresholds : Thresholds) : Collapse := ⟨thresholds, none, 0⟩

def reset (s : Collapse) : Collapse := start s.thresholds

/-- Reads a character: it is kept while its run is no longer than its threshold. -/
def step (s : Collapse) (c : Char) : Option Char × Collapse :=
  let count := if s.last = some c then min (s.count + 1) largestCount else 1
  (if count ≤ s.thresholds.limit c then some c else none, ⟨s.thresholds, some c, count⟩)

/-- Reads characters in order and gives those that are kept, and the state reached. -/
def feed (s : Collapse) : List Char → List Char × Collapse
  | [] => ([], s)
  | c :: rest =>
    let (out, s) := s.step c
    let (kept, s) := s.feed rest
    (out.toList ++ kept, s)

/-! Sessions -/

/-- What a collapse can be asked. -/
inductive Call
  | transform (c : Char)
  | reset
  deriving DecidableEq, Repr

/-- What a collapse replies. -/
inductive Reply
  | char (c : Option Char)
  | done
  /-- The first reply of a copy. -/
  | cloned
  deriving DecidableEq, Repr

def call (s : Collapse) : Call → Reply × Collapse
  | .transform c =>
    let (out, s) := s.step c
    (.char out, s)
  | .reset => (.done, s.reset)

/-- What callers do with so many collapses. A copy carries the state that its original has at this
moment, and becomes the last of them. -/
inductive Session : Nat → Type
  | done {n : Nat} : Session n
  | ask {n : Nat} (k : Fin n) (call : Call) (rest : Session n) : Session n
  | clone {n : Nat} (k : Fin n) (rest : Session (n + 1)) : Session n

/-- The replies in a session, each of them with the collapse that gives it. -/
def Session.replies : {n : Nat} → Vector Collapse n → Session n → List (Nat × Reply)
  | _, _, .done => []
  | _, states, .ask k call rest =>
    let (reply, s) := (states.get k).call call
    (k.val, reply) :: rest.replies (states.set k s k.isLt)
  | n, states, .clone k rest => (n, .cloned) :: rest.replies (states.push (states.get k))

end Collapse

end TermScan
