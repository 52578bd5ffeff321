import TermScan.Interval.Set
import TermScan.Options
import TermScan.Ring
import TermScan.Trie.Links

/-!
# Whitelisted phrases

Finds every occurrence of every whitelisted phrase in one pass, overlapping and nested ones
included, and gives the bytes they fill as a set of intervals.
-/
namespace TermScan

/-- An automaton that stops at the whitelisted phrases. -/
structure Whitelist where
  linked : LinkedTrie
  /-- The nodes at which a phrase ends. -/
  ends : Array Bool
  /-- Links to the nearest proper suffix at which a phrase ends. -/
  endLinks : Array (Option Nat)
  pipeline : Pipeline
  /-- The length of the longest phrase. -/
  longest : Nat

namespace Whitelist

/-- The phrases as they will be met in a transformed text. -/
def words (phrases : List String) (pipeline : Pipeline) : List (List Char) :=
  phrases.map fun phrase => pipeline.chars phrase.toList

/-- The automaton of phrases of which none is empty once transformed. -/
def ofWords (words : List (List Char)) (pipeline : Pipeline) : Whitelist :=
  let linked := LinkedTrie.ofTrie (.ofWords words)
  let ends := words.foldl
    (fun marks w => marks.setIfInBounds ((linked.trie.find? w).getD Trie.root) true)
    (Array.replicate linked.trie.size false)
  { linked, ends, pipeline
    endLinks := linked.outputLinks fun x => ends[x]?.getD false
    longest := words.foldl (fun n w => max n w.length) 0 }

/-- The automaton of whitelisted phrases; fails at the first that is empty once transformed. -/
def build (phrases : List String) (pipeline : Pipeline) : Except Error Whitelist :=
  let words := words phrases pipeline
  match words.findIdx? List.isEmpty with
  | some index => .error (.emptyWhitelistTerm index)
  | none => .ok (ofWords words pipeline)

def isEmpty (w : Whitelist) : Bool := w.longest == 0

/-- The nodes at which phrases end that end here, the longest phrase first. -/
def endsAt (w : Whitelist) (x : Nat) : List Nat :=
  let suffixes := w.linked.chain w.endLinks x
  if w.ends[x]?.getD false then x :: suffixes else suffixes

/-- A scan in progress. -/
structure State where
  node : Nat
  recent : Ring Site
  found : IntervalSet

def start (w : Whitelist) : State := ⟨Trie.root, .empty w.longest, .empty⟩

/-- Reads one transformed character. -/
def step (w : Whitelist) (s : State) (m : Mapped) : State :=
  let recent := s.recent.push m.site
  let node := w.linked.step s.node m.char
  let spans := (w.endsAt node).filterMap fun x =>
    (recent.get? (w.linked.trie.depth x - 1)).map fun site =>
      Interval.mk site.span.first m.site.span.last
  ⟨node, recent, s.found.insertAll spans⟩

/-- The bytes of every occurrence of every phrase. -/
def scan (w : Whitelist) (text : List Char) : IntervalSet :=
  if w.isEmpty then .empty else ((w.pipeline.apply text).foldl w.step w.start).found

end Whitelist

end TermScan
