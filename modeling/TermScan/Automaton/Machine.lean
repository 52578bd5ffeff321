import TermScan.Automaton.Builder
import TermScan.Automaton.Scan
import TermScan.Automaton.Traversal

/-!
# Scanning with what was built

A machine scans with the numbers that a builder has given to variants and forks, along the links
that were set in one pass, and follows a fork by a traversal. It does the work of a scan table by
table; there is no result if something is asked for that is not there.
-/
namespace TermScan

/-- A builder at work. -/
structure Machine where
  builder : Builder
  links : BuilderLinks
  whitelist : Whitelist
  pipeline : Pipeline
  limit : Nat

namespace Machine

/-- A scan between two characters. -/
structure State where
  recent : Ring Site
  node : Nat
  /-- The traversals under way, the oldest first. -/
  traversals : List Traversal

def start (m : Machine) : State := ⟨.empty m.builder.longest, Trie.root, []⟩

/-- What nodes carry. -/
def carriedBy? (m : Machine) (nodes : List Nat) : Option (List NodeRecord) :=
  nodes.mapM fun x => m.builder.nodes[x]?

/-- The traversal of a fork that starts at a node, if it can start there. -/
def enter? (m : Machine) (recent : Ring Site) (number : Nat) : Option (Option Traversal) := do
  let fork ← m.builder.forks[number]?
  return if Automaton.canStart recent fork.startBoundary fork.leadLength then
    some (.start number) else none

/-- The traversals that start at a node and its suffixes. -/
def spawn? (m : Machine) (recent : Ring Site) (x : Nat) : Option (List Traversal) := do
  let nodes ← m.carriedBy? (← m.builder.spawningFrom m.links x)
  let entered ← (nodes.flatMap NodeRecord.forks).mapM (m.enter? recent)
  return entered.filterMap id

/-- Reads one character on every traversal: the numbers of the variants completed, and the
traversals that go on. -/
def advance? (m : Machine) (c : Char) : List Traversal → Option (List Nat × List Traversal)
  | [] => some ([], [])
  | t :: ts => do
    let fork ← m.builder.forks[t.fork]?
    let (completed, alive) ← m.advance? c ts
    match t.advance fork.tail c with
    | (.complete, _) => return (fork.variant :: completed, alive)
    | (.discard, _) => return (completed, alive)
    | (.proceed, t) => return (completed, t :: alive)

/-- The match of a variant, by its number. -/
def emit? (m : Machine) (whitelisted : IntervalSet) (recent : Ring Site) (last : Site)
    (number : Nat) : Option (Option Match) := do
  let v ← m.builder.variants[number]?
  return Automaton.matchOf? whitelisted recent last v.termId v.startBoundary v.endBoundary v.width

/-- Reads one transformed character on the traversals and on the trie, and gives the matches that
end at it, each once. -/
def read? (m : Machine) (whitelisted : IntervalSet) (recent : Ring Site)
    (traversals : List Traversal) (x : Nat) (k : Mapped) : Option (State × List Match) := do
  let (completed, alive) ← m.advance? k.char traversals
  let x ← m.builder.trie.transition? m.links.pass.failure x k.char
  let nodes ← m.carriedBy? (← m.builder.endingFrom m.links x)
  let found ← (completed ++ nodes.flatMap NodeRecord.ends).mapM (m.emit? whitelisted recent k.site)
  return (⟨recent, x, alive⟩, (found.filterMap id).eraseDups)

/-- The failure of a scan that exceeds the limit at a character. -/
def limitError (m : Machine) (input : String) (k : Mapped) : Error :=
  .walkLimit input k.site.span.first m.builder.variants.size m.limit

/-- The matches from a state on, and the failure that cuts them off, if one does. -/
def scanFrom? (m : Machine) (input : String) (whitelisted : IntervalSet) (s : State) :
    List Mapped → Option (List Match × Option Error)
  | [] => some ([], none)
  | k :: rest => do
    let recent := s.recent.push k.site
    let traversals := s.traversals ++ (← m.spawn? recent s.node)
    if m.limit < traversals.length then return ([], some (m.limitError input k))
    let (s, found) ← m.read? whitelisted recent traversals s.node k
    let (later, failure) ← m.scanFrom? input whitelisted s rest
    return (found ++ later, failure)

/-- The matches in a text, in the order of their last characters, and the failure that cuts them
off, if one does. -/
def scan? (m : Machine) (input : String) : Option (List Match × Option Error) :=
  m.scanFrom? input (m.whitelist.scan input.toList) m.start (m.pipeline.apply input.toList)

def ofVariants? (variants : List Variant) (whitelist : Whitelist) (pipeline : Pipeline)
    (limit : Nat) (listing : Nat → List (Char × Nat)) : Option Machine := do
  let builder := Builder.ofVariants variants
  let links ← builder.link listing
  return { builder, links, whitelist, pipeline, limit }

end Machine

end TermScan
