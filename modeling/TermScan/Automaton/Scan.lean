import TermScan.Automaton.Walk

/-!
# Scanning a text

One pass over the transformed text. Each character first starts walks for the leads that end right
before it, then moves all walks on, then the automaton itself; what is completed at it is reported
unless a boundary is missing or a whitelisted phrase contains it.
-/
namespace TermScan

namespace Automaton

/-- A scan between two characters. -/
structure State where
  /-- The places of the characters read last. -/
  recent : Ring Site
  /-- The node of the longest suffix read. -/
  node : Nat
  /-- The walks under way, the oldest first. -/
  walks : List Walk

def start (a : Automaton) : State := ⟨.empty a.longest, Trie.root, []⟩

/-- A fork is followed if its variant can start where its lead does. `recent` already holds the
character after the lead. -/
def canStart (recent : Ring Site) (startBoundary : Bool) (leadLength : Nat) : Bool :=
  !startBoundary || (recent.get? leadLength).any Site.opensBoundary

def admits (recent : Ring Site) (f : Fork) : Bool :=
  canStart recent f.variant.startBoundary f.leadLength

/-- The place of the first of `width` characters up to the latest. Where nothing was matched there
is none. -/
def firstOf? (recent : Ring Site) : (width : Nat) → Option Site
  | 0 => none
  | width + 1 => recent.get? width

theorem firstOf?_eq {recent : Ring Site} {width : Nat} (h : 0 < width) :
    firstOf? recent width = recent.get? (width - 1) := by
  cases width with
  | zero => contradiction
  | succ width => rfl

/-- The match of `width` characters that ends at `last`, unless something rules it out. -/
def matchOf? (whitelisted : IntervalSet) (recent : Ring Site) (last : Site) (id : Int)
    (startBoundary endBoundary : Bool) (width : Nat) : Option Match :=
  match firstOf? recent width with
  | none => none
  | some first =>
    if startBoundary && !first.opensBoundary then none
    else if endBoundary && !last.closesBoundary then none
    else if whitelisted.anyContains ⟨first.span.first, last.span.last⟩ then none
    else some ⟨id, width, first.span.first, last.span.last⟩

def match? (whitelisted : IntervalSet) (recent : Ring Site) (last : Site) (v : Variant) :
    Option Match :=
  matchOf? whitelisted recent last v.termId v.startBoundary v.endBoundary v.width

/-- Reads one transformed character and gives the matches that end at it, each once. None when
more walks than the limit would be under way. -/
def step (a : Automaton) (whitelisted : IntervalSet) (s : State) (m : Mapped) :
    Option (State × List Match) :=
  let recent := s.recent.push m.site
  let walks := s.walks ++ ((a.forkingAt s.node).filter (admits recent)).map Walk.ofFork
  if a.limit < walks.length then none
  else
    let (completed, alive) := advanceWalks m.char walks
    let node := a.linked.step s.node m.char
    let found := (completed ++ a.endingAt node).filterMap (match? whitelisted recent m.site)
    some (⟨recent, node, alive⟩, found.eraseDups)

/-- The failure of a scan that exceeds the limit at a character. -/
def limitError (a : Automaton) (input : String) (m : Mapped) : Error :=
  .walkLimit input m.site.span.first a.variantCount a.limit

/-- The matches from a state on, and the failure that cuts them off, if one does. -/
def scanFrom (a : Automaton) (input : String) (whitelisted : IntervalSet) (s : State) :
    List Mapped → List Match × Option Error
  | [] => ([], none)
  | m :: rest =>
    match a.step whitelisted s m with
    | none => ([], some (a.limitError input m))
    | some (s, found) =>
      let (later, failure) := a.scanFrom input whitelisted s rest
      (found ++ later, failure)

/-- The matches in a text, in the order of their last characters, and the failure that cuts them
off, if one does. -/
def scan (a : Automaton) (input : String) : List Match × Option Error :=
  a.scanFrom input (a.whitelist.scan input.toList) a.start (a.pipeline.apply input.toList)

/-- All matches in a text; fails if the scan does. -/
def allMatches (a : Automaton) (input : String) : Except Error (List Match) :=
  match a.scan input with
  | (_, some e) => .error e
  | (found, none) => .ok found

def sortedMatches (a : Automaton) (input : String) : Except Error (List Match) :=
  (a.allMatches input).map Match.sort

end Automaton

end TermScan
