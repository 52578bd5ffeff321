import TermScan.RegexSearch

/-!
# Scans that can fail or stop early

The engine that knows lookaround tracks back, and gives a search up when it takes too long; a scan
for all matches then fails, naming the term. A scan for the first match ends with the first term
that has one.
-/
namespace TermScan

/-- A compiled regular expression whose searches may be given up, for a reason. -/
structure FallibleSearch where
  find : List Char → Nat → Except String (Option ByteRange)
  /-- A search never looks back. -/
  le_start : ∀ text pos range, find text pos = .ok (some range) → pos ≤ range.start

/-- A search that is never given up. -/
def Search.fallible (search : Search) : FallibleSearch where
  find text pos := .ok (search.find text pos)
  le_start text pos range h := search.le_start text pos range (Except.ok.inj h)

/-- The engines, of which one may give searches up. -/
structure FallibleEngines where
  plain : String → Search
  lookaround : String → FallibleSearch

/-- A pattern is compiled with the cheapest engine that supports its expression. -/
def FallibleEngines.compile (engines : FallibleEngines) (p : Pattern) : FallibleSearch :=
  if p.startBoundary || p.endBoundary then engines.lookaround p.regexSource
  else (engines.plain p.regexSource).fallible

/-- Engines that give nothing up. -/
def Engines.fallible (engines : Engines) : FallibleEngines :=
  ⟨engines.plain, fun source => (engines.lookaround source).fallible⟩

/-- A transformed text, and what is suppressed in it. -/
structure Haystack where
  kept : List Mapped
  whitelisted : IntervalSet

namespace Haystack

/-- The characters that are searched. -/
def text (h : Haystack) : List Char := h.kept.map Mapped.char

/-- The byte behind the first character of a match. -/
def next (h : Haystack) (range : ByteRange) : Nat := range.start + charSize h.text range.start

theorem start_lt_next (h : Haystack) (range : ByteRange) : range.start < h.next range :=
  Nat.lt_add_of_pos_right (charSize_pos h.text range.start)

/-- The match that a search finds, unless a whitelisted phrase contains it. -/
def match? (h : Haystack) (id : Int) (range : ByteRange) : Option Match :=
  RegexMatcher.matchBetween? h.whitelisted id h.kept (charIndex h.text range.start)
    (charIndex h.text (max (range.stop - 1) range.start))

end Haystack

namespace RegexMatcher

/-- Adds the matches of a term from a byte on to those found so far, or the first of them alone. -/
def scanTerm (search : FallibleSearch) (h : Haystack) (id : Int) (stopAtFirst : Bool)
    (found : List Match) (pos : Nat) : Except Error (List Match) :=
  if pos < byteLength h.text then
    match hfind : search.find h.text pos with
    | .error reason => .error (.regexScan id reason)
    | .ok none => .ok found
    | .ok (some range) =>
      have := search.le_start h.text pos range hfind
      have := h.start_lt_next range
      match h.match? id range with
      | some m =>
        if stopAtFirst then .ok (found ++ [m])
        else scanTerm search h id stopAtFirst (found ++ [m]) (h.next range)
      | none => scanTerm search h id stopAtFirst found (h.next range)
  else .ok found
termination_by byteLength h.text - pos

/-- Adds the matches of terms in order to those found so far. -/
def scanTerms (engines : FallibleEngines) (h : Haystack) :
    List Term → List Match → Except Error (List Match)
  | [], found => .ok found
  | t :: rest, found => do
    let found ← scanTerm (engines.compile t.pattern) h t.id false found 0
    scanTerms engines h rest found

/-- Goes through terms in order up to the first that has a match. -/
def scanToFirst (engines : FallibleEngines) (h : Haystack) :
    List Term → List Match → Except Error (Option Match)
  | [], _ => .ok none
  | t :: rest, found => do
    let found ← scanTerm (engines.compile t.pattern) h t.id true found 0
    match found.head? with
    | some m => return some m
    | none => scanToFirst engines h rest found

/-- What is scanned for a text. -/
def haystack (r : RegexMatcher) (input : String) : Haystack :=
  ⟨r.pipeline.apply input.toList, r.whitelist.scan input.toList⟩

/-- All matches in a text, by position if `sorted`. -/
def collect (r : RegexMatcher) (engines : FallibleEngines) (input : String) (sorted : Bool) :
    Except Error (List Match) :=
  (scanTerms engines (r.haystack input) r.terms []).map fun found =>
    if sorted then Match.sort found else found

/-- The first match of the earliest term that has one; tries no further. -/
def findFirst (r : RegexMatcher) (engines : FallibleEngines) (input : String) :
    Except Error (Option Match) :=
  scanToFirst engines (r.haystack input) r.terms []

def findAny (r : RegexMatcher) (engines : FallibleEngines) (input : String) : Except Error Bool :=
  (r.findFirst engines input).map Option.isSome

end RegexMatcher

end TermScan
