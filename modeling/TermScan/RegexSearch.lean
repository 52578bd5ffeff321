import TermScan.RegexMatcher

/-!
# Searching with regular expressions

The matches of a term are found by asking its regular expression for the leftmost match again and
again, each time from the character behind the first one of the match before. The expression works
on the bytes of the transformed text, and what it finds is counted in characters again. How the
engines compile and run an expression is left open.
-/
namespace TermScan

/-- The bytes of a match, from the first one up to the one behind the last. -/
structure ByteRange where
  start : Nat
  stop : Nat
  deriving DecidableEq, Repr

/-- A compiled regular expression: the match it finds in a text from a byte on. -/
structure Search where
  find : List Char → Nat → Option ByteRange
  /-- A search never looks back. -/
  le_start : ∀ text pos range, find text pos = some range → pos ≤ range.start

/-- The engines, each with what it compiles the source of an expression to. -/
structure Engines where
  /-- Runs in linear time, and knows no look at the neighbouring character. -/
  plain : String → Search
  lookaround : String → Search

/-- A pattern is compiled with the cheapest engine that supports its expression. -/
def Engines.compile (engines : Engines) (p : Pattern) : Search :=
  if p.startBoundary || p.endBoundary then engines.lookaround p.regexSource
  else engines.plain p.regexSource

/-- The index of the character that a byte of a text belongs to. -/
def charIndex (text : List Char) (offset : Nat) : Nat :=
  ((sites text).takeWhile fun s => s.span.first ≤ offset).length - 1

/-- The number of bytes of the character that starts at an offset; one where none starts. -/
def charSize (text : List Char) (offset : Nat) : Nat :=
  (((dropBytes? offset text).bind List.head?).map Char.utf8Size).getD 1

theorem charSize_pos (text : List Char) (offset : Nat) : 0 < charSize text offset := by
  rw [charSize]
  cases (dropBytes? offset text).bind List.head? with
  | none => exact Nat.one_pos
  | some c => exact c.utf8Size_pos

namespace RegexMatcher

/-- The match from one kept character to another, unless a whitelisted phrase contains it. -/
def matchBetween? (whitelisted : IntervalSet) (id : Int) (kept : List Mapped) (first last : Nat) :
    Option Match :=
  match sourceSpan? kept first last with
  | none => none
  | some span =>
    if whitelisted.anyContains ⟨span.first, span.last⟩ then none
    else some ⟨id, last - first + 1, span.first, span.last⟩

/-- The matches that a search finds from a byte of a text on, where `kept` says where the
characters of the text come from. -/
def searchFrom (search : Search) (whitelisted : IntervalSet) (id : Int) (kept : List Mapped)
    (text : List Char) (pos : Nat) : List Match :=
  if pos < byteLength text then
    match h : search.find text pos with
    | none => []
    | some range =>
      let first := charIndex text range.start
      let last := charIndex text (max (range.stop - 1) range.start)
      have := search.le_start text pos range h
      have := charSize_pos text range.start
      (matchBetween? whitelisted id kept first last).toList ++
        searchFrom search whitelisted id kept text (range.start + charSize text range.start)
  else []
termination_by byteLength text - pos

/-- All matches in a text, term by term, as the compiled expressions of the patterns find them. -/
def searchMatches (r : RegexMatcher) (engines : Engines) (input : String) : List Match :=
  let kept := r.pipeline.apply input.toList
  let whitelisted := r.whitelist.scan input.toList
  r.terms.flatMap fun t =>
    searchFrom (engines.compile t.pattern) whitelisted t.id kept (kept.map Mapped.char) 0

/-- What the compiled expressions find in a text, by position. -/
def sortedSearchMatches (r : RegexMatcher) (engines : Engines) (input : String) :
    List Match :=
  Match.sort (r.searchMatches engines input)

end RegexMatcher

end TermScan
