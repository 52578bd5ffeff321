import TermScan.Match
import TermScan.Pattern.Preference
import TermScan.Pattern.RegexSource
import TermScan.Whitelist

/-!
# Matching term by term

The baseline beside the automaton: every term is tried at every character of the transformed text,
with the preferences of its regular expression. Optionals are greedy and decided from the left, so
a term has at most one match that starts at a given character. Boundaries are looked for in the
transformed text.
-/
namespace TermScan

namespace Pattern

/-- How many characters the preferred match of a pattern has at the start of a text that follows
the character `before`. -/
def matchLength? (p : Pattern) (before : Option Char) (text : List Char) : Option Nat :=
  if p.startBoundary && before.any isWordChar then none
  else matchNodes? (fun rest => !(p.endBoundary && rest.head?.any isWordChar)) p.nodes text

/-- The lengths of the preferred matches at each character of a text. -/
def matchLengthsFrom (p : Pattern) (before : Option Char) : List Char → List (Option Nat)
  | [] => []
  | c :: rest => p.matchLength? before (c :: rest) :: p.matchLengthsFrom (some c) rest

def matchLengths (p : Pattern) (text : List Char) : List (Option Nat) :=
  p.matchLengthsFrom none text

end Pattern

/-- A matcher that tries the terms one after the other. -/
structure RegexMatcher where
  terms : List Term
  whitelist : Whitelist
  pipeline : Pipeline

namespace RegexMatcher

/-- The matcher for some options; fails with the first fault among terms, then phrases. -/
def build (o : Options) : Except Error RegexMatcher := do
  Term.validate o.terms
  let whitelist ← Whitelist.build o.whitelist o.whitelistPipeline
  return ⟨o.terms, whitelist, o.blacklistPipeline⟩

/-- The regular expression of each term. -/
def sources (r : RegexMatcher) : List (Int × String) :=
  r.terms.map fun t => (t.id, t.pattern.regexSource)

/-- The match of `length` characters at the head of the kept characters, unless a whitelisted
phrase contains it. -/
def match? (whitelisted : IntervalSet) (id : Int) (kept : List Mapped) (length : Nat) :
    Option Match :=
  match sourceSpan? kept 0 (length - 1) with
  | none => none
  | some span =>
    if whitelisted.anyContains ⟨span.first, span.last⟩ then none
    else some ⟨id, length, span.first, span.last⟩

/-- Pairs each kept character and its successors with what is known of it. -/
def matchesFrom (whitelisted : IntervalSet) (id : Int) :
    List Mapped → List (Option Nat) → List Match
  | m :: kept, length :: lengths =>
    (length.bind (match? whitelisted id (m :: kept))).toList ++
      matchesFrom whitelisted id kept lengths
  | _, _ => []

/-- The matches of one term, in the order of their first characters. -/
def termMatches (whitelisted : IntervalSet) (kept : List Mapped) (t : Term) : List Match :=
  matchesFrom whitelisted t.id kept (t.pattern.matchLengths (kept.map Mapped.char))

/-- All matches in a text, term by term. -/
def allMatches (r : RegexMatcher) (input : String) : List Match :=
  let kept := r.pipeline.apply input.toList
  let whitelisted := r.whitelist.scan input.toList
  r.terms.flatMap (termMatches whitelisted kept)

def sortedMatches (r : RegexMatcher) (input : String) : List Match :=
  Match.sort (r.allMatches input)

/-- The first match of the earliest term that has one. -/
def firstMatch (r : RegexMatcher) (input : String) : Option Match :=
  let kept := r.pipeline.apply input.toList
  let whitelisted := r.whitelist.scan input.toList
  r.terms.findSome? fun t => (termMatches whitelisted kept t).head?

def hasMatch (r : RegexMatcher) (input : String) : Bool := (r.firstMatch input).isSome

end RegexMatcher

end TermScan
