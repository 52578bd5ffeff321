import TermScan.Error
import TermScan.Pattern.Printer
import TermScan.Transform.Pipeline

/-!
# What a matcher is made from

Terms to search for, phrases that excuse what they contain, a pipeline for each, and a limit.
Terms are checked in order, and the first one that cannot be searched for is reported.
-/
namespace TermScan

/-- A pattern and the id under which its matches are reported. -/
structure Term where
  id : Int
  pattern : Pattern
  deriving DecidableEq, Repr

namespace Term

/-- Numbers patterns from 0. -/
def enumerate (patterns : List Pattern) : List Term :=
  patterns.mapIdx fun i p => ⟨i, p⟩

/-- What is wrong with a term, given the ids before it. -/
def error? (earlier : List Int) (t : Term) : Option Error :=
  if earlier.contains t.id then some (.duplicateTermId t.id)
  else if t.pattern.nodes.isEmpty then some (.emptyPattern t.id)
  else if t.pattern.canBeEmpty then some (.matchesEmptyText t.id t.pattern.render)
  else none

/-- The terms before the first one with an error, and that error. -/
def checkFrom (earlier : List Int) : List Term → List Term × Option Error
  | [] => ([], none)
  | t :: rest =>
    match t.error? earlier with
    | some e => ([], some e)
    | none =>
      let (good, e) := checkFrom (t.id :: earlier) rest
      (t :: good, e)

def check (terms : List Term) : List Term × Option Error := checkFrom [] terms

/-- Fails with the error of the first term that has one. -/
def validate (terms : List Term) : Except Error Unit :=
  match (check terms).2 with
  | some e => .error e
  | none => .ok ()

end Term

/-- Everything a matcher is made from. -/
structure Options where
  terms : List Term
  /-- Phrases that suppress the matches they contain. -/
  whitelist : List String
  blacklistPipeline : Pipeline
  whitelistPipeline : Pipeline
  /-- The largest number of walks under way at once, if it is not the usual one. -/
  limit : Option Nat

end TermScan
