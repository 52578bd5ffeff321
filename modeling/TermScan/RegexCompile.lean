import TermScan.RegexSearch

/-!
# Compiling the expressions of terms

A matcher that searches with regular expressions compiles those of all its terms as it is built. A
library may refuse an expression, because it is too big for instance, and says why. What the
libraries accept is left open.
-/
namespace TermScan

/-- The libraries that compile the source of an expression, or say why they refuse it. -/
structure Compilers where
  /-- Runs in linear time, and knows no look at the neighbouring character. -/
  plain : String → Except String Search
  lookaround : String → Except String Search

/-- A pattern is compiled with the cheapest library that supports its expression. -/
def Compilers.compile (c : Compilers) (p : Pattern) : Except String Search :=
  if p.startBoundary || p.endBoundary then c.lookaround p.regexSource else c.plain p.regexSource

/-- Libraries that refuse nothing. -/
def Engines.compilers (engines : Engines) : Compilers :=
  ⟨fun source => .ok (engines.plain source), fun source => .ok (engines.lookaround source)⟩

namespace RegexMatcher

/-- Compiles the expressions of terms in order; fails at the first one that is refused. -/
def compileTerms (c : Compilers) : List Term → Except Error (List (Int × Search))
  | [] => .ok []
  | t :: rest => do
    let search ← (c.compile t.pattern).mapError (.invalidRegex t.id)
    return (t.id, search) :: (← compileTerms c rest)

/-- The matcher for some options, and the compiled terms. Fails with the first fault among terms,
then among their expressions, then among phrases. -/
def buildWith (c : Compilers) (o : Options) :
    Except Error (RegexMatcher × List (Int × Search)) := do
  Term.validate o.terms
  let compiled ← compileTerms c o.terms
  let whitelist ← Whitelist.build o.whitelist o.whitelistPipeline
  return (⟨o.terms, whitelist, o.blacklistPipeline⟩, compiled)

end RegexMatcher

end TermScan
