import TermScan.Transform.Pipeline
import TermScan.Transform.LookAlike

/-!
# Ready-made transformers and pipelines

The transformers that a configuration can name, and the two pipelines recommended for English.
-/
namespace TermScan

namespace Transformer

def lowercase : Transformer := mapping fun c => some c.toLower

def skipNonAlphabetic : Transformer := mapping fun c => if c.isAlpha then some c else none

def remap (s : Substitution) : Transformer := mapping fun c => some (s.apply c)

/-- Undoes digits and signs written in place of letters. -/
def undoLeetSpeak : Transformer := remap leetSpeak

/-- Folds look-alikes onto ASCII, given the first characters of decompositions. -/
def foldLookAlikes (first? : Char → Option Char) : Transformer :=
  mapping fun c => some (foldLookAlike first? c)

/-- Folds look-alikes onto ASCII. -/
def confusables : Transformer := foldLookAlikes compatibilityFirst?

end Transformer

namespace Pipeline

/-- Letters that English doubles keep two of their kind, all other characters one. -/
def englishDoubles : Thresholds :=
  ⟨1, [('b', 2), ('e', 2), ('o', 2), ('l', 2), ('s', 2), ('g', 2)]⟩

/-- The pipeline for searched English text, given the first characters of decompositions. -/
def englishBlacklistWith (first? : Char → Option Char) : Pipeline :=
  ⟨[.foldLookAlikes first?, .undoLeetSpeak, .lowercase, .collapsing englishDoubles]⟩

def englishBlacklist : Pipeline := englishBlacklistWith compatibilityFirst?

/-- A single space is kept of several, and any number of other characters. -/
def singleSpaces : Thresholds := ⟨Collapse.largestCount, [(' ', 1)]⟩

/-- The pipeline for whitelisted English phrases. -/
def englishWhitelist : Pipeline := ⟨[.lowercase, .collapsing singleSpaces]⟩

end Pipeline

end TermScan
