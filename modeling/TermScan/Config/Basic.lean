import TermScan.Options
import TermScan.Transform.Builtin

/-!
# Configurations

What a configuration says, before its patterns are read and its transformers are built, and the
options it comes to.
-/
namespace TermScan

/-- A term as it is configured. -/
structure TermEntry where
  id : Int
  /-- Pattern source. -/
  pattern : String
  deriving DecidableEq, Repr

/-- A transformer as it is configured. Keys stand for characters. -/
inductive TransformerEntry
  | lowercase
  | leetSpeak
  | confusables
  | skipNonAlphabetic
  /-- Each key replaces the characters of its text. -/
  | remap (map : List (String × String))
  | collapseDuplicates (threshold : Nat) (custom : List (String × Nat))
  deriving DecidableEq, Repr

/-- The character a key stands for. -/
def keyChar (kind key : String) : Except Error Char :=
  match key.toList with
  | [c] => .ok c
  | _ => .error (.config (.notSingleCharacter kind key) none)

namespace TransformerEntry

/-- The transformer that an entry asks for; fails at the first key that is no character. -/
def build : TransformerEntry → Except Error Transformer
  | lowercase => .ok .lowercase
  | leetSpeak => .ok .undoLeetSpeak
  | confusables => .ok .confusables
  | skipNonAlphabetic => .ok .skipNonAlphabetic
  | remap map => do
    let entries ← map.mapM fun (key, sources) => do
      return (← keyChar "remap" key, sources.toList)
    return .remap entries
  | collapseDuplicates threshold custom => do
    let custom ← custom.mapM fun (key, n) => do
      return (← keyChar "collapse-duplicates" key, n)
    return .collapsing ⟨threshold, custom⟩

def buildPipeline (entries : List TransformerEntry) : Except Error Pipeline :=
  (entries.mapM build).map Pipeline.mk

end TransformerEntry

/-- A configuration. -/
structure Config where
  version : Int
  terms : List TermEntry
  whitelist : List String
  blacklistTransformers : List TransformerEntry
  whitelistTransformers : List TransformerEntry
  limit : Option Nat
  deriving DecidableEq, Repr

namespace Config

def buildTerm (entry : TermEntry) : Except Error Term :=
  match Pattern.parse entry.pattern with
  | .ok pattern => .ok ⟨entry.id, pattern⟩
  | .error e => .error (.pattern e)

/-- The options that a configuration comes to. Terms are built first, then the pipeline of the
blacklist, then that of the whitelist. -/
def toOptions (c : Config) : Except Error Options := do
  let terms ← c.terms.mapM buildTerm
  let blacklistPipeline ← TransformerEntry.buildPipeline c.blacklistTransformers
  let whitelistPipeline ← TransformerEntry.buildPipeline c.whitelistTransformers
  return ⟨terms, c.whitelist, blacklistPipeline, whitelistPipeline, c.limit⟩

end Config

end TermScan
