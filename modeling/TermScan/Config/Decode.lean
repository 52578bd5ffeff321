import TermScan.Config.Basic
import TermScan.Toml.MomentTable

/-!
# Configurations in documents

How the values of a document become a configuration. Keys that are not asked for do not matter.
An array may stand for a table with known keys, its items in the order of the keys, and a moment
has the shape of a table.
-/
namespace TermScan.Config

open Toml

/-- The entries of a value that is a table. -/
def entries? : Value → Option Entries
  | .table entries => some entries
  | .moment m => some m.entries
  | _ => none

/-- The entries of a value that is a table with known keys. -/
def fields? (keys : List String) : Value → Option Entries
  | .array items => some (keys.zip items)
  | v => entries? v

def integer? : Value → Option Int
  | .integer n => some n
  | _ => none

/-- An integer that is not negative. -/
def count? : Value → Option Nat
  | .integer n => if 0 ≤ n then some n.toNat else none
  | _ => none

def text? : Value → Option String
  | .string s => some s
  | _ => none

def list? {α : Type} (decode : Value → Option α) : Value → Option (List α)
  | .array items => items.mapM decode
  | _ => none

/-- The entries of a table by key, each value decoded. -/
def map? {α : Type} (decode : Value → Option α) (v : Value) : Option (List (String × α)) := do
  (sortEntries (← entries? v)).mapM fun (key, v) => (decode v).map fun a => (key, a)

/-- The value of a key that must be there. -/
def required? {α : Type} (decode : Value → Option α) (fields : Entries) (key : String) :
    Option α :=
  (fields.lookup key).bind decode

/-- The value of a key, or another one if the key is not there. -/
def optional? {α : Type} (decode : Value → Option α) (fields : Entries) (key : String)
    (other : α) : Option α :=
  match fields.lookup key with
  | some v => decode v
  | none => some other

def termKeys : List String := ["id", "pattern"]

def sideKeys : List String := ["blacklist", "whitelist"]

def configKeys : List String :=
  ["version", "term", "whitelist", "transformers", "forked_traversal_limit"]

/-- The only version there is. -/
def supportedVersion : Int := 1

def term? (v : Value) : Option TermEntry := do
  let fields ← fields? termKeys v
  return ⟨← required? integer? fields "id", ← required? text? fields "pattern"⟩

/-- The keys that a kind of transformer reads. -/
def kindKeys : String → List String
  | "remap" => ["map"]
  | "collapse-duplicates" => ["threshold", "custom"]
  | _ => []

/-- The kind of a transformer and the rest of its entry. An array names its kind first, and may
not hold more than the keys of the kind. -/
def kindAndFields? : Value → Option (String × Entries)
  | .array (kind :: items) => do
    let kind ← text? kind
    if (kindKeys kind).length < items.length then none
    else return (kind, (kindKeys kind).zip items)
  | .array [] => none
  | v => do
    let fields ← entries? v
    return (← required? text? fields "kind", fields)

def transformer? (v : Value) : Option TransformerEntry := do
  let (kind, fields) ← kindAndFields? v
  match kind with
  | "lowercase" => return .lowercase
  | "leet-speak" => return .leetSpeak
  | "confusables" => return .confusables
  | "skip-non-alphabetic" => return .skipNonAlphabetic
  | "remap" => return .remap (← required? (map? text?) fields "map")
  | "collapse-duplicates" =>
    return .collapseDuplicates (← optional? count? fields "threshold" 1)
      (← optional? (map? count?) fields "custom" [])
  | _ => none

/-- The transformers for each side, the blacklist first. -/
def sides? (v : Value) : Option (List TransformerEntry × List TransformerEntry) := do
  let fields ← fields? sideKeys v
  return (← optional? (list? transformer?) fields "blacklist" [],
    ← optional? (list? transformer?) fields "whitelist" [])

def documentVersion (document : Entries) : Except ConfigProblem Int :=
  match document.lookup "version" with
  | none => .error .missingVersion
  | some (.integer n) =>
    if n = supportedVersion then .ok n else .error (.unsupportedVersion n supportedVersion)
  | some _ => .error .malformed

/-- The configuration in a document. -/
def ofDocument? (document : Entries) : Option Config := do
  let (blacklist, whitelist) ← optional? sides? document "transformers" ([], [])
  return {
    version := ← required? integer? document "version"
    terms := ← optional? (list? term?) document "term" []
    whitelist := ← optional? (list? text?) document "whitelist" []
    blacklistTransformers := blacklist
    whitelistTransformers := whitelist
    limit := ← optional? (fun v => (count? v).map some) document "forked_traversal_limit" none }

/-- The configuration in a document whose version has been checked first. -/
def ofDocument (document : Entries) : Except ConfigProblem Config := do
  let _ ← documentVersion document
  match ofDocument? document with
  | some c => return c
  | none => throw .malformed

end TermScan.Config
