import TermScan.Config.Decode
import TermScan.Journal

/-!
# Reading configurations

A configuration is read from the text of a document, or from a file that holds one. On request
keys that nothing reads are reported, even where the configuration is then refused. How a text
becomes a document is left to a reader, which gives nothing for a text that is no document.
-/
namespace TermScan.Config

open Toml

/-- The keys of some entries that are not among the known ones, sorted. -/
def unknownKeys (known : List String) (entries : Entries) : List String :=
  ((sortEntries entries).map Prod.fst).filter fun key => !known.contains key

/-- The unknown keys of each table among terms, under the name of the term. -/
def unknownTermKeys (terms : List Value) : List String :=
  (terms.zipIdx.map fun (term, i) =>
    match term.plainEntries? with
    | some fields => (unknownKeys termKeys fields).map fun key =>
        "term[" ++ toString i ++ "]." ++ key
    | none => []).flatten

/-- The keys of a document that nothing reads: those of the document itself, of its terms and of
its table of transformers. -/
def ignoredKeys (document : Entries) : List String :=
  unknownKeys configKeys document ++
    (match document.lookup "term" with
      | some (.array terms) => unknownTermKeys terms
      | _ => []) ++
    (match (document.lookup "transformers").bind Value.plainEntries? with
      | some sides => (unknownKeys sideKeys sides).map ("transformers." ++ ·)
      | none => [])

/-- What is reported about the keys of a document that nothing reads. -/
def report (path : String) (document : Entries) : List Event :=
  (ignoredKeys document).map (.unknownField path)

section Reading

variable (read : String → Option Entries)

/-- The configuration in a text; `path` says where the text is from. -/
def parse (content path : String) : Except Error Config :=
  match read content with
  | none => .error (.config .malformed (some path))
  | some document => (ofDocument document).mapError fun problem => .config problem (some path)

/-- The configuration in a text, and what is reported about keys that nothing reads. -/
def parseReporting (content path : String) : Except Error Config × List Event :=
  (parse read content path, ((read content).map (report path)).getD [])

end Reading

/-- What is found where a file should be. -/
inductive FileContent
  | missing
  | directory
  | bytes (data : ByteArray)

def readFile (path : String) : FileContent → Except Error String
  | .missing => .error (.io path "No such file or directory (os error 2)")
  | .directory => .error (.io path "Is a directory (os error 21)")
  | .bytes data =>
    match String.fromUTF8? data with
    | some text => .ok text
    | none => .error (.io path "stream did not contain valid UTF-8")

def load (read : String → Option Entries) (path : String) (file : FileContent) :
    Except Error Config :=
  (readFile path file).bind fun content => parse read content path

/-- The configuration in a file, and what is reported about keys that nothing reads. -/
def loadReporting (read : String → Option Entries) (path : String) (file : FileContent) :
    Except Error Config × List Event :=
  match readFile path file with
  | .error e => (.error e, [])
  | .ok content => parseReporting read content path

end TermScan.Config
