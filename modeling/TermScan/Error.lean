import TermScan.Pattern.Parser

/-!
# Errors

Everything that can be wrong with patterns, options, configurations and scans, each with its
wording and its kind.
-/
namespace TermScan

/-- What is wrong with a configuration. -/
inductive ConfigProblem
  /-- The text is no document, or a value in it has a type it must not have. -/
  | malformed
  | missingVersion
  | unsupportedVersion (version supported : Int)
  /-- A key of a transformer's table stands for a character but is not one. -/
  | notSingleCharacter (kind key : String)
  /-- A problem in the words of whoever found it. -/
  | custom (text : String)
  deriving DecidableEq, Repr

def ConfigProblem.message : ConfigProblem → String
  | malformed => "malformed document"
  | missingVersion => "missing required field: version"
  | unsupportedVersion version supported =>
    "unsupported config version " ++ toString version
      ++ " (supported: " ++ toString supported ++ ")"
  | notSingleCharacter kind key => kind ++ " key \x60" ++ key ++ "\x60 must be a single character"
  | custom text => text

/-- What can go wrong. -/
inductive Error
  /-- Pattern source with a fault in it. -/
  | pattern (error : PatternError)
  /-- Two terms share an id. -/
  | duplicateTermId (id : Int)
  /-- A term whose pattern has no nodes. -/
  | emptyPattern (id : Int)
  /-- A term whose pattern, here in its source form, need not match any character. -/
  | matchesEmptyText (id : Int) (source : String)
  /-- A whitelisted term that is empty, or is once it has been transformed. -/
  | emptyWhitelistTerm (index : Nat)
  /-- A pattern that is refused as a regular expression. -/
  | invalidRegex (id : Int) (reason : String)
  /-- A regular expression that was given up on during a scan. -/
  | regexScan (id : Int) (reason : String)
  | config (problem : ConfigProblem) (path : Option String)
  /-- A file that cannot be read. -/
  | io (path reason : String)
  /-- More walks than the limit were under way at byte `position` of `input`. -/
  | walkLimit (input : String) (position variants limit : Nat)
  deriving DecidableEq, Repr

/-- A coarse classification of errors. -/
inductive ErrorKind
  /-- Pattern source that cannot be read. -/
  | source
  /-- What a matcher or a configuration is made from; found before any scan. -/
  | configuration
  /-- A failure that depends on the scanned text. -/
  | resourceLimit
  deriving DecidableEq, Repr

namespace Error

def kind : Error → ErrorKind
  | pattern _ => .source
  | duplicateTermId _ | emptyPattern _ | matchesEmptyText _ _ | emptyWhitelistTerm _
  | invalidRegex _ _ | config _ _ | io _ _ => .configuration
  | regexScan _ _ | walkLimit _ _ _ _ => .resourceLimit

def message : Error → String
  | pattern error => error.message
  | duplicateTermId id => "duplicate blacklisted term id " ++ toString id
  | emptyPattern id => "blacklisted term " ++ toString id ++ " has an empty pattern"
  | matchesEmptyText id source =>
    "blacklisted term " ++ toString id
      ++ " can match the empty string (pattern \x60" ++ source ++ "\x60)"
  | emptyWhitelistTerm index => "whitelisted term " ++ toString index ++ " is empty"
  | invalidRegex id reason =>
    "invalid regex for blacklisted term " ++ toString id ++ ": " ++ reason
  | regexScan id reason =>
    "regex scan failed for blacklisted term " ++ toString id ++ ": " ++ reason
  | config problem _ => "config error: " ++ problem.message
  | io path reason => "io error: " ++ path ++ ": " ++ reason
  | walkLimit _ position variants limit =>
    "forked traversal limit of " ++ toString limit ++ " exceeded at position " ++
      toString position ++ " (" ++ toString variants ++
      " effective patterns); raise the limit or use fewer wildcard patterns"

/-- The wording of the failure underneath, if there is one. -/
def cause? : Error → Option String
  | io _ reason => some reason
  | _ => none

end Error

end TermScan
