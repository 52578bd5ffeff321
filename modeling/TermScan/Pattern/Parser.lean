import TermScan.Pattern.Basic

/-!
# Reading patterns

The reader goes through the source once, in one of two states: between nodes, or inside an
optional. It knows the line and the column of the next character, and reports every fault with those
of the character it concerns.
-/
namespace TermScan

/-- What can be wrong with pattern source. -/
inductive Fault
  /-- A bar that is neither the first nor the last character. -/
  | misplacedBoundary
  | unmatchedBracket
  | unclosedOptional
  | nestedOptional
  | boundaryInOptional
  /-- An optional that holds a wildcard and something else. -/
  | mixedOptional
  | emptyOptional
  | danglingEscape
  | invalidEscape (c : Char)
  deriving DecidableEq, Repr

def Fault.message : Fault → String
  | misplacedBoundary =>
    "boundary assertions are only allowed at the start or end of a pattern"
  | unmatchedBracket => "unexpected ']' with no matching '['"
  | unclosedOptional => "unclosed optional; expected ']'"
  | nestedOptional => "nested optionals are not supported"
  | boundaryInOptional => "boundary assertions are not allowed inside an optional"
  | mixedOptional => "an optional may wrap a single literal run or a single wildcard"
  | emptyOptional => "empty optional"
  | danglingEscape => "unexpected end of pattern after '\\'"
  | invalidEscape c =>
    "cannot escape '" ++ c.toString ++ "'; only \\, [, ], ? and | may be escaped"

/-- A place in a text, counted from 1; columns count characters. -/
structure Position where
  line : Nat
  column : Nat
  deriving DecidableEq, Repr

namespace Position

def start : Position := ⟨1, 1⟩

/-- The place behind a character that stands at the given one. -/
def advance (p : Position) (c : Char) : Position :=
  if c = '\n' then ⟨p.line + 1, 1⟩ else ⟨p.line, p.column + 1⟩

end Position

/-- A fault and the place of the character it concerns. -/
structure FaultAt where
  position : Position
  fault : Fault
  deriving DecidableEq, Repr

/-- What is reported of a fault in pattern source: its wording and its place. -/
structure PatternError where
  detail : String
  position : Position
  deriving DecidableEq, Repr

/-- The wording followed by the place. -/
def PatternError.message (e : PatternError) : String :=
  e.detail ++ " at " ++ toString e.position.line ++ ":" ++ toString e.position.column

namespace Pattern

/-- What follows the flag at the start: the nodes and the flag at the end. -/
structure Body where
  nodes : List Node
  endBoundary : Bool

namespace Body

def push (node : Node) (b : Body) : Body := { b with nodes := node :: b.nodes }

/-- Puts a literal character in front, into the literal run that starts there if one does. -/
def pushChar (c : Char) (b : Body) : Body :=
  match b.nodes with
  | .one (.literal chars) :: rest => { b with nodes := .one (.literal (c :: chars)) :: rest }
  | nodes => { b with nodes := .one (.literal [c]) :: nodes }

end Body

/-- What an optional has been seen to hold so far. -/
inductive Content
  | nothing
  | wildcard
  /-- A non-empty literal run, last character first. -/
  | literal (last : Char) (earlier : List Char)

/-- One more literal character in an optional; none when a wildcard stands there already. -/
def Content.addChar? (c : Char) : Content → Option Content
  | nothing => some (literal c [])
  | literal last earlier => some (literal c (last :: earlier))
  | wildcard => none

/-- The atom an optional wraps; none when it wraps nothing. -/
def Content.atom? : Content → Option Atom
  | nothing => none
  | wildcard => some .wildcard
  | literal last earlier => some (.literal (last :: earlier).reverse)

mutual

/-- Reads from between two nodes; the next character stands at `here`. -/
def readNodes (here : Position) : List Char → Except FaultAt Body
  | [] => .ok ⟨[], false⟩
  | '|' :: rest =>
    match rest with
    | [] => .ok ⟨[], true⟩
    | _ :: _ => .error ⟨here, .misplacedBoundary⟩
  | '[' :: rest => readOptional here (here.advance '[') .nothing rest
  | ']' :: _ => .error ⟨here, .unmatchedBracket⟩
  | '?' :: rest => (readNodes (here.advance '?') rest).map (Body.push (.one .wildcard))
  | '\\' :: rest =>
    match rest with
    | [] => .error ⟨here, .danglingEscape⟩
    | c :: rest =>
      if isSpecial c then (readNodes ((here.advance '\\').advance c) rest).map (Body.pushChar c)
      else .error ⟨here.advance '\\', .invalidEscape c⟩
  | c :: rest => (readNodes (here.advance c) rest).map (Body.pushChar c)

/-- Reads from inside the optional opened at `opened`; the next character stands at `here`. -/
def readOptional (opened here : Position) (content : Content) : List Char → Except FaultAt Body
  | [] => .error ⟨here, .unclosedOptional⟩
  | ']' :: rest =>
    match content.atom? with
    | none => .error ⟨opened, .emptyOptional⟩
    | some atom => (readNodes (here.advance ']') rest).map (Body.push (.optional atom))
  | '[' :: _ => .error ⟨here, .nestedOptional⟩
  | '|' :: _ => .error ⟨here, .boundaryInOptional⟩
  | '?' :: rest =>
    match content with
    | .nothing => readOptional opened (here.advance '?') .wildcard rest
    | _ => .error ⟨here, .mixedOptional⟩
  | '\\' :: rest =>
    match rest with
    | [] => .error ⟨here, .danglingEscape⟩
    | c :: rest =>
      if isSpecial c then
        match content.addChar? c with
        | none => .error ⟨here, .mixedOptional⟩
        | some content => readOptional opened ((here.advance '\\').advance c) content rest
      else .error ⟨here.advance '\\', .invalidEscape c⟩
  | c :: rest =>
    match content.addChar? c with
    | none => .error ⟨here, .mixedOptional⟩
    | some content => readOptional opened (here.advance c) content rest

end

/-- Reads a pattern from its first character on. -/
def read (source : List Char) : Except FaultAt Pattern :=
  match source with
  | '|' :: rest =>
    (readNodes (Position.start.advance '|') rest).map fun b => ⟨true, b.endBoundary, b.nodes⟩
  | _ => (readNodes .start source).map fun b => ⟨false, b.endBoundary, b.nodes⟩

/-- Reads a pattern, or reports what is wrong with it. -/
def parse (source : String) : Except PatternError Pattern :=
  (read source.toList).mapError fun e => ⟨e.fault.message, e.position⟩

end Pattern

end TermScan
