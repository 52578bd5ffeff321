import TermScan.Automaton.Basic
import TermScan.RegexMatcher

/-!
# What constructions report

The events met on the way when containers grow, patterns are expanded and matchers are built, in
order, each with its level and wording. A construction that fails reports what came before the
failure.
-/
namespace TermScan

inductive Level
  | trace
  | debug
  | warn
  deriving DecidableEq, Repr

/-- Something worth reporting. -/
inductive Event
  /-- The entries of an edge map move into another backing. -/
  | edgesMoved (move : EdgeMap.Move)
  /-- A set of so many intervals becomes a tree. -/
  | intervalsPromoted (count : Nat)
  /-- A pattern has many optionals and so very many expansions. -/
  | manyOptionals (count : Nat)
  | automatonBuilt (terms variants nodes forks : Nat)
  /-- Terms were compiled, some of them with boundaries. -/
  | termsCompiled (terms withBoundary : Nat)
  /-- A document has a key that nothing reads. -/
  | unknownField (path key : String)
  deriving DecidableEq, Repr

def EdgeMap.Backing.name : EdgeMap.Backing → String
  | array => "Array"
  | bucket => "Bucket"
  | hash => "Hash"

namespace Event

def level : Event → Level
  | edgesMoved _ | intervalsPromoted _ => .trace
  | automatonBuilt _ _ _ _ | termsCompiled _ _ => .debug
  | manyOptionals _ | unknownField _ _ => .warn

/-- The wording of an event. The number of expansions is shown up to the 127th power of two. -/
def message : Event → String
  | edgesMoved m =>
    "edge map of " ++ toString m.count ++ " entries moving from " ++ m.source.name ++ " to " ++
      m.target.name
  | intervalsPromoted count => "promoting interval set of " ++ toString count ++ " to tree"
  | manyOptionals count =>
    "pattern has " ++ toString count ++ " optionals and expands to " ++
      toString (Nat.pow 2 (min count 127)) ++ " simplified patterns"
  | automatonBuilt terms variants nodes forks =>
    "built blacklist automaton: " ++ toString terms ++ " terms, " ++ toString variants ++
      " simplified patterns, " ++ toString nodes ++ " nodes, " ++ toString forks ++ " fragments"
  | termsCompiled terms withBoundary =>
    "compiled " ++ toString terms ++ " terms to regexes (" ++ toString withBoundary ++
      " with lookaround)"
  | unknownField path key => path ++ ": unrecognized field \x60" ++ key ++ "\x60 (ignored)"

end Event

namespace Journal

/-- The largest number of optionals that is not worth a warning. -/
def optionalThreshold : Nat := 10

/-- What expanding a pattern reports. -/
def expansion (p : Pattern) : List Event :=
  if optionalThreshold < p.optionalCount then [.manyOptionals p.optionalCount] else []

/-- What checking and expanding terms reports: the terms before the first fault are expanded. -/
def terms (ts : List Term) : List Event := (Term.check ts).1.flatMap fun t => expansion t.pattern

def whitelist (phrases : List String) (pipeline : Pipeline) : List Event :=
  let words := (Whitelist.words phrases pipeline).takeWhile (!·.isEmpty)
  (Trie.empty.moves words).map .edgesMoved

/-- What building a matcher reports, given what its last step reports: each step is reached only
if those before it succeed. -/
def construction (o : Options) (last : List Event) : List Event :=
  terms o.terms ++
    if (Term.check o.terms).2.isSome then []
    else
      whitelist o.whitelist o.whitelistPipeline ++
        match Whitelist.build o.whitelist o.whitelistPipeline with
        | .error _ => []
        | .ok _ => last

def automaton (o : Options) : List Event :=
  construction o <|
    match Automaton.build o with
    | .error _ => []
    | .ok a =>
      (Trie.empty.moves (a.variants.map (·.atoms.lead))).map .edgesMoved ++
        [.automatonBuilt o.terms.length a.variantCount a.nodeCount a.forkCount]

def regexMatcher (o : Options) : List Event :=
  construction o <|
    match RegexMatcher.build o with
    | .error _ => []
    | .ok r =>
      [.termsCompiled r.terms.length
        (r.terms.countP fun t => t.pattern.startBoundary || t.pattern.endBoundary)]

def edgeMapSets {β : Type} (m : EdgeMap β) : List (Char × β) → List Event
  | [] => []
  | (key, value) :: rest =>
    (m.move? key).toList.map .edgesMoved ++ edgeMapSets (m.set key value) rest

def intervalInserts (s : IntervalSet) : List Interval → List Event
  | [] => []
  | x :: rest => s.promotion?.toList.map .intervalsPromoted ++ intervalInserts (s.insert x) rest

end Journal

end TermScan
