import TermScan.Text
import TermScan.Transform.Collapse

/-!
# Pipelines of transformers

A transformer maps a character to another one or drops it. A pipeline is a list of transformers;
a run of it holds the state of those that remember what they have read, so runs never meet. What
a run keeps of a text stays paired with the place it came from.
-/
namespace TermScan

/-- One step of normalisation. -/
inductive Transformer
  /-- Maps each character on its own; `none` drops it. -/
  | mapping (f : Char → Option Char)
  /-- Cuts runs of equal characters. -/
  | collapsing (thresholds : Thresholds)

/-- Transformers, applied in order. -/
structure Pipeline where
  transformers : List Transformer

/-- A transformer at work. -/
inductive Stage
  | mapping (f : Char → Option Char)
  | collapsing (state : Collapse)

namespace Stage

def ofTransformer : Transformer → Stage
  | .mapping f => mapping f
  | .collapsing thresholds => collapsing (.start thresholds)

def reset : Stage → Stage
  | mapping f => mapping f
  | collapsing state => collapsing state.reset

def step (c : Char) : Stage → Option Char × Stage
  | mapping f => (f c, mapping f)
  | collapsing state =>
    let (out, state) := state.step c
    (out, collapsing state)

end Stage

/-- A character that a pipeline kept, and the place in the source it came from. -/
structure Mapped where
  char : Char
  site : Site
  deriving DecidableEq, Repr

/-- The source bytes from one kept character to another, both included. -/
def sourceSpan? (kept : List Mapped) (first last : Nat) : Option Span := do
  let a ← kept[first]?
  let b ← kept[last]?
  return ⟨a.site.span.first, b.site.span.last⟩

/-- A pipeline at work. -/
structure Run where
  stages : List Stage

namespace Run

def reset (r : Run) : Run := ⟨r.stages.map Stage.reset⟩

/-- Passes a character through stages; those behind the first that drops it see nothing. -/
def stepStages (c : Char) : List Stage → Option Char × List Stage
  | [] => (some c, [])
  | s :: rest =>
    match s.step c with
    | (none, s) => (none, s :: rest)
    | (some d, s) =>
      let (out, rest) := stepStages d rest
      (out, s :: rest)

def step (r : Run) (c : Char) : Option Char × Run :=
  let (out, stages) := stepStages c r.stages
  (out, ⟨stages⟩)

/-- Reads characters in order and gives what becomes of each. -/
def feed (r : Run) : List Char → List (Option Char) × Run
  | [] => ([], r)
  | c :: rest =>
    let (out, r) := r.step c
    let (outs, r) := r.feed rest
    (out :: outs, r)

/-- Reads sites in order and gives the kept characters with their places. -/
def readSites (r : Run) : List Site → List Mapped × Run
  | [] => ([], r)
  | s :: rest =>
    match r.step s.char with
    | (none, r) => r.readSites rest
    | (some c, r) =>
      let (kept, r) := r.readSites rest
      (⟨c, s⟩ :: kept, r)

/-- Transforms a text from a fresh state. -/
def apply (r : Run) (text : List Char) : List Mapped × Run := r.reset.readSites (sites text)

end Run

namespace Pipeline

def identity : Pipeline := ⟨[]⟩

def start (p : Pipeline) : Run := ⟨p.transformers.map Stage.ofTransformer⟩

/-- Transforms a text. -/
def apply (p : Pipeline) (text : List Char) : List Mapped := (p.start.apply text).1

/-- The characters kept of a text. -/
def chars (p : Pipeline) (text : List Char) : List Char := (p.apply text).map Mapped.char

def size (p : Pipeline) : Nat := p.transformers.length

end Pipeline

end TermScan
