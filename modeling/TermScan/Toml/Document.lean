import TermScan.Toml.Assembly
import TermScan.Toml.MomentTable
import TermScan.Toml.Number
import TermScan.Toml.Quoted

/-!
# TOML documents

A document is a list of lines: keys with values, and headers that say into which table the keys
below them go. `parse` reads the lines and assembles the table of the document. A reader that looks
at every value, as `inspect?` does, refuses some documents that others accept.
-/
namespace TermScan.Toml

/-- A key may have fewer parts than this, and arrays and tables may nest less deeply. -/
def depthLimit : Nat := 80

def readKeyPart (text : List Char) : Option (Found String) :=
  match text with
  | '\x22' :: _ => readShortQuoted text
  | '\x27' :: _ => readShortQuoted text
  | _ =>
    let name := text.takeWhile isBareKeyChar
    if name.isEmpty then none else some (String.ofList name, text.dropWhile isBareKeyChar)

/-- At most `parts` parts of a key, with points between them and blanks anywhere. -/
def readKeyParts : Nat → List Char → Option (Found (List String))
  | 0, _ => none
  | parts + 1, text =>
    match readKeyPart (skipBlanks text) with
    | none => none
    | some (part, behind) =>
      match skipBlanks behind with
      | '.' :: rest => (readKeyParts parts rest).map fun (more, behind) => (part :: more, behind)
      | behind => some ([part], behind)

/-- A dotted key, and the blanks around it. -/
def readKey (text : List Char) : Option (Found Key) :=
  match readKeyParts (depthLimit - 1) text with
  | some (parts, behind) => parts.getLast?.map fun last => (⟨parts.dropLast, last⟩, behind)
  | none => none

/-- A value that holds no other. -/
def readScalar (text : List Char) : Option (Found Value) :=
  match text with
  | '\x22' :: _ => (readQuoted text).map fun (s, behind) => (.string s, behind)
  | '\x27' :: _ => (readQuoted text).map fun (s, behind) => (.string s, behind)
  | 't' :: 'r' :: 'u' :: 'e' :: rest => some (.boolean true, rest)
  | 'f' :: 'a' :: 'l' :: 's' :: 'e' :: rest => some (.boolean false, rest)
  | _ =>
    match readMoment text with
    | some (m, behind) => some (.moment m, behind)
    | none => readNumber text

mutual

/-- A value at a depth. Each level of reading takes one unit of fuel. -/
def readValue : Nat → Nat → List Char → Option (Found Value)
  | 0, _, _ => none
  | fuel + 1, depth, '[' :: rest =>
    if depth + 1 < depthLimit then
      (readItems fuel (depth + 1) rest).map fun (items, behind) => (.array items, behind)
    else none
  | fuel + 1, depth, '\x7b' :: rest =>
    if depth + 1 < depthLimit then
      match skipBlanks rest with
      | '\x7d' :: behind => some (.table [], behind)
      | rest =>
        match readPairs fuel (depth + 1) rest with
        | some (pairs, behind) =>
          (Item.newTable.addPairs pairs).map fun t => (t.toValue, behind)
        | none => none
    else none
  | _ + 1, _, text => readScalar text

/-- The items of an array up to its bracket. A comma may stand behind the last one. -/
def readItems : Nat → Nat → List Char → Option (Found (List Value))
  | 0, _, _ => none
  | fuel + 1, depth, text => do
    match ← skipGaps text with
    | ']' :: behind => return ([], behind)
    | text =>
      let (item, behind) ← readValue fuel depth text
      match ← skipGaps behind with
      | ',' :: rest =>
        let (items, behind) ← readItems fuel depth rest
        return (item :: items, behind)
      | ']' :: rest => return ([item], rest)
      | _ => none

/-- The keys and values of an inline table up to its brace, all on one line. -/
def readPairs : Nat → Nat → List Char → Option (Found (List (Key × Value)))
  | 0, _, _ => none
  | fuel + 1, depth, text => do
    let (key, behind) ← readKey text
    let behind ← skipExactly? ['='] behind
    let (value, behind) ← readValue fuel depth (skipBlanks behind)
    match skipBlanks behind with
    | ',' :: rest =>
      let (pairs, behind) ← readPairs fuel depth rest
      return ((key, value) :: pairs, behind)
    | '\x7d' :: rest => return ([(key, value)], rest)
    | _ => none

end

/-- A line of a document that says something. -/
inductive Line
  | pair (key : Key) (value : Value)
  /-- The keys below go into the table of this name. -/
  | table (name : Key)
  /-- The keys below go into a new table at the end of the array of this name. -/
  | tables (name : Key)

/-- A key and its value, up to the end of the line. -/
def readPairLine (fuel : Nat) (text : List Char) : Option (Found Line) := do
  let (key, behind) ← readKey text
  let behind ← skipExactly? ['='] behind
  let (value, behind) ← readValue fuel 0 (skipBlanks behind)
  let behind ← lineEnd? behind
  return (.pair key value, behind)

/-- A header, up to the end of the line. -/
def readHeaderLine (text : List Char) : Option (Found Line) := do
  match text with
  | '[' :: '[' :: rest =>
    let (name, behind) ← readKey rest
    let behind ← skipExactly? [']', ']'] behind
    let behind ← lineEnd? behind
    return (.tables name, behind)
  | '[' :: rest =>
    let (name, behind) ← readKey rest
    let behind ← skipExactly? [']'] behind
    let behind ← lineEnd? behind
    return (.table name, behind)
  | _ => none

/-- The lines of a document. Each takes one unit of fuel and at least one character, and two units
per character are enough for any value. -/
def readLines : Nat → List Char → Option (List Line)
  | 0, _ => none
  | fuel + 1, text =>
    match skipBlanks text with
    | [] => some []
    | '#' :: rest => (lineEnd? ('#' :: rest)).bind (readLines fuel)
    | '\n' :: rest => readLines fuel rest
    | '\r' :: rest => (lineBreak? ('\r' :: rest)).bind (readLines fuel)
    | '[' :: rest =>
      (readHeaderLine ('[' :: rest)).bind fun (line, behind) =>
        (readLines fuel behind).map (line :: ·)
    | text =>
      (readPairLine (2 * fuel + 2) text).bind fun (line, behind) =>
        (readLines fuel behind).map (line :: ·)

/-- The keys and values of a table, from one header to the next. -/
structure Section where
  /-- The header; none for what precedes the first one. -/
  header : Option Line
  pairs : List (Key × Value)

/-- The keys and values before the first header, and the sections from there on. -/
def splitSections : List Line → List (Key × Value) × List Section
  | [] => ([], [])
  | .pair key value :: rest =>
    let (pairs, later) := splitSections rest
    ((key, value) :: pairs, later)
  | header :: rest =>
    let (pairs, later) := splitSections rest
    ([], ⟨some header, pairs⟩ :: later)

/-- Adds a section to the table of the document. -/
def Section.addTo (s : Section) (root : Item) : Option Item :=
  match s.header with
  | some (.table name) => root.update false (Item.defineTable name.last s.pairs) name.path
  | some (.tables name) => root.update false (Item.appendTable name.last s.pairs) name.path
  | _ => root.addPairs s.pairs

/-- The table of a document. -/
def assemble (lines : List Line) : Option Item :=
  let (pairs, sections) := splitSections lines
  sections.foldl (fun root s => root.bind s.addTo) (Item.newTable.addPairs pairs)

/-- The entries of a document; none if the text is no document. A byte order mark may precede
it. -/
def parse (content : String) : Option Entries := do
  let text :=
    match content.toList with
    | '\ufeff' :: rest => rest
    | text => text
  let lines ← readLines (text.length + 1) text
  match (← assemble lines).toValue with
  | .table entries => return entries
  | _ => none

/-- The entries of a document of which every value is looked at, also those that nothing reads:
no table in it is wrongly taken for a moment. -/
def inspect? (content : String) : Option Entries :=
  (parse content).filter Value.momentsHoldUnder

end TermScan.Toml
