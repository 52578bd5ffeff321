import TermScan.Toml.Value

/-!
# Assembling tables

Tables come from headers, from dotted keys and from inline notation, and may not be defined twice.
While a document is put together every table therefore remembers whether it only came to be as
part of a path, and whether that path was a dotted key.
-/
namespace TermScan.Toml

/-- A dotted key: the tables it leads through, and the key in the last of them. -/
structure Key where
  path : List String
  last : String

/-- What a key of an unfinished table holds. -/
inductive Item
  | value (v : Value)
  /-- A table. It is `implicit` if only a path leads through it so far, and `dotted` if that path
  was a dotted key. -/
  | table (implicit dotted : Bool) (entries : List (String × Item))
  /-- An array of tables, the last one first. -/
  | tables (elements : List Item)

namespace Item

/-- The table that is defined where it stands and holds nothing yet. -/
def newTable : Item := table false false []

/-- Writes the item of a key where it stands, or at the end if the key is new. -/
def setEntry (key : String) (item : Item) : List (String × Item) → List (String × Item)
  | [] => [(key, item)]
  | (k, i) :: rest => if k = key then (key, item) :: rest else (k, i) :: setEntry key item rest

/-- Changes the table at the end of a path; missing tables come to be on the way. Of an array of
tables the last is meant. A dotted key may not lead into a table that is defined. -/
def update (dotted : Bool) (f : Item → Option Item) : List String → Item → Option Item
  | [], t => f t
  | key :: path, table implicit isDotted entries =>
    let changed :=
      match entries.lookup key with
      | none => update dotted f path (table true dotted [])
      | some (value _) => none
      | some (tables []) => none
      | some (tables (last :: earlier)) =>
        (update dotted f path last).map fun last => tables (last :: earlier)
      | some (table inner innerDotted items) =>
        if dotted && !inner then none else update dotted f path (table inner innerDotted items)
    changed.map fun item => table implicit isDotted (setEntry key item entries)
  | _ :: _, _ => none

/-- Adds a new key to a table: directly to one that is not dotted, or at the end of a dotted path
to one that is. -/
def addEntry (direct : Bool) (key : String) (v : Value) : Item → Option Item
  | table implicit dotted entries =>
    if dotted == direct || (entries.lookup key).isSome then none
    else some (table implicit dotted (entries ++ [(key, value v)]))
  | _ => none

/-- Adds a dotted key and its value to a table. -/
def addPair (t : Item) (pair : Key × Value) : Option Item :=
  update true (addEntry pair.1.path.isEmpty pair.1.last pair.2) pair.1.path t

def addPairs (t : Item) : List (Key × Value) → Option Item
  | [] => some t
  | pair :: rest => (t.addPair pair).bind fun t => t.addPairs rest

/-- Defines a table under a key of its parent, behind the other keys. Only one that is implicit,
and not by a dotted key, may be there already; it keeps what it holds and moves to the end. -/
def defineTable (key : String) (pairs : List (Key × Value)) : Item → Option Item
  | table implicit dotted entries =>
    let start :=
      match entries.lookup key with
      | none => some newTable
      | some (table true false items) => some (table false false items)
      | some _ => none
    (start.bind (·.addPairs pairs)).map fun t =>
      table implicit dotted (entries.filter (·.1 != key) ++ [(key, t)])
  | _ => none

/-- Adds a table to the array of tables under a key of its parent. -/
def appendTable (key : String) (pairs : List (Key × Value)) : Item → Option Item
  | table implicit dotted entries =>
    let earlier :=
      match entries.lookup key with
      | none => some []
      | some (tables elements) => some elements
      | some _ => none
    earlier.bind fun elements =>
      (newTable.addPairs pairs).map fun t =>
        table implicit dotted (setEntry key (tables (t :: elements)) entries)
  | _ => none

mutual

/-- The finished value of an item. -/
def toValue : Item → Value
  | value v => v
  | table _ _ entries => .table (toEntries entries)
  | tables elements => .array (toValues elements).reverse

def toValues : List Item → List Value
  | [] => []
  | item :: rest => item.toValue :: toValues rest

/-- The finished entries of a table, in the order in which they came to be. -/
def toEntries : List (String × Item) → Entries
  | [] => []
  | (key, item) :: rest => (key, item.toValue) :: toEntries rest

end

end Item

end TermScan.Toml
